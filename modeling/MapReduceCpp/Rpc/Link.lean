import MapReduceCpp.Rpc.Unpacker
import MapReduceCpp.Rpc.Connection
import Mathlib.Data.List.Infix

/-!
# MapReduceCpp.Rpc.Link

One direction of a connection, in bytes.

The bytes of the messages go into a stream, and the other end reads the stream a piece at
a time into the buffer of its unpacker, unpacks what it can and makes room for the next
read. Whether a buffer that has been unpacked to its end may be used again depends on who
still refers to it, and is left open here.

However the writes and reads fall, no read goes beyond the end of the buffer, and the
objects that are handed on are those whose bytes have all been read, each once and in
their order (`link_delivers`).
-/

open Transition (Reaches)

namespace MapReduceCpp.Rpc

/-! ### The buffer

The unpacker of a session owns a buffer that grows: `m_used` bytes of it are filled, the first
`m_off` of these have been parsed, and `m_free` bytes are left. The arithmetic is that of
`size_t`, so the doubling of a size may wrap around, and the loop then takes what is needed.
Behind a chunk `do_read` makes room for the next one. -/

/-- `COUNTER_SIZE`, of the reference count at the start of a buffer. -/
def counterSize : ℕ := 4

/-- `MSGPACK_UNPACKER_INIT_BUFFER_SIZE`. -/
def initialBufferSize : ℕ := 64 * 1024

/-- `max_read_bytes`. -/
def maxReadBytes : ℕ := 2 ^ 20

/-- `malloc` and `realloc` give nothing beyond the largest `ptrdiff_t`. -/
def malloc (size : ℕ) : Except Fault Unit :=
  if size < 2 ^ 63 then .ok () else .error (.exception "std::bad_alloc".toList)

/-- The loop that doubles a size until it is enough. -/
def grow (next need : ℕ) : ℕ :=
  if next < need then
    if next * 2 % 2 ^ 64 ≤ next then need else grow (next * 2 % 2 ^ 64) need
  else next
termination_by need - next

/-- The buffer of a parser: the bytes behind the counter up to `m_used`, `m_off` counted
from the first of them, and `m_free`. -/
structure Buffer where
  bytes : Str
  off : ℕ
  free : ℕ

namespace Buffer

/-- `m_used`. -/
def used (b : Buffer) : ℕ := counterSize + b.bytes.length

/-- The bytes that have not been parsed. -/
def notParsed (b : Buffer) : Str := b.bytes.drop b.off

/-- To start over in a buffer that is parsed to its end and that nobody else refers to. -/
def rewind (b : Buffer) (unshared : Bool) : Buffer :=
  if b.off = b.bytes.length ∧ unshared then ⟨[], 0, b.free + b.bytes.length⟩ else b

/-- The rest of `expand_buffer`: a buffer of which nothing has been parsed is enlarged, and
of any other the bytes that have not been parsed are taken into a new one. -/
def enlarge (b : Buffer) (size : ℕ) : Except Fault Buffer :=
  if b.off = 0 then
    let nextSize := grow ((b.used + b.free) * 2 % 2 ^ 64) (size + b.used)
    (malloc nextSize).map fun _ => { b with free := nextSize - b.used }
  else
    let nextSize := grow initialBufferSize (size + b.notParsed.length + counterSize)
    (malloc nextSize).map fun _ =>
      ⟨b.notParsed, 0, nextSize - (b.notParsed.length + counterSize)⟩

/-- `expand_buffer`. -/
def expandBuffer (b : Buffer) (size : ℕ) (unshared : Bool) : Except Fault Buffer :=
  let b := b.rewind unshared
  if size ≤ b.free then .ok b else b.enlarge size

/-- `reserve_buffer`. -/
def reserveBuffer (b : Buffer) (size : ℕ) (unshared : Bool) : Except Fault Buffer :=
  if size ≤ b.free then .ok b else b.expandBuffer size unshared

end Buffer

/-- `pac_`. -/
structure Reader where
  buffer : Buffer
  context : Context

/-- A new unpacker that has room for a read. -/
def Reader.create : Except Fault Reader :=
  (Buffer.reserveBuffer ⟨[], 0, initialBufferSize - counterSize⟩ maxReadBytes true).map
    fun buffer => ⟨buffer, .init⟩

/-- The handler of a read, in `do_read`: the objects it hands on, and the unpacker behind
it. Bytes that do not fit into the buffer have been written behind its end. -/
def Reader.doRead (r : Reader) (chunk : Str) (unshared : Bool) : List Obj × Except Fault Reader :=
  if r.buffer.free < chunk.length then ([], .error .undefined)
  else
    let bytes := r.buffer.bytes ++ chunk
    let fed := unpacker.feed r.context (bytes.drop r.buffer.off)
    (fed.outputs, do
      let (context, left) ← fed.rest
      let buffer : Buffer := ⟨bytes, bytes.length - left.length, r.buffer.free - chunk.length⟩
      let buffer ← buffer.reserveBuffer maxReadBytes unshared
      .ok ⟨buffer, context⟩)

/-! ### The link

Whoever writes and whoever reads take turns in any order, and a read may take any number of the
bytes that are there, so a message can be torn anywhere and several can come at once. A fault in
a handler of a read ends the reading. -/

/-- A stream of bytes and the unpacker at its end. `written` and `handed` are histories. -/
structure Link where
  wire : Str
  reader : Reader
  /-- What has left the handler of a read. -/
  fault : Option Fault
  written : List Obj
  handed : List Obj

inductive LinkEvent
  /-- An object is packed and written. -/
  | write (o : Obj)
  /-- `async_read_some` reads so many bytes. -/
  | read (n : ℕ) (unshared : Bool)

/-- Nothing has been written yet. -/
def Link.fresh (reader : Reader) : Link := ⟨[], reader, none, [], []⟩

/-- A step of either end. Nothing is read after a fault, and never more than the room that was
asked for. -/
def linkStep (s : Link) : LinkEvent → Option Link
  | .write o => some { s with wire := s.wire ++ o.pack, written := s.written ++ [o] }
  | .read n unshared =>
    if s.fault = none ∧ 0 < n ∧ n ≤ s.wire.length ∧ n ≤ maxReadBytes then
      let (objs, result) := s.reader.doRead (s.wire.take n) unshared
      some
        { s with
          wire := s.wire.drop n
          reader := result.toOption.getD s.reader
          fault := match result with
            | .error e => some e
            | .ok _ => none
          handed := s.handed ++ objs }
    else none

/-! ### Room

The buffer has room for a read before every read, if the memory lasts. For this the doubling has
to reach what is needed without going far beyond it, and the parsed bytes may be dropped only
where they are not to be parsed again. -/

/-- The doubling does not stop too early, even where it has wrapped around. -/
theorem le_grow (next need : ℕ) : need ≤ grow next need := by
  induction next using grow.induct need with
  | case1 next hlt hle => rw [grow, if_pos hlt, if_pos hle]
  | case2 next hlt hle ih => rwa [grow, if_pos hlt, if_neg hle]
  | case3 next hle => rw [grow, if_neg hle]; omega

/-- It goes at most to twice of what is needed. -/
theorem grow_le (next need : ℕ) : grow next need ≤ max next (2 * need) := by
  induction next using grow.induct need with
  | case1 next hlt hle => rw [grow, if_pos hlt, if_pos hle]; omega
  | case2 next hlt hle ih =>
    have := Nat.mod_le (next * 2) (2 ^ 64)
    rw [grow, if_pos hlt, if_neg hle]
    omega
  | case3 next hle => rw [grow, if_neg hle]; exact le_max_left _ _

namespace Buffer

variable {b : Buffer} (unshared : Bool)

/-- To start over loses nothing that is still to be parsed. -/
theorem rewind_spec (h : b.off ≤ b.bytes.length) :
    (b.rewind unshared).notParsed = b.notParsed ∧
      (b.rewind unshared).off ≤ (b.rewind unshared).bytes.length ∧
      (b.rewind unshared).bytes.length ≤ b.bytes.length := by
  unfold rewind
  split
  · rename_i hall
    refine ⟨?_, le_rfl, Nat.zero_le _⟩
    rw [notParsed, notParsed, hall.1, List.drop_length]
    rfl
  · exact ⟨rfl, h, le_rfl⟩

/-- There is room for a read, and nothing of what is still to be parsed is lost. -/
theorem reserveBuffer_spec (h : b.off ≤ b.bytes.length) (hsize : b.bytes.length < 2 ^ 61) :
    ∃ b', b.reserveBuffer maxReadBytes unshared = .ok b' ∧ maxReadBytes ≤ b'.free ∧
      b'.notParsed = b.notParsed ∧ b'.off ≤ b'.bytes.length ∧
      b'.bytes.length ≤ b.bytes.length := by
  unfold reserveBuffer
  split
  · rename_i hroom
    exact ⟨b, rfl, hroom, rfl, h, le_rfl⟩
  obtain ⟨hkeeps, hoff, hlen⟩ := rewind_spec unshared h
  unfold expandBuffer enlarge
  generalize b.rewind unshared = c at hkeeps hoff hlen
  dsimp only
  split_ifs with hroom hzero
  · exact ⟨c, rfl, hroom, hkeeps, hoff, hlen⟩
  · have hge := le_grow ((c.used + c.free) * 2 % 2 ^ 64) (maxReadBytes + c.used)
    have hle := grow_le ((c.used + c.free) * 2 % 2 ^ 64) (maxReadBytes + c.used)
    generalize grow _ _ = nextSize at hge hle
    simp only [used, counterSize, maxReadBytes] at hge hle hroom
    refine ⟨{ c with free := nextSize - c.used }, ?_, ?_, hkeeps, hoff, hlen⟩
    · rw [malloc, if_pos (by omega)]
      rfl
    · simp only [used, counterSize, maxReadBytes]
      omega
  · have hge := le_grow initialBufferSize (maxReadBytes + c.notParsed.length + counterSize)
    have hle := grow_le initialBufferSize (maxReadBytes + c.notParsed.length + counterSize)
    have hparsed : c.notParsed.length ≤ c.bytes.length := by
      rw [notParsed, List.length_drop]
      exact Nat.sub_le _ _
    generalize grow _ _ = nextSize at hge hle
    simp only [initialBufferSize, counterSize, maxReadBytes] at hge hle
    refine ⟨_, by rw [malloc, if_pos (by omega)]; rfl, ?_, ?_, Nat.zero_le _, hparsed.trans hlen⟩
    · simp only [counterSize, maxReadBytes]
      omega
    · rw [← hkeeps]
      rfl

end Buffer

/-- A read that fits, over bytes that the parser can read. -/
theorem Reader.doRead_spec {r : Reader} {chunk left : Str} {context : Context}
    {objs : List Obj} (unshared : Bool) (hoff : r.buffer.off ≤ r.buffer.bytes.length)
    (hroom : chunk.length ≤ r.buffer.free)
    (hsize : r.buffer.bytes.length + chunk.length < 2 ^ 61)
    (hfed : unpacker.feed r.context (r.buffer.notParsed ++ chunk) = ⟨objs, .ok (context, left)⟩) :
    ∃ b, r.doRead chunk unshared = (objs, .ok ⟨b, context⟩) ∧ maxReadBytes ≤ b.free ∧
      b.notParsed = left ∧ b.off ≤ b.bytes.length ∧
      b.bytes.length ≤ r.buffer.bytes.length + chunk.length := by
  have hdrop : (r.buffer.bytes ++ chunk).drop r.buffer.off = r.buffer.notParsed ++ chunk :=
    List.drop_append_of_le_length hoff
  have hleft : left <:+ r.buffer.bytes ++ chunk := by
    have hsuffix := Incremental.feed_suffix (congrArg Incremental.Fed.rest hfed)
    rw [← hdrop] at hsuffix
    exact hsuffix.trans (List.drop_suffix _ _)
  -- The buffer behind the objects that are complete, before room is made.
  let parsed : Buffer := ⟨r.buffer.bytes ++ chunk,
    (r.buffer.bytes ++ chunk).length - left.length, r.buffer.free - chunk.length⟩
  have hlen : parsed.bytes.length = r.buffer.bytes.length + chunk.length := List.length_append
  obtain ⟨b, hb, hfree, hkeeps, hboff, hblen⟩ := Buffer.reserveBuffer_spec (b := parsed) unshared
    (Nat.sub_le _ _) (by omega)
  refine ⟨b, ?_, hfree, ?_, hboff, by omega⟩
  · unfold doRead
    rw [if_neg (by omega)]
    dsimp only
    rw [hdrop, hfed]
    simp only [bind, Except.bind]
    rw [show Buffer.reserveBuffer _ _ _ = _ from hb]
  · exact hkeeps.trans (List.suffix_iff_eq_drop.mp hleft).symm

/-! ### Delivery

The invariant compares the reader with an unpacker that is given all the bytes read so far in
one piece. That it does not matter where they were cut is `feed_append`, and that what comes out
of a prefix are the first objects is `feed_prefix`, both for any incremental parser. -/

/-- What a link has read, and what it has made of that. -/
structure Tracks (s : Link) (bytes : Str) : Prop where
  /-- What has been read and what is under way are together what was written. -/
  split : bytes ++ s.wire = s.written.flatMap Obj.pack
  sized : ∀ o ∈ s.written, o.Sized 0
  fault : s.fault = none
  off_le : s.reader.buffer.off ≤ s.reader.buffer.bytes.length
  length_le : s.reader.buffer.bytes.length ≤ bytes.length
  room : maxReadBytes ≤ s.reader.buffer.free
  /-- The reader stands where an unpacker stands that was given everything at once. -/
  feed : unpacker.feed .init bytes =
    ⟨s.handed, .ok (s.reader.context, s.reader.buffer.notParsed)⟩

namespace Tracks

variable {s s' : Link} {bytes : Str}

/-- A new reader has read nothing and has room. -/
theorem fresh {reader : Reader} (h : Reader.create = .ok reader) : Tracks (.fresh reader) [] := by
  obtain ⟨b, hb, hroom, hkeeps, hoff, hlen⟩ := Buffer.reserveBuffer_spec
    (b := ⟨[], 0, initialBufferSize - counterSize⟩) true le_rfl (by decide)
  rw [Reader.create, hb] at h
  cases h
  exact ⟨rfl, fun _ h => (List.not_mem_nil h).elim, rfl, hoff, hlen, hroom,
    by rw [Link.fresh, hkeeps]; rfl⟩

/-- What is written lengthens the stream and changes nothing for the reader. -/
theorem write (h : Tracks s bytes) {o : Obj} (ho : o.Sized 0) :
    Tracks { s with wire := s.wire ++ o.pack, written := s.written ++ [o] } bytes where
  split := by
    rw [List.flatMap_append, List.flatMap_singleton, ← h.split, List.append_assoc]
  sized p hp := by
    rcases List.mem_append.mp hp with hp | hp
    · exact h.sized p hp
    · rwa [List.mem_singleton.mp hp]
  fault := h.fault
  off_le := h.off_le
  length_le := h.length_le
  room := h.room
  feed := h.feed

/-- A read goes well as long as the whole stream fits into memory. -/
theorem read (h : Tracks s bytes) (hsize : (s.written.flatMap Obj.pack).length < 2 ^ 61) {n : ℕ}
    {unshared : Bool} (hstep : linkStep s (.read n unshared) = some s') :
    Tracks s' (bytes ++ s.wire.take n) := by
  simp only [linkStep] at hstep
  split_ifs at hstep with hguard
  obtain ⟨-, -, hn, hmax⟩ := hguard
  have htake : (s.wire.take n).length = n := List.length_take_of_le hn
  have hsplit : (bytes ++ s.wire.take n) ++ s.wire.drop n = s.written.flatMap Obj.pack := by
    rw [List.append_assoc, List.take_append_drop, h.split]
  have hbytes : bytes.length + n ≤ (s.written.flatMap Obj.pack).length := by
    rw [← hsplit, List.length_append, List.length_append, htake]
    omega
  have hlen := h.length_le
  -- The bytes read are the beginning of packed objects, so the unpacker finds no fault.
  obtain ⟨k, context, left, hfeed, -, -⟩ :=
    unpacker_decodes.feed_prefix h.sized (hsplit ▸ List.prefix_append _ _)
  obtain ⟨objs, hobjs⟩ : ∃ objs, unpacker.feed s.reader.context
      (s.reader.buffer.notParsed ++ s.wire.take n) = ⟨objs, .ok (context, left)⟩ := by
    rw [Incremental.feed_append, h.feed] at hfeed
    have hrest : (unpacker.feed s.reader.context (s.reader.buffer.notParsed ++ s.wire.take n)).rest =
        .ok (context, left) := congrArg Incremental.Fed.rest hfeed
    exact ⟨_, congrArg (Incremental.Fed.mk _) hrest⟩
  obtain ⟨b, hread, hroom, hkeeps, hoff, hblen⟩ := Reader.doRead_spec unshared
    h.off_le (by rw [htake]; exact hmax.trans h.room) (by rw [htake]; omega) hobjs
  rw [hread] at hstep
  obtain rfl := Option.some.inj hstep
  refine ⟨hsplit, h.sized, rfl, hoff, ?_, hroom, ?_⟩
  · simp only [List.length_append]
    exact hblen.trans (Nat.add_le_add_right hlen _)
  · rw [Incremental.feed_append, h.feed]
    simp only [Incremental.Fed.bind, hobjs]
    exact congrArg _ (congrArg _ (congrArg _ hkeeps.symm))

end Tracks

/-- Only objects whose sizes are in range are written. -/
def Packable (_ : Link) (e : LinkEvent) : Prop := ∀ o, e = .write o → o.Sized 0

/-- The invariant holds in every run that does not fill the memory. -/
theorem exists_tracks {reader : Reader} {s : Link} (hreader : Reader.create = .ok reader)
    (h : Reaches linkStep Packable (.fresh reader) s) :
    (s.written.flatMap Obj.pack).length < 2 ^ 61 → ∃ bytes, Tracks s bytes := by
  induction h with
  | refl => exact fun _ => ⟨[], .fresh hreader⟩
  | @tail s s' e _ hok hstep ih =>
    intro hsize
    cases e with
    | write o =>
      obtain rfl := Option.some.inj hstep
      rw [List.flatMap_append, List.length_append] at hsize
      obtain ⟨bytes, htracks⟩ := ih (by omega)
      exact ⟨bytes, htracks.write (hok o rfl)⟩
    | read n unshared =>
      have hwritten : s'.written = s.written := by
        simp only [linkStep] at hstep
        split_ifs at hstep
        obtain rfl := Option.some.inj hstep
        rfl
      rw [hwritten] at hsize
      obtain ⟨bytes, htracks⟩ := ih hsize
      exact ⟨_, htracks.read hsize hstep⟩

/-- However the writes and reads fall, no handler of a read fails, there is always room for
the next read, and what has been handed on are the first of the objects that were written:
those whose bytes have all been read. -/
theorem link_delivers {reader : Reader} {s : Link} (hreader : Reader.create = .ok reader)
    (h : Reaches linkStep Packable (.fresh reader) s)
    (hsize : (s.written.flatMap Obj.pack).length < 2 ^ 61) :
    s.fault = none ∧ maxReadBytes ≤ s.reader.buffer.free ∧
      (∃ k, s.handed = s.written.take k ∧
        (s.handed.flatMap Obj.pack).length + s.wire.length ≤
          (s.written.flatMap Obj.pack).length ∧
        (k < s.written.length → (s.written.flatMap Obj.pack).length <
          ((s.written.take (k + 1)).flatMap Obj.pack).length + s.wire.length)) ∧
      (s.wire = [] → s.handed = s.written) := by
  obtain ⟨bytes, ht⟩ := exists_tracks hreader h hsize
  obtain ⟨k, context, left, hfeed, hwhole, hpart⟩ :=
    unpacker_decodes.feed_prefix ht.sized (ht.split ▸ List.prefix_append _ _)
  have hhanded : s.handed = s.written.take k :=
    congrArg Incremental.Fed.outputs (ht.feed.symm.trans hfeed)
  have htotal : bytes.length + s.wire.length = (s.written.flatMap Obj.pack).length := by
    rw [← ht.split, List.length_append]
  have hle := hwhole.length_le
  refine ⟨ht.fault, ht.room, ⟨k, hhanded, ?_, fun hk => ?_⟩, fun hwire => ?_⟩
  · rw [hhanded]
    omega
  · have := hpart hk
    omega
  · rw [hhanded]
    refine List.take_of_length_le (not_lt.mp fun hk => ?_)
    have hlt := hpart hk
    have hsome : ((s.written.take (k + 1)).flatMap Obj.pack).length ≤
        (s.written.flatMap Obj.pack).length :=
      (List.IsPrefix.flatMap (List.take_prefix _ _) _).length_le
    rw [hwire, List.length_nil] at htotal
    omega

/-! ### Messages

What the connection of this model puts into the stream are calls and responses. A call is in
range whatever its number is, since its index is an `int`. -/

/-- The messages of a connection can be written. -/
theorem Call.sized_message {c : Call} (hname : c.name.length < 2 ^ 32)
    (hlen : c.args.length < 2 ^ 32) (hargs : Obj.AllSized 2 c.args) : c.message.Sized 0 := by
  have hidx : -2 ^ 31 ≤ c.idx ∧ c.idx < 2 ^ 31 := by
    unfold Call.idx
    have hle := Int.le_bmod (x := c.number) (show 0 < 2 ^ 32 by decide)
    have hlt := Int.bmod_lt (x := c.number) (show 0 < 2 ^ 32 by decide)
    norm_num at hle hlt ⊢
    exact ⟨hle, hlt⟩
  exact ⟨show 4 < 2 ^ 32 by decide, by decide, ⟨by decide, by decide⟩, ⟨by omega, by omega⟩, hname,
    ⟨hlen, by decide, hargs⟩, trivial⟩

/-- The unpacker of a session that has just begun. -/
theorem create_eq : Reader.create = .ok ⟨⟨[], 0, 2 ^ 21 - counterSize⟩, .init⟩ := by
  simp [Reader.create, Buffer.reserveBuffer, Buffer.expandBuffer, Buffer.enlarge,
    Buffer.rewind, Buffer.used, initialBufferSize, counterSize, maxReadBytes, grow, malloc, Except.map]

/-- Two calls, the first of which is read in two pieces and the second not to its end. -/
def sampleLink : List LinkEvent :=
  [.write (Call.message ⟨1, "map".toList, [.integer 0]⟩), .read 4 true,
    .write (Call.message ⟨2, "is_map_done".toList, []⟩), .read 15 false]

theorem packable_sampleLink : ∀ e ∈ sampleLink, ∀ s, Packable s e := by
  intro e he s o ho
  subst ho
  simp only [sampleLink, List.mem_cons, LinkEvent.write.injEq, reduceCtorEq, List.not_mem_nil,
    or_false, false_or] at he
  rcases he with rfl | rfl
  · exact Call.sized_message (by decide) (by decide) ⟨⟨by decide, by decide⟩, trivial⟩
  · exact Call.sized_message (by decide) (by decide) trivial

/-- The first call has been handed on. -/
theorem link_delivers_sample : ∃ reader s, Reader.create = .ok reader ∧
    Reaches linkStep Packable (.fresh reader) s ∧ s.fault = none ∧ s.written.length = 2 ∧
    s.handed = s.written.take 1 := by
  have hrun : (Transition.run linkStep sampleLink
      (.fresh ⟨⟨[], 0, 2 ^ 21 - counterSize⟩, .init⟩)).map (fun s =>
        (s.handed.length, s.written.length, (s.written.flatMap Obj.pack).length)) =
      some (1, 2, 25) := by decide +kernel
  obtain ⟨s, hs, heq⟩ := Option.map_eq_some_iff.mp hrun
  simp only [Prod.mk.injEq] at heq
  obtain ⟨hhanded, hwritten, htotal⟩ := heq
  have hreach := Transition.reaches_of_labels packable_sampleLink hs
  obtain ⟨hfault, -, ⟨k, hk, -, -⟩, -⟩ := link_delivers create_eq hreach (by rw [htotal]; decide)
  refine ⟨_, s, create_eq, hreach, hfault, hwritten, ?_⟩
  have hlen := congrArg List.length hk
  rw [hhanded, List.length_take, hwritten] at hlen
  rw [hk, show k = 1 by omega]

end MapReduceCpp.Rpc
