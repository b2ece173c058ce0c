import MapReduceCpp.Rpc.Msgpack
import MapReduceCpp.Lib.Incremental

/-!
# MapReduceCpp.Rpc.Unpacker

The unpacker, as a parser of bytes that come in chunks.

`execute` reads one byte as a header. Where a header does not tell everything it names the
number of bytes that do, and the parser waits until they are all there; behind a size come
as many bytes again. A finished object goes into the innermost open container, and a
container that is full is itself finished. `next` gives the object that is in no container.

What has been packed is unpacked again, from any byte on and whatever is still open
(`feed_pack`).
-/

namespace MapReduceCpp.Rpc

/-- The kinds of data that follow a size. -/
inductive Raw
  | str
  | bin
  | ext

/-- `visit_str`, `visit_bin` and `visit_ext`. -/
def Raw.obj : Raw → Str → Obj
  | str => .str
  | bin => .bin
  | ext => .ext

/-- The two kinds of objects that hold others. -/
inductive Container
  | array
  | map

/-- An open container, with the number of elements that are missing and those that are
there. The parser keeps the numbers on its stack and the visitor the elements on another,
which grows and shrinks with it. -/
inductive Frame
  | arrayItem (rest : ℕ) (items : List Obj)
  | mapKey (rest : ℕ) (kvs : List (Obj × Obj))
  | mapValue (rest : ℕ) (kvs : List (Obj × Obj)) (key : Obj)

/-- A container that is announced empty is finished as soon as it is started. -/
def Container.nothing : Container → Obj
  | array => .array []
  | map => .map []

/-- What is put on the stack for a container of so many elements. -/
def Container.frame (size : ℕ) : Container → Frame
  | array => .arrayItem size []
  | map => .mapKey size []

/-- `msgpack_unpack_state` behind a header. `m_trail` tells the widths of a format apart. -/
inductive Cs
  | float
  | double
  | uint
  | int
  | fixext
  /-- `MSGPACK_CS_STR_8` and the like. -/
  | size (r : Raw)
  /-- `MSGPACK_ACS_STR_VALUE` and the like. -/
  | value (r : Raw)
  /-- `MSGPACK_CS_ARRAY_16` and the like. -/
  | items (c : Container)

/-- What the next `m_trail` bytes are. -/
structure Trail where
  cs : Cs
  trail : ℕ
  ne_zero : trail ≠ 0

/-- `context`, with the visitor. Nothing is pending at `MSGPACK_CS_HEADER`. -/
structure Context where
  pending : Option Trail
  stack : List Frame

/-- `init`. -/
def Context.init : Context := ⟨none, []⟩

/-- `unpack_stack::consume`. An object that fills a container finishes it, and the container
then takes the object's part one level further down. -/
def consume : List Frame → Obj → List Frame × Option Obj
  | [], o => ([], some o)
  | .arrayItem rest items :: stack, o =>
    if rest - 1 = 0 then consume stack (.array (items ++ [o]))
    else (.arrayItem (rest - 1) (items ++ [o]) :: stack, none)
  | .mapKey rest kvs :: stack, o => (.mapValue rest kvs o :: stack, none)
  | .mapValue rest kvs key :: stack, o =>
    if rest - 1 = 0 then consume stack (.map (kvs ++ [(key, o)]))
    else (.mapKey (rest - 1) (kvs ++ [(key, o)]) :: stack, none)

section Read

variable (stack : List Frame)

/-- `after_visit_proc`. -/
def afterVisitProc (o : Obj) : Context × Option Obj :=
  (⟨none, (consume stack o).1⟩, (consume stack o).2)

/-- `start_aggregate`. The visitor compares the depth with its limit before anything is put on
the stack. -/
def startAggregate (c : Container) (size : ℕ) : Except Fault (Context × Option Obj) :=
  if stack.length + 1 > depthLimit then .error (.exception "depth size overflow".toList)
  else if size = 0 then .ok (afterVisitProc stack c.nothing)
  else .ok (⟨none, c.frame size :: stack⟩, none)

/-- A size: the data is visited at once only if there is none. -/
def startValue (r : Raw) (size : ℕ) : Context × Option Obj :=
  if h : size = 0 then afterVisitProc stack (r.obj [])
  else (⟨some ⟨.value r, size, h⟩, stack⟩, none)

/-- The array `trail`, from `0xc4` on. -/
def trails : List Trail := [
  ⟨.size .bin, 1, by decide⟩, ⟨.size .bin, 2, by decide⟩, ⟨.size .bin, 4, by decide⟩,
  ⟨.size .ext, 1, by decide⟩, ⟨.size .ext, 2, by decide⟩, ⟨.size .ext, 4, by decide⟩,
  ⟨.float, 4, by decide⟩, ⟨.double, 8, by decide⟩,
  ⟨.uint, 1, by decide⟩, ⟨.uint, 2, by decide⟩, ⟨.uint, 4, by decide⟩, ⟨.uint, 8, by decide⟩,
  ⟨.int, 1, by decide⟩, ⟨.int, 2, by decide⟩, ⟨.int, 4, by decide⟩, ⟨.int, 8, by decide⟩,
  ⟨.fixext, 2, by decide⟩, ⟨.fixext, 3, by decide⟩, ⟨.fixext, 5, by decide⟩,
  ⟨.fixext, 9, by decide⟩, ⟨.fixext, 17, by decide⟩,
  ⟨.size .str, 1, by decide⟩, ⟨.size .str, 2, by decide⟩, ⟨.size .str, 4, by decide⟩,
  ⟨.items .array, 2, by decide⟩, ⟨.items .array, 4, by decide⟩,
  ⟨.items .map, 2, by decide⟩, ⟨.items .map, 4, by decide⟩]

theorem length_trails : trails.length = 28 := rfl

/-- The branch of `execute` for a header. -/
def readHeader (c : Char) : Except Fault (Context × Option Obj) :=
  let selector := uchar c
  if selector ≤ 0x7f then .ok (afterVisitProc stack (.integer selector))
  else if 0xe0 ≤ selector ∧ selector ≤ 0xff then
    .ok (afterVisitProc stack (.integer (selector - 0x100)))
  else if 0xc4 ≤ selector ∧ selector ≤ 0xdf then .ok (⟨trails[selector - 0xc4]?, stack⟩, none)
  else if 0xa0 ≤ selector ∧ selector ≤ 0xbf then .ok (startValue stack .str (selector % 32))
  else if 0x90 ≤ selector ∧ selector ≤ 0x9f then startAggregate stack .array (selector % 16)
  else if 0x80 ≤ selector ∧ selector ≤ 0x8f then startAggregate stack .map (selector % 16)
  else if selector = 0xc2 then .ok (afterVisitProc stack (.boolean false))
  else if selector = 0xc3 then .ok (afterVisitProc stack (.boolean true))
  else if selector = 0xc0 then .ok (afterVisitProc stack .nil)
  else .error (.exception "parse error".toList)

/-- The branch of `execute` for the bytes behind a header. -/
def readTrail (bs : Str) : Cs → Except Fault (Context × Option Obj)
  | .float => .ok (afterVisitProc stack (.float32 (load bs)))
  | .double => .ok (afterVisitProc stack (.float64 (load bs)))
  | .uint => .ok (afterVisitProc stack (.integer (load bs)))
  | .int => .ok (afterVisitProc stack (.integer (loadSigned bs)))
  | .fixext => .ok (afterVisitProc stack (.ext bs))
  | .size .str => .ok (startValue stack .str (load bs))
  | .size .bin => .ok (startValue stack .bin (load bs))
  | .size .ext => .ok (startValue stack .ext (load bs + 1))
  | .value r => .ok (afterVisitProc stack (r.obj bs))
  | .items c => startAggregate stack c (load bs)

end Read

/-- `unpacker`: it needs one byte at a header and `m_trail` of them behind one. `execute` is the
way to the next object, which leaves the parser as `init` does. -/
def unpacker : Incremental Context Char Obj Fault where
  need s := (s.pending.map Trail.trail).getD 1
  need_pos s := by
    cases h : s.pending with
    | none => decide
    | some t => exact Nat.pos_of_ne_zero t.ne_zero
  read s bs :=
    match s.pending, bs with
    | some t, bs => readTrail s.stack bs t.cs
    | none, c :: _ => readHeader s.stack c
    | none, [] => .error .undefined

/-! ### One header

A header and what it announces are read in one or two steps of `unpacker`, whatever bytes
follow, and each lemma says so for one format. The codes from `0xc4` to `0xdf` share one branch
of `execute`, so `feed_coded` serves all of them and leaves to its users the entry of `trails`,
which is found by evaluation. A size is followed by data (`goOn_startValue`) or by the elements
of a container. -/

section Feed

variable {stack : List Frame} {r : Context × Option Obj} {rest bs : Str}

/-- To go on after a header or what belongs to it. -/
def goOn (r : Context × Option Obj) (rest : Str) : Incremental.Fed Context Char Obj Fault :=
  (unpacker.feed r.1 rest).after r.2

/-- One byte is read as a header. -/
theorem feed_header {c : Char} (h : readHeader stack c = .ok r) :
    unpacker.feed ⟨none, stack⟩ (c :: rest) = goOn r rest :=
  Incremental.feed_append_of_read (p := unpacker) (show [c].length = _ from rfl) h

/-- The bytes that a header has announced are read at once. -/
theorem feed_trail {t : Trail} (hlen : bs.length = t.trail) (h : readTrail stack bs t.cs = .ok r) :
    unpacker.feed ⟨some t, stack⟩ (bs ++ rest) = goOn r rest :=
  Incremental.feed_append_of_read hlen h

/-- A header of the table and what it announces. -/
theorem feed_coded {code : ℕ} {t : Trail} (hcode : 0xc4 ≤ code ∧ code < 0xe0)
    (ht : trails[code - 0xc4]? = some t) (hlen : bs.length = t.trail)
    (h : readTrail stack bs t.cs = .ok r) :
    unpacker.feed ⟨none, stack⟩ (byte code :: (bs ++ rest)) = goOn r rest := by
  have hheader : readHeader stack (byte code) = .ok (⟨some t, stack⟩, none) := by
    have hmod : code % 256 = code := Nat.mod_eq_of_lt (by omega)
    simp only [readHeader, uchar_byte, hmod]
    rw [if_neg (by omega), if_neg (by omega), if_pos (by omega), ht]
  rw [feed_header hheader]
  exact feed_trail hlen h

theorem feed_uint {code w n : ℕ} {hw : w ≠ 0} (hcode : 0xc4 ≤ code ∧ code < 0xe0)
    (ht : trails[code - 0xc4]? = some ⟨.uint, w, hw⟩) (h : n < 256 ^ w) :
    unpacker.feed ⟨none, stack⟩ (byte code :: (store w n ++ rest)) =
      goOn (afterVisitProc stack (.integer n)) rest :=
  feed_coded hcode ht (length_store w n) (by rw [readTrail, load_store_of_lt h])

theorem feed_int {code w : ℕ} {d : ℤ} {hw : w ≠ 0} (hcode : 0xc4 ≤ code ∧ code < 0xe0)
    (ht : trails[code - 0xc4]? = some ⟨.int, w, hw⟩) (h : Int.bmod d (256 ^ w) = d) :
    unpacker.feed ⟨none, stack⟩ (byte code :: (store w d ++ rest)) =
      goOn (afterVisitProc stack (.integer d)) rest :=
  feed_coded hcode ht (length_store w d) (by rw [readTrail, loadSigned_store, h])

/-- A number that is its own header. -/
theorem feed_fixnum {d : ℤ} (h : -2 ^ 5 ≤ d ∧ d < 2 ^ 7) :
    unpacker.feed ⟨none, stack⟩ (store 1 d ++ rest) =
      goOn (afterVisitProc stack (.integer d)) rest := by
  have hstore : store 1 d = [byte (d % 256).toNat] := by
    simp only [store, bigEndian, Nat.pow_zero, Nat.div_one, pow_one]
  have huchar : uchar (byte (d % 256).toNat) = (d % 256).toNat := by rw [uchar_byte]; omega
  rw [hstore, List.singleton_append]
  apply feed_header
  simp only [readHeader, huchar]
  by_cases hpos : 0 ≤ d
  · rw [if_pos (by omega), Int.toNat_of_nonneg (by omega), Int.emod_eq_of_lt hpos (by omega)]
  · have hmod : (d % 256).toNat - (0x100 : ℤ) = d := by omega
    rw [if_neg (by omega), if_pos (by omega), hmod]

/-- A size of two or four bytes, whatever it is the size of. -/
theorem feed_packSize {code16 code32 l : ℕ} {cs : Cs} {h2 : 2 ≠ 0} {h4 : 4 ≠ 0}
    (hcode16 : 0xc4 ≤ code16 ∧ code16 < 0xe0) (ht16 : trails[code16 - 0xc4]? = some ⟨cs, 2, h2⟩)
    (hcode32 : 0xc4 ≤ code32 ∧ code32 < 0xe0) (ht32 : trails[code32 - 0xc4]? = some ⟨cs, 4, h4⟩)
    (hl : l < 2 ^ 32) (h : ∀ bs, load bs = l → readTrail stack bs cs = .ok r) :
    unpacker.feed ⟨none, stack⟩ (packSize code16 code32 l ++ rest) = goOn r rest := by
  unfold packSize
  split
  · exact feed_coded hcode16 ht16 (length_store 2 l) (h _ (load_store_of_lt (by omega)))
  · exact feed_coded hcode32 ht32 (length_store 4 l) (h _ (load_store_of_lt (by omega)))

theorem goOn_startValue (raw : Raw) (s : Str) :
    goOn (startValue stack raw s.length) (s ++ rest) =
      goOn (afterVisitProc stack (raw.obj s)) rest := by
  unfold startValue
  split
  · rename_i hnil
    obtain rfl := List.length_eq_zero_iff.mp hnil
    rfl
  · exact feed_trail rfl rfl

/-! ### What the packer writes

Each function of the packer is followed through its branches. The side conditions are those of
the branch, so that the shortest format is always one that holds the number. A negative number
is the only one whose reading depends on the width, since it is stored as a remainder (`hint`). -/

/-- An integer of 64 bits, signed or not, is read back from any of its formats. -/
theorem feed_packInt64 {d : ℤ} (h : -2 ^ 63 ≤ d ∧ d < 2 ^ 64) :
    unpacker.feed ⟨none, stack⟩ (packInt64 d ++ rest) =
      goOn (afterVisitProc stack (.integer d)) rest := by
  have hint : ∀ w : ℕ, -(256 ^ w / 2) ≤ d → d < 0 → Int.bmod d (256 ^ w) = d := by
    intro w hle hneg
    have hpos : (0 : ℤ) < 256 ^ w := by positivity
    exact Int.bmod_eq_of_le (by push_cast; exact hle) (by push_cast; omega)
  by_cases hneg : d < 0
  · unfold packInt64
    split_ifs
    · exact feed_int (by decide) rfl (hint 8 (by norm_num; omega) hneg)
    · exact feed_int (by decide) rfl (hint 4 (by norm_num; omega) hneg)
    · exact feed_int (by decide) rfl (hint 2 (by norm_num; omega) hneg)
    · exact feed_int (by decide) rfl (hint 1 (by norm_num; omega) hneg)
    all_goals first | omega | exact feed_fixnum (by omega)
  · obtain ⟨n, rfl⟩ := Int.eq_ofNat_of_zero_le (not_lt.mp hneg)
    unfold packInt64
    split_ifs
    -- Here no branch for a negative number is possible, and each of the others has its width.
    all_goals first
      | omega
      | exact feed_fixnum (by omega)
      | exact feed_uint (by decide) rfl (by omega)

theorem feed_packArray {n : ℕ} (hn : n < 2 ^ 32) (h : startAggregate stack .array n = .ok r) :
    unpacker.feed ⟨none, stack⟩ (packArray n ++ rest) = goOn r rest := by
  unfold packArray
  split
  · refine feed_header ?_
    have huchar : uchar (byte (0x90 + n)) = 0x90 + n := by rw [uchar_byte]; omega
    simp only [readHeader, huchar]
    rw [if_neg (by omega), if_neg (by omega), if_neg (by omega), if_neg (by omega), if_pos (by omega),
      show (0x90 + n) % 16 = n by omega, h]
  · exact feed_packSize (by decide) rfl (by decide) rfl hn fun bs hbs => by rw [readTrail, hbs, h]

/-- A map is opened like an array, with its own codes. -/
theorem feed_packMap {n : ℕ} (hn : n < 2 ^ 32) (h : startAggregate stack .map n = .ok r) :
    unpacker.feed ⟨none, stack⟩ (packMap n ++ rest) = goOn r rest := by
  unfold packMap
  split
  · refine feed_header ?_
    have huchar : uchar (byte (0x80 + n)) = 0x80 + n := by rw [uchar_byte]; omega
    simp only [readHeader, huchar]
    rw [if_neg (by omega), if_neg (by omega), if_neg (by omega), if_neg (by omega), if_neg (by omega),
      if_pos (by omega), show (0x80 + n) % 16 = n by omega, h]
  · exact feed_packSize (by decide) rfl (by decide) rfl hn fun bs hbs => by rw [readTrail, hbs, h]

/-- The size of a string, after which its bytes are expected. -/
theorem feed_packStr {l : ℕ} (hl : l < 2 ^ 32) :
    unpacker.feed ⟨none, stack⟩ (packStr l ++ rest) = goOn (startValue stack .str l) rest := by
  unfold packStr
  split_ifs
  · refine feed_header ?_
    have huchar : uchar (byte (0xa0 + l)) = 0xa0 + l := by rw [uchar_byte]; omega
    simp only [readHeader, huchar]
    rw [if_neg (by omega), if_neg (by omega), if_neg (by omega), if_pos (by omega),
      show (0xa0 + l) % 32 = l by omega]
  · exact feed_coded (by decide) rfl (length_store 1 l)
      (by rw [readTrail, load_store_of_lt (by omega)])
  · exact feed_packSize (by decide) rfl (by decide) rfl hl fun bs hbs => by rw [readTrail, hbs]

/-- The size of a binary, which has no short format. -/
theorem feed_packBin {l : ℕ} (hl : l < 2 ^ 32) :
    unpacker.feed ⟨none, stack⟩ (packBin l ++ rest) = goOn (startValue stack .bin l) rest := by
  unfold packBin
  split
  · exact feed_coded (by decide) rfl (length_store 1 l)
      (by rw [readTrail, load_store_of_lt (by omega)])
  · exact feed_packSize (by decide) rfl (by decide) rfl hl fun bs hbs => by rw [readTrail, hbs]

/-- An extension of one of the five sizes that have a code of their own. -/
theorem feed_fixext {code l : ℕ} {s : Str} {hl : l ≠ 0} (hcode : 0xc4 ≤ code ∧ code < 0xe0)
    (ht : trails[code - 0xc4]? = some ⟨.fixext, l, hl⟩) (hs : s.length = l) :
    unpacker.feed ⟨none, stack⟩ ([byte code] ++ (s ++ rest)) =
      goOn (afterVisitProc stack (.ext s)) rest :=
  feed_coded hcode ht hs rfl

/-- An extension: its type comes between the size and the data, and is read with the data. -/
theorem feed_packExt {s : Str} (hs : 0 < s.length ∧ s.length ≤ 2 ^ 32) :
    unpacker.feed ⟨none, stack⟩ (packExt (s.length - 1) ++ (s ++ rest)) =
      goOn (afterVisitProc stack (.ext s)) rest := by
  obtain ⟨l, hl⟩ : ∃ l, s.length = l + 1 := ⟨s.length - 1, by omega⟩
  rw [hl, Nat.add_sub_cancel]
  have hsized : goOn (startValue stack .ext (l + 1)) (s ++ rest) =
      goOn (afterVisitProc stack (.ext s)) rest := hl ▸ goOn_startValue .ext s
  unfold packExt
  split
  · exact feed_fixext (by decide) rfl hl
  · exact feed_fixext (by decide) rfl hl
  · exact feed_fixext (by decide) rfl hl
  · exact feed_fixext (by decide) rfl hl
  · exact feed_fixext (by decide) rfl hl
  · split
    · rw [← hsized]
      exact feed_coded (by decide) rfl (length_store 1 l)
        (by rw [readTrail, load_store_of_lt (by omega)])
    · rw [← hsized]
      exact feed_packSize (by decide) rfl (by decide) rfl (by omega) fun bs hbs => by
        rw [readTrail, hbs]

theorem startAggregate_of_lt {c : Container} {size : ℕ} (h : stack.length < depthLimit) :
    startAggregate stack c size =
      if size = 0 then .ok (afterVisitProc stack c.nothing)
      else .ok (⟨none, c.frame size :: stack⟩, none) :=
  if_neg (by omega)

end Feed

/-! ### Objects

The induction is over the object together with the lists in it. The statement for a list is
about an array (or a map) that is already open and lacks exactly these elements; the last one
fills it and so finishes the container, which is why the list may not be empty. The stack below
is arbitrary, and only its height enters, through `Sized`. -/

mutual

/-- An object that was packed is visited, whatever is open around it. -/
theorem feed_pack (stack : List Frame) (rest : Str) : ∀ o : Obj, o.Sized stack.length →
    unpacker.feed ⟨none, stack⟩ (o.pack ++ rest) = goOn (afterVisitProc stack o) rest
  | .nil, _ => feed_header rfl
  | .boolean true, _ => feed_header rfl
  | .boolean false, _ => feed_header rfl
  | .integer n, h => by
    rw [Obj.pack]
    split
    · rename_i hpos
      rw [packInt64_eq.1 hpos]
      exact feed_packInt64 h
    · exact feed_packInt64 h
  | .float32 bits, h =>
    feed_coded (by decide) rfl (length_store 4 bits) (by rw [readTrail, load_store_of_lt h])
  | .float64 bits, h =>
    feed_coded (by decide) rfl (length_store 8 bits) (by rw [readTrail, load_store_of_lt h])
  | .str s, h => by
    rw [Obj.pack, List.append_assoc, feed_packStr h]
    exact goOn_startValue .str s
  | .bin s, h => by
    rw [Obj.pack, List.append_assoc, feed_packBin h]
    exact goOn_startValue .bin s
  | .ext s, h => by
    rw [Obj.pack, List.append_assoc]
    exact feed_packExt h
  | .array [], h => feed_header (startAggregate_of_lt h.2.1)
  | .array (x :: xs), h => by
    rw [Obj.pack, List.append_assoc, feed_packArray h.1 (startAggregate_of_lt h.2.1)]
    exact feed_packAll stack rest (x :: xs) [] (List.cons_ne_nil _ _) h.2.2
  | .map [], h => feed_header (startAggregate_of_lt h.2.1)
  | .map (kv :: kvs), h => by
    rw [Obj.pack, List.append_assoc, feed_packMap h.1 (startAggregate_of_lt h.2.1)]
    exact feed_packKvs stack rest (kv :: kvs) [] (List.cons_ne_nil _ _) h.2.2

/-- The elements that an open array still lacks fill it. -/
theorem feed_packAll (stack : List Frame) (rest : Str) : ∀ xs items : List Obj, xs ≠ [] →
    Obj.AllSized (stack.length + 1) xs →
    unpacker.feed ⟨none, .arrayItem xs.length items :: stack⟩ (Obj.packAll xs ++ rest) =
      goOn (afterVisitProc stack (.array (items ++ xs))) rest
  | [], _, hne, _ => absurd rfl hne
  | [x], items, _, h => by
    rw [Obj.packAll, List.append_assoc]
    exact feed_pack (.arrayItem 1 items :: stack) rest x h.1
  | x :: y :: ys, items, _, h => by
    rw [Obj.packAll, List.append_assoc, List.append_cons items x (y :: ys)]
    exact (feed_pack (.arrayItem _ items :: stack) _ x h.1).trans
      (feed_packAll stack rest (y :: ys) (items ++ [x]) (List.cons_ne_nil _ _) h.2)

/-- The keys and values that an open map still lacks fill it. -/
theorem feed_packKvs (stack : List Frame) (rest : Str) :
    ∀ kvs done : List (Obj × Obj), kvs ≠ [] → Obj.KvsSized (stack.length + 1) kvs →
    unpacker.feed ⟨none, .mapKey kvs.length done :: stack⟩ (Obj.packKvs kvs ++ rest) =
      goOn (afterVisitProc stack (.map (done ++ kvs))) rest
  | [], _, hne, _ => absurd rfl hne
  | [(key, val)], done, _, h => by
    rw [Obj.packKvs, List.append_assoc, List.append_assoc]
    exact (feed_pack (.mapKey 1 done :: stack) _ key h.1).trans
      (feed_pack (.mapValue 1 done key :: stack) rest val h.2.1)
  | (key, val) :: kv :: kvs, done, _, h => by
    rw [Obj.packKvs, List.append_assoc, List.append_assoc,
      List.append_cons done (key, val) (kv :: kvs)]
    exact (feed_pack (.mapKey _ done :: stack) _ key h.1).trans
      ((feed_pack (.mapValue _ done key :: stack) _ val h.2.1).trans
        (feed_packKvs stack rest (kv :: kvs) (done ++ [(key, val)]) (List.cons_ne_nil _ _) h.2.2))

end

/-! ### The start

Objects that come one behind the other are found one by one only if the parser cannot return to
its initial state in between, for `next` would take that for the end of an object. It does not:
as long as nothing is put out, a container is open or bytes are awaited. -/

/-- A stack is left empty only by an object that is put out. -/
theorem consume_eq_nil {stack : List Frame} {o : Obj} (h : (consume stack o).1 = []) :
    (consume stack o).2 ≠ none := by
  induction stack, o using consume.induct with
  | case1 o => simp [consume]
  | case2 rest items stack o hrest ih =>
    rw [consume, if_pos hrest] at h ⊢
    exact ih h
  | case3 rest items stack o hrest => rw [consume, if_neg hrest] at h; cases h
  | case4 rest kvs stack o => cases h
  | case5 rest kvs key stack o hrest ih =>
    rw [consume, if_pos hrest] at h ⊢
    exact ih h
  | case6 rest kvs key stack o hrest => rw [consume, if_neg hrest] at h; cases h

section Busy

variable {stack : List Frame} {s' : Context}

theorem afterVisitProc_ne_init {o : Obj} (h : afterVisitProc stack o = (s', none)) :
    s' ≠ Context.init := by
  rintro rfl
  obtain ⟨hinit, hnone⟩ := Prod.mk.inj h
  exact consume_eq_nil (congrArg Context.stack hinit) hnone

theorem startValue_ne_init {raw : Raw} {size : ℕ} (h : startValue stack raw size = (s', none)) :
    s' ≠ Context.init := by
  unfold startValue at h
  split at h
  · exact afterVisitProc_ne_init h
  · cases h
    rintro ⟨⟩

theorem startAggregate_ne_init {c : Container} {size : ℕ}
    (h : startAggregate stack c size = .ok (s', none)) : s' ≠ Context.init := by
  unfold startAggregate at h
  split_ifs at h
  · exact afterVisitProc_ne_init (Except.ok.inj h)
  · cases h
    rintro ⟨⟩

/-- A header without an object leaves something pending or open. -/
theorem readHeader_ne_init {c : Char} (h : readHeader stack c = .ok (s', none)) :
    s' ≠ Context.init := by
  unfold readHeader at h
  dsimp only at h
  split_ifs at h with _ _ hcoded
  · exact afterVisitProc_ne_init (Except.ok.inj h)
  · exact afterVisitProc_ne_init (Except.ok.inj h)
  · -- The table has an entry for every code.
    obtain ⟨rfl, -⟩ := Prod.mk.inj (Except.ok.inj h)
    intro hinit
    simp only [Context.init, Context.mk.injEq, List.getElem?_eq_none_iff, length_trails] at hinit
    omega
  · exact startValue_ne_init (Except.ok.inj h)
  · exact startAggregate_ne_init h
  · exact startAggregate_ne_init h
  · exact afterVisitProc_ne_init (Except.ok.inj h)
  · exact afterVisitProc_ne_init (Except.ok.inj h)
  · exact afterVisitProc_ne_init (Except.ok.inj h)

theorem readTrail_ne_init {bs : Str} {cs : Cs} (h : readTrail stack bs cs = .ok (s', none)) :
    s' ≠ Context.init := by
  unfold readTrail at h
  split at h
  case h_6 | h_7 | h_8 => exact startValue_ne_init (Except.ok.inj h)
  case h_10 => exact startAggregate_ne_init h
  all_goals exact afterVisitProc_ne_init (Except.ok.inj h)

end Busy

/-- The unpacker reads what the packer writes, an object at a time. -/
theorem unpacker_decodes : unpacker.Decodes .init Obj.pack (Obj.Sized 0) where
  feed_encode o rest ho := feed_pack [] rest o ho
  busy s bs s' h := by
    obtain ⟨pending, stack⟩ := s
    cases pending with
    | some t => exact readTrail_ne_init h
    | none =>
      cases bs with
      | nil => cases h
      | cons c bs => exact readHeader_ne_init h

end MapReduceCpp.Rpc
