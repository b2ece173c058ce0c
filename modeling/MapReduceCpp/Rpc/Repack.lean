import MapReduceCpp.Rpc.Unpacker

/-!
# MapReduceCpp.Rpc.Repack

What an unpacker accepts.

The bytes may be anything. Whatever objects come out of them, their sizes and numbers are
in range, and to pack them again takes no more bytes than they have come from: of all the
ways to write an object that the unpacker understands, the packer takes a shortest one
(`unpack_wellFormed`).
-/

namespace MapReduceCpp.Rpc

namespace Obj

variable {level : ℕ}

theorem packAll_append (xs ys : List Obj) : packAll (xs ++ ys) = packAll xs ++ packAll ys := by
  induction xs with
  | nil => rfl
  | cons x xs ih => rw [List.cons_append, packAll, packAll, ih, List.append_assoc]

theorem packKvs_append (kvs kvs' : List (Obj × Obj)) :
    packKvs (kvs ++ kvs') = packKvs kvs ++ packKvs kvs' := by
  induction kvs with
  | nil => rfl
  | cons kv kvs ih =>
    rw [List.cons_append, packKvs, packKvs, ih, List.append_assoc _ _ (packKvs kvs')]

theorem allSized_append {xs ys : List Obj} :
    AllSized level (xs ++ ys) ↔ AllSized level xs ∧ AllSized level ys := by
  induction xs with
  | nil => exact ⟨fun h => ⟨trivial, h⟩, fun h => h.2⟩
  | cons x xs ih => rw [List.cons_append, AllSized, AllSized, ih, and_assoc]

theorem kvsSized_append {kvs kvs' : List (Obj × Obj)} :
    KvsSized level (kvs ++ kvs') ↔ KvsSized level kvs ∧ KvsSized level kvs' := by
  induction kvs with
  | nil => exact ⟨fun h => ⟨trivial, h⟩, fun h => h.2⟩
  | cons kv kvs ih => rw [List.cons_append, KvsSized, KvsSized, ih, and_assoc, and_assoc]

end Obj

/-! ### Open containers

Two things are carried through a run over arbitrary bytes. The parser's state must be one that
can arise, so that every object in it is in range (`Valid`), and the bytes that the packer would
have spent on what is there must be covered by those that were read (`weight`). A container is
charged in full when it is opened, for the number of elements that it will have. -/

/-- An open container lacks something, and what it has fits in. -/
def Frame.Valid (level : ℕ) : Frame → Prop
  | .arrayItem rest items =>
    0 < rest ∧ items.length + rest < 2 ^ 32 ∧ Obj.AllSized (level + 1) items
  | .mapKey rest kvs => 0 < rest ∧ kvs.length + rest < 2 ^ 32 ∧ Obj.KvsSized (level + 1) kvs
  | .mapValue rest kvs key =>
    0 < rest ∧ kvs.length + rest < 2 ^ 32 ∧ Obj.KvsSized (level + 1) kvs ∧ key.Sized (level + 1)

/-- Every container on the stack is valid at its depth. -/
def ValidStack : List Frame → Prop
  | [] => True
  | f :: stack => stack.length < depthLimit ∧ f.Valid stack.length ∧ ValidStack stack

/-- The bytes that the packer would have spent on an open container so far. -/
def Frame.weight : Frame → ℕ
  | .arrayItem rest items => (packArray (items.length + rest)).length + (Obj.packAll items).length
  | .mapKey rest kvs => (packMap (kvs.length + rest)).length + (Obj.packKvs kvs).length
  | .mapValue rest kvs key =>
    (packMap (kvs.length + rest)).length + (Obj.packKvs kvs).length + key.pack.length

/-- The bytes for all the containers that are open. -/
def stackWeight (stack : List Frame) : ℕ := (stack.map Frame.weight).sum

/-- The bytes of an output. -/
def outputLength (o : Option Obj) : ℕ := (o.map fun o => o.pack.length).getD 0

theorem not_mem_none {α : Type} {P : α → Prop} : ∀ a ∈ (none : Option α), P a :=
  fun _ h => absurd h (Option.not_mem_none _)

/-- A finished object takes its place, and its bytes with it. -/
theorem consume_spec {stack : List Frame} {o : Obj} (hstack : ValidStack stack)
    (ho : o.Sized stack.length) :
    ValidStack (consume stack o).1 ∧ (∀ p ∈ (consume stack o).2, p.Sized 0) ∧
      stackWeight (consume stack o).1 + outputLength (consume stack o).2 =
        stackWeight stack + o.pack.length := by
  induction stack, o using consume.induct with
  | case1 o =>
    refine ⟨trivial, ?_, rfl⟩
    rintro p ⟨⟩
    exact ho
  | case2 rest items stack o hrest ih =>
    obtain ⟨hlevel, ⟨hpos, hlen, hitems⟩, hstack⟩ := hstack
    -- The container is full and takes its own place one level below.
    obtain rfl : rest = 1 := by omega
    have hsized : (Obj.array (items ++ [o])).Sized stack.length :=
      ⟨by rwa [List.length_append], hlevel, Obj.allSized_append.mpr ⟨hitems, ho, trivial⟩⟩
    obtain ⟨hvalid, hout, hweight⟩ := ih hstack hsized
    rw [consume, if_pos hrest]
    refine ⟨hvalid, hout, hweight.trans ?_⟩
    simp only [Obj.pack, Obj.packAll_append, Obj.packAll, List.length_append, List.length_singleton,
      stackWeight, List.map_cons, List.sum_cons, Frame.weight, List.append_nil]
    omega
  | case3 rest items stack o hrest =>
    obtain ⟨hlevel, ⟨hpos, hlen, hitems⟩, hstack⟩ := hstack
    rw [consume, if_neg hrest]
    refine ⟨⟨hlevel, ⟨by omega, ?_, Obj.allSized_append.mpr ⟨hitems, ho, trivial⟩⟩, hstack⟩,
      not_mem_none, ?_⟩
    · simp only [List.length_append, List.length_singleton]
      omega
    · have hcount : items.length + 1 + (rest - 1) = items.length + rest := by omega
      simp only [Obj.packAll_append, Obj.packAll, List.length_append, List.length_singleton,
        stackWeight, List.map_cons, List.sum_cons, Frame.weight, List.append_nil, hcount,
        outputLength, Option.map_none, Option.getD_none]
      omega
  | case4 rest kvs stack o =>
    obtain ⟨hlevel, ⟨hpos, hlen, hkvs⟩, hstack⟩ := hstack
    refine ⟨⟨hlevel, ⟨hpos, hlen, hkvs, ho⟩, hstack⟩, not_mem_none, ?_⟩
    simp only [consume, stackWeight, List.map_cons, List.sum_cons, Frame.weight, outputLength,
      Option.map_none, Option.getD_none]
    omega
  | case5 rest kvs key stack o hrest ih =>
    obtain ⟨hlevel, ⟨hpos, hlen, hkvs, hkey⟩, hstack⟩ := hstack
    -- As for an array, with the last value.
    obtain rfl : rest = 1 := by omega
    have hsized : (Obj.map (kvs ++ [(key, o)])).Sized stack.length :=
      ⟨by rwa [List.length_append], hlevel, Obj.kvsSized_append.mpr ⟨hkvs, hkey, ho, trivial⟩⟩
    obtain ⟨hvalid, hout, hweight⟩ := ih hstack hsized
    rw [consume, if_pos hrest]
    refine ⟨hvalid, hout, hweight.trans ?_⟩
    simp only [Obj.pack, Obj.packKvs_append, Obj.packKvs, List.length_append, List.length_singleton,
      stackWeight, List.map_cons, List.sum_cons, Frame.weight, List.append_nil]
    omega
  | case6 rest kvs key stack o hrest =>
    obtain ⟨hlevel, ⟨hpos, hlen, hkvs, hkey⟩, hstack⟩ := hstack
    rw [consume, if_neg hrest]
    refine ⟨⟨hlevel, ⟨by omega, ?_, Obj.kvsSized_append.mpr ⟨hkvs, hkey, ho, trivial⟩⟩, hstack⟩,
      not_mem_none, ?_⟩
    · simp only [List.length_append, List.length_singleton]
      omega
    · have hcount : kvs.length + 1 + (rest - 1) = kvs.length + rest := by omega
      simp only [Obj.packKvs_append, Obj.packKvs, List.length_append, List.length_singleton,
        stackWeight, List.map_cons, List.sum_cons, Frame.weight, List.append_nil, hcount,
        outputLength, Option.map_none, Option.getD_none]
      omega

/-! ### What is pending

Behind a header that does not tell everything the parser waits for `m_trail` bytes. The header
is accounted for by one byte, and a size by as many as the packer takes for it; the bytes that
are still to come are not. -/

/-- The size in front of data. -/
def Raw.header : Raw → ℕ → Str
  | str, l => packStr l
  | bin, l => packBin l
  | ext, l => packExt (l - 1)

/-- The sizes that data may have. -/
def Raw.Fits : Raw → ℕ → Prop
  | str, l | bin, l => l < 2 ^ 32
  | ext, l => 0 < l ∧ l ≤ 2 ^ 32

/-- The opening of a container, as it is packed. -/
def Container.header : Container → ℕ → Str
  | array => packArray
  | map => packMap

/-- The widths of the formats. -/
def Cs.Valid (w : ℕ) : Cs → Prop
  | float => w = 4
  | double => w = 8
  | uint | int => w ∈ [1, 2, 4, 8]
  | fixext => w ∈ [2, 3, 5, 9, 17]
  | size _ => w ∈ [1, 2, 4]
  | items _ => w ∈ [2, 4]
  | value r => r.Fits w

/-- The bytes that the packer would have spent on what is pending. -/
def Cs.weight (w : ℕ) : Cs → ℕ
  | value r => (r.header w).length
  | _ => 1

/-- What is awaited has a width that its format can have, and the stack is valid. -/
def Context.Valid (s : Context) : Prop :=
  (∀ t ∈ s.pending, t.cs.Valid t.trail) ∧ ValidStack s.stack

/-- The bytes that the packer would have spent on all that is there. -/
def Context.weight (s : Context) : ℕ :=
  (s.pending.map fun t => t.cs.weight t.trail).getD 0 + stackWeight s.stack

/-- The table has only widths that exist. -/
theorem spec_of_mem_trails {t : Trail} (h : t ∈ trails) :
    t.cs.Valid t.trail ∧ t.cs.weight t.trail = 1 := by
  revert t
  simp [trails, Cs.Valid, Cs.weight]

theorem Raw.pack_obj (r : Raw) (s : Str) : (r.obj s).pack = r.header s.length ++ s := by
  cases r <;> rfl

theorem Raw.Fits.sized {r : Raw} {s : Str} (h : r.Fits s.length) (level : ℕ) :
    (r.obj s).Sized level := by
  cases r <;> exact h

theorem Container.pack_nothing (c : Container) : c.nothing.pack = c.header 0 := by
  cases c <;> rfl

theorem Container.sized_nothing (c : Container) {level : ℕ} (h : level < depthLimit) :
    c.nothing.Sized level := by
  cases c <;> exact ⟨by decide, h, trivial⟩

theorem Container.valid_frame (c : Container) {l level : ℕ} (hpos : 0 < l) (hl : l < 2 ^ 32) :
    (c.frame l).Valid level := by
  cases c <;> exact ⟨hpos, by rwa [List.length_nil, Nat.zero_add], trivial⟩

theorem Container.weight_frame (c : Container) (l : ℕ) :
    (c.frame l).weight = (c.header l).length := by
  cases c <;> simp [frame, header, Frame.weight, Obj.packAll, Obj.packKvs]

/-- What a branch of `execute` may leave behind and put out when it has read so many bytes. -/
structure Accounts (stack : List Frame) (n : ℕ) (r : Context × Option Obj) : Prop where
  valid : r.1.Valid
  sized : ∀ o ∈ r.2, o.Sized 0
  weight : r.1.weight + outputLength r.2 ≤ stackWeight stack + n

section Accounts

variable {stack : List Frame} {n l : ℕ} {r : Context × Option Obj}

/-- An object that took no fewer bytes than the packer needs for it can be visited. -/
theorem accounts_visit (hstack : ValidStack stack) {o : Obj} (ho : o.Sized stack.length)
    (hn : o.pack.length ≤ n) : Accounts stack n (afterVisitProc stack o) := by
  obtain ⟨hvalid, hsized, hweight⟩ := consume_spec hstack ho
  refine ⟨⟨not_mem_none, hvalid⟩, hsized, ?_⟩
  simp only [afterVisitProc, Context.weight, Option.map_none, Option.getD_none]
  omega

/-- The same for a size, behind which the data is awaited. -/
theorem accounts_startValue (hstack : ValidStack stack) {raw : Raw} (hl : raw.Fits l)
    (hn : (raw.header l).length ≤ n) : Accounts stack n (startValue stack raw l) := by
  unfold startValue
  split
  · rename_i hzero
    subst hzero
    exact accounts_visit hstack (Raw.Fits.sized (s := []) hl _)
      (by rw [Raw.pack_obj, List.append_nil]; exact hn)
  · refine ⟨⟨?_, hstack⟩, not_mem_none, ?_⟩
    · rintro t ⟨⟩
      exact hl
    · simp only [Context.weight, Option.map_some, Option.getD_some, Cs.weight, outputLength,
        Option.map_none, Option.getD_none]
      omega

/-- The same for the opening of a container. -/
theorem accounts_startAggregate (hstack : ValidStack stack) {c : Container} (hl : l < 2 ^ 32)
    (hn : (c.header l).length ≤ n) (h : startAggregate stack c l = .ok r) : Accounts stack n r := by
  unfold startAggregate at h
  split_ifs at h with hdepth hzero
  · obtain rfl := Except.ok.inj h
    subst hzero
    exact accounts_visit hstack (c.sized_nothing (by omega)) (by rwa [c.pack_nothing])
  · obtain rfl := Except.ok.inj h
    refine ⟨⟨not_mem_none, by omega, c.valid_frame (by omega) hl, hstack⟩, not_mem_none, ?_⟩
    simp only [Context.weight, Option.map_none, Option.getD_none, stackWeight, List.map_cons,
      List.sum_cons, c.weight_frame, outputLength]
    omega

/-! ### The lengths of what is packed

The packer takes the first format that is wide enough. So a format of width `w` that held a
number or a size is at least as long as the one that the packer chooses for it. -/

/-- The bytes of a size with its code. -/
def sizeWidth (l : ℕ) : ℕ := if l < 256 then 2 else if l < 65536 then 3 else 5

/-- A size that was read from so many bytes is packed into no more of them. -/
theorem sizeWidth_le {w : ℕ} (hw : w ∈ [1, 2, 4]) (hl : l < 256 ^ w) : sizeWidth l ≤ 1 + w := by
  simp only [List.mem_cons, List.not_mem_nil, or_false] at hw
  unfold sizeWidth
  rcases hw with rfl | rfl | rfl <;> split_ifs <;> omega

theorem length_packStr : (packStr l).length ≤ sizeWidth l := by
  unfold packStr packSize sizeWidth
  split_ifs <;> simp only [List.length_cons, List.length_nil, length_store] <;> omega

theorem length_packBin : (packBin l).length ≤ sizeWidth l := by
  unfold packBin packSize sizeWidth
  split_ifs <;> simp only [List.length_cons, length_store] <;> omega

/-- An extension has one byte less for its size where the size has a code of its own. -/
theorem length_packExt : (packExt l).length ≤ sizeWidth l := by
  have hmin : 2 ≤ sizeWidth l := by
    unfold sizeWidth
    split_ifs <;> omega
  unfold packExt
  split
  case h_6 =>
    unfold packSize sizeWidth
    split_ifs <;> simp only [List.length_cons, length_store] <;> omega
  all_goals exact le_trans (by decide) hmin

/-- A container's size is packed into no more bytes than it was read from. -/
theorem Container.length_header (c : Container) {w : ℕ} (hw : w ∈ [2, 4]) (hl : l < 256 ^ w) :
    (c.header l).length ≤ 1 + w := by
  simp only [List.mem_cons, List.not_mem_nil, or_false] at hw
  cases c
  all_goals
    simp only [header, packArray, packMap, packSize]
    rcases hw with rfl | rfl
    all_goals
      split_ifs
      all_goals
        simp only [List.length_cons, List.length_nil, length_store]
        omega

/-- An integer is packed into no more bytes than it was read from, signed or not. -/
theorem length_packInt64 {d : ℤ} {w : ℕ} (hw : w ∈ [1, 2, 4, 8])
    (h : -(256 ^ w / 2) ≤ d ∧ d < 256 ^ w) : (packInt64 d).length ≤ 1 + w := by
  unfold packInt64
  simp only [List.mem_cons, List.not_mem_nil, or_false] at hw
  rcases hw with rfl | rfl | rfl | rfl
  all_goals
    norm_num at h
    split_ifs
    all_goals
      simp only [List.length_cons, length_store]
      omega

theorem pack_integer (d : ℤ) : (Obj.integer d).pack = packInt64 d := by
  rw [Obj.pack]
  split
  · exact packInt64_eq.1 ‹_›
  · rfl

/-- A signed number of so many bytes lies in the range of its type. -/
theorem loadSigned_bounds (bs : Str) :
    -(256 ^ bs.length / 2) ≤ loadSigned bs ∧ loadSigned bs < 256 ^ bs.length := by
  have hpos : 0 < 256 ^ bs.length := by positivity
  have hle := Int.le_bmod (x := load bs) hpos
  have hlt := Int.bmod_lt (x := load bs) hpos
  push_cast at hle hlt
  have hone : (1 : ℤ) ≤ 256 ^ bs.length := by exact_mod_cast hpos
  exact ⟨hle, by unfold loadSigned; omega⟩

theorem pow_le_of_mem_widths {w : ℕ} (hw : w ∈ [1, 2, 4, 8]) : (256 : ℤ) ^ w ≤ 2 ^ 64 := by
  simp only [List.mem_cons, List.not_mem_nil, or_false] at hw
  rcases hw with rfl | rfl | rfl | rfl <;> norm_num

end Accounts

/-! ### Steps

Each branch of `execute` is settled by the lemmas about visiting, and what is left of it is the
length of its format. The state and the account of a whole run then follow from `Incremental`. -/

section Steps

variable {stack : List Frame} {r : Context × Option Obj}

theorem accounts_fixnum (hstack : ValidStack stack) {d : ℤ} (hd : -2 ^ 5 ≤ d ∧ d < 2 ^ 7) :
    Accounts stack 1 (afterVisitProc stack (.integer d)) := by
  refine accounts_visit hstack ⟨by omega, by omega⟩ ?_
  rw [pack_integer, packInt64, if_neg (by omega), if_pos (by omega), length_store]

/-- A header of the table only announces what comes. -/
theorem accounts_coded (hstack : ValidStack stack) (k : ℕ) :
    Accounts stack 1 (⟨trails[k]?, stack⟩, none) := by
  have hmem : ∀ t ∈ trails[k]?, t ∈ trails := fun t ht => List.mem_of_getElem? ht
  refine ⟨⟨fun t ht => (spec_of_mem_trails (hmem t ht)).1, hstack⟩, not_mem_none, ?_⟩
  cases hk : trails[k]? with
  | none => simp [Context.weight, outputLength]
  | some t =>
    simp [Context.weight, outputLength, (spec_of_mem_trails (hmem t hk)).2, Nat.add_comm]

/-- A header pays one byte for what it does. -/
theorem readHeader_accounts (hstack : ValidStack stack) {c : Char}
    (h : readHeader stack c = .ok r) : Accounts stack 1 r := by
  unfold readHeader at h
  dsimp only at h
  split_ifs at h with hpos hneg _ hstr harray hmap
  · obtain rfl := Except.ok.inj h
    exact accounts_fixnum hstack (by omega)
  · obtain rfl := Except.ok.inj h
    exact accounts_fixnum hstack (by omega)
  · obtain rfl := Except.ok.inj h
    exact accounts_coded hstack _
  · obtain rfl := Except.ok.inj h
    refine accounts_startValue hstack (show uchar c % 32 < 2 ^ 32 by omega) ?_
    rw [Raw.header, packStr, if_pos (by omega), List.length_singleton]
  · refine accounts_startAggregate hstack (by omega) ?_ h
    rw [Container.header, packArray, if_pos (by omega), List.length_singleton]
  · refine accounts_startAggregate hstack (by omega) ?_ h
    rw [Container.header, packMap, if_pos (by omega), List.length_singleton]
  all_goals
    obtain rfl := Except.ok.inj h
    exact accounts_visit hstack trivial le_rfl

/-- What a header has announced is paid for by it and by the bytes behind it. -/
theorem readTrail_accounts (hstack : ValidStack stack) {bs : Str} {cs : Cs}
    (hcs : cs.Valid bs.length) (h : readTrail stack bs cs = .ok r) :
    Accounts stack (cs.weight bs.length + bs.length) r := by
  have hload := load_lt bs
  cases cs with
  | float =>
    obtain rfl := Except.ok.inj h
    rw [show bs.length = 4 from hcs] at hload ⊢
    exact accounts_visit hstack hload (by rw [Obj.pack, List.length_cons, length_store]; decide)
  | double =>
    obtain rfl := Except.ok.inj h
    rw [show bs.length = 8 from hcs] at hload ⊢
    exact accounts_visit hstack hload (by rw [Obj.pack, List.length_cons, length_store]; decide)
  | uint =>
    obtain rfl := Except.ok.inj h
    have hlt : (load bs : ℤ) < 256 ^ bs.length := by exact_mod_cast hload
    have hmax := pow_le_of_mem_widths hcs
    refine accounts_visit hstack ⟨by omega, by omega⟩ ?_
    · rw [pack_integer]
      exact length_packInt64 hcs ⟨by omega, hlt⟩
  | int =>
    obtain rfl := Except.ok.inj h
    obtain ⟨hle, hlt⟩ := loadSigned_bounds bs
    have hmax := pow_le_of_mem_widths hcs
    refine accounts_visit hstack ⟨by omega, by omega⟩ ?_
    · rw [pack_integer]
      exact length_packInt64 hcs ⟨hle, hlt⟩
  | fixext =>
    obtain rfl := Except.ok.inj h
    simp only [Cs.Valid, List.mem_cons, List.not_mem_nil, or_false] at hcs
    refine accounts_visit hstack ⟨by omega, by omega⟩ ?_
    rw [Obj.pack, List.length_append]
    refine Nat.add_le_add_right ?_ _
    rcases hcs with hw | hw | hw | hw | hw <;> rw [hw] <;> rfl
  | size raw =>
    have hwidth := sizeWidth_le hcs hload
    have hmax : load bs < 2 ^ 32 := by
      simp only [Cs.Valid, List.mem_cons, List.not_mem_nil, or_false] at hcs
      rcases hcs with hw | hw | hw <;> rw [hw] at hload <;> omega
    cases raw with
    | str =>
      obtain rfl := Except.ok.inj h
      exact accounts_startValue hstack hmax (length_packStr.trans hwidth)
    | bin =>
      obtain rfl := Except.ok.inj h
      exact accounts_startValue hstack hmax (length_packBin.trans hwidth)
    | ext =>
      obtain rfl := Except.ok.inj h
      exact accounts_startValue hstack ⟨by omega, by omega⟩ (length_packExt.trans hwidth)
  | value raw =>
    obtain rfl := Except.ok.inj h
    refine accounts_visit hstack (Raw.Fits.sized hcs _) ?_
    rw [Raw.pack_obj, List.length_append]
    rfl
  | items c =>
    have hmax : load bs < 2 ^ 32 := by
      simp only [Cs.Valid, List.mem_cons, List.not_mem_nil, or_false] at hcs
      rcases hcs with hw | hw <;> rw [hw] at hload <;> omega
    exact accounts_startAggregate hstack hmax (c.length_header hcs hload) h

/-- One step of the parser keeps its state valid, puts out objects in range, and covers its
weight by the bytes that it reads. -/
theorem read_accounts {s s' : Context} {bs : Str} {o : Option Obj} (hs : s.Valid)
    (hbs : bs.length = unpacker.need s) (h : unpacker.read s bs = .ok (s', o)) :
    s'.Valid ∧ (∀ p ∈ o, p.Sized 0) ∧ s'.weight + outputLength o ≤ s.weight + bs.length := by
  obtain ⟨pending, stack⟩ := s
  obtain ⟨hpending, hstack⟩ := hs
  cases pending with
  | none =>
    obtain ⟨c, rfl⟩ := List.length_eq_one_iff.mp hbs
    obtain ⟨hvalid, hsized, hweight⟩ := readHeader_accounts hstack h
    exact ⟨hvalid, hsized, by simpa [Context.weight] using hweight⟩
  | some t =>
    have hlen : bs.length = t.trail := hbs
    obtain ⟨hvalid, hsized, hweight⟩ :=
      readTrail_accounts hstack (by rw [hlen]; exact hpending t rfl) h
    refine ⟨hvalid, hsized, hweight.trans ?_⟩
    simp only [Context.weight, Option.map_some, Option.getD_some, hlen]
    omega

end Steps

/-- Out of any bytes the unpacker makes objects whose sizes and numbers are in range; packed
again they are no longer than what it was given, and it finds them there once more. -/
theorem unpack_wellFormed (bytes : Str) :
    (∀ o ∈ (unpacker.feed .init bytes).outputs, o.Sized 0) ∧
      ((unpacker.feed .init bytes).outputs.flatMap Obj.pack).length ≤ bytes.length ∧
      unpacker.feed .init ((unpacker.feed .init bytes).outputs.flatMap Obj.pack) =
        ⟨(unpacker.feed .init bytes).outputs, .ok (.init, [])⟩ := by
  have hinit : Context.Valid .init := ⟨not_mem_none, trivial⟩
  obtain ⟨hsized, hlen⟩ :=
    Incremental.feed_accounts (p := unpacker) bytes (fun _ _ _ _ => read_accounts) hinit
  rw [← List.length_flatMap, show Context.init.weight = 0 from rfl, Nat.zero_add] at hlen
  refine ⟨hsized, hlen, ?_⟩
  generalize (unpacker.feed .init bytes).outputs = os at hsized
  induction os with
  | nil => rfl
  | cons o os ih =>
    rw [List.flatMap_cons, unpacker_decodes.feed_encode o _ (hsized o (.head _)),
      ih fun p hp => hsized p (.tail _ hp)]
    rfl

end MapReduceCpp.Rpc
