import Mathlib.Algebra.GroupWithZero.Nat
import Mathlib.Data.List.Basic
import Mathlib.Order.Nat

/-!
# MapReduceCpp.Lib.Incremental

Parsers that take their input as it comes.

In every state such a parser knows how many symbols it needs before it can go on, and
then it reads just these. `next` reads up to the next output and `feed` collects the
outputs of all that is there; what is too little for another step stays over.

How the input is cut into chunks makes no difference (`feed_append`). For an encoding
that the parser reads back (`Decodes`), a stream of encoded values of which only a part
has come gives the values that have come whole (`Decodes.feed_prefix`), and what the
parser keeps and puts out is paid for by what it has read (`feed_accounts`).
-/

/-- A parser of symbols `α` with outputs `β` and errors `ε`. It asks for at least one symbol in
every state, so that it comes to rest on every input. -/
structure Incremental (σ α β ε : Type) where
  need : σ → ℕ
  need_pos : ∀ s, 0 < need s
  /-- What becomes of the state over the symbols that it needs. -/
  read : σ → List α → Except ε (σ × Option β)

namespace Incremental

variable {σ α β ε : Type}

/-- How the way to the next output ends: for want of symbols, with an output and what is left
behind it, or with an error. -/
inductive Next (σ α β ε : Type)
  | more (s : σ) (left : List α)
  | output (b : β) (s : σ) (left : List α)
  | error (e : ε)

/-- What a parser has made of its input: the outputs, and where it has come to rest, with the
symbols that it has not read. The outputs in front of an error are kept. -/
structure Fed (σ α β ε : Type) where
  outputs : List β
  rest : Except ε (σ × List α)

namespace Fed

/-- Nothing is read. -/
def idle (s : σ) (left : List α) : Fed σ α β ε := ⟨[], .ok (s, left)⟩

/-- An output in front. -/
def after (o : Option β) (r : Fed σ α β ε) : Fed σ α β ε :=
  { r with outputs := o.toList ++ r.outputs }

/-- To go on from where a parser rests. -/
def bind (r : Fed σ α β ε) (f : σ → List α → Fed σ α β ε) : Fed σ α β ε :=
  match r.rest with
  | .error _ => r
  | .ok (s, left) => { f s left with outputs := r.outputs ++ (f s left).outputs }

variable {r : Fed σ α β ε} {f : σ → List α → Fed σ α β ε} {o : Option β}

@[simp] theorem idle_bind (s : σ) (left : List α) :
    (idle s left : Fed σ α β ε).bind f = f s left := rfl

@[simp] theorem after_none : after none r = r := rfl

theorem after_bind : (after o r).bind f = after o (r.bind f) := by
  obtain ⟨out, rest⟩ := r
  cases rest with
  | error e => rfl
  | ok q => simp [after, bind]

end Fed

variable (p : Incremental σ α β ε)

/-- Steps up to the next output; as many as there are symbols are enough. -/
def next : ℕ → σ → List α → Next σ α β ε
  | 0, s, xs => .more s xs
  | n + 1, s, xs =>
    if xs.length < p.need s then .more s xs
    else
      match p.read s (xs.take (p.need s)) with
      | .error e => .error e
      | .ok (s', some b) => .output b s' (xs.drop (p.need s))
      | .ok (s', none) => next n s' (xs.drop (p.need s))

/-- Outputs as long as there are any. -/
def drain : ℕ → σ → List α → Fed σ α β ε
  | 0, s, xs => .idle s xs
  | n + 1, s, xs =>
    match p.next xs.length s xs with
    | .more s' left => .idle s' left
    | .error e => ⟨[], .error e⟩
    | .output b s' left => (drain n s' left).after (some b)

/-- All that some input gives. Each output takes a symbol at least, so there are no more of them
than symbols. -/
def feed (s : σ) (xs : List α) : Fed σ α β ε := p.drain xs.length s xs

/-! ### One step

`next` and `drain` count their steps down, and the laws of this section take the counters out
again: what one step does to `feed` depends on the symbols alone. -/

variable {p} {s s' : σ} {xs ys : List α} {o : Option β} {n m : ℕ}

theorem length_drop_lt (h : ¬ xs.length < p.need s) : (xs.drop (p.need s)).length < xs.length := by
  have := p.need_pos s
  simp only [List.length_drop]
  omega

theorem next_fuel (hn : xs.length ≤ n) (hm : xs.length ≤ m) : p.next n s xs = p.next m s xs := by
  induction n generalizing s xs m with
  | zero =>
    have hlt : xs.length < p.need s := (Nat.le_zero.mp hn).symm ▸ p.need_pos s
    cases m with
    | zero => rfl
    | succ m => simp only [next, if_pos hlt]
  | succ n ih =>
    cases m with
    | zero =>
      have hlt : xs.length < p.need s := (Nat.le_zero.mp hm).symm ▸ p.need_pos s
      simp only [next, if_pos hlt]
    | succ m =>
      by_cases hlt : xs.length < p.need s
      · simp only [next, if_pos hlt]
      · have hdrop := length_drop_lt hlt
        simp only [next, if_neg hlt]
        have hrest : ∀ s', p.next n s' (xs.drop (p.need s)) = p.next m s' (xs.drop (p.need s)) :=
          fun _ => ih (by omega) (by omega)
        simp only [hrest]

/-- An output costs at least one symbol. -/
theorem next_output_length {b : β} {left : List α} (h : p.next n s xs = .output b s' left) :
    left.length < xs.length := by
  induction n generalizing s xs with
  | zero => cases h
  | succ n ih =>
    unfold next at h
    split at h
    · cases h
    · rename_i hlt
      split at h
      · cases h
      · cases h
        exact length_drop_lt hlt
      · exact (ih h).trans (length_drop_lt hlt)

theorem drain_fuel (hn : xs.length ≤ n) (hm : xs.length ≤ m) : p.drain n s xs = p.drain m s xs := by
  induction n generalizing s xs m with
  | zero =>
    obtain rfl := List.length_eq_zero_iff.mp (Nat.le_zero.mp hn)
    cases m with
    | zero => rfl
    | succ m => rfl
  | succ n ih =>
    cases m with
    | zero =>
      obtain rfl := List.length_eq_zero_iff.mp (Nat.le_zero.mp hm)
      rfl
    | succ m =>
      simp only [drain]
      cases h : p.next xs.length s xs with
      | more s' left => rfl
      | error e => rfl
      | output b s' left =>
        have hlen := next_output_length h
        have hrest : p.drain n s' left = p.drain m s' left := ih (by omega) (by omega)
        simp only [hrest]

theorem feed_of_lt (h : xs.length < p.need s) : p.feed s xs = .idle s xs := by
  unfold feed
  cases xs with
  | nil => rfl
  | cons x xs => simp only [List.length_cons, drain, next,
    if_pos (show xs.length + 1 < p.need s from h)]

theorem feed_of_read (h : p.need s ≤ xs.length)
    (hread : p.read s (xs.take (p.need s)) = .ok (s', o)) :
    p.feed s xs = (p.feed s' (xs.drop (p.need s))).after o := by
  have hlt := not_lt.mpr h
  have hdrop := length_drop_lt hlt
  obtain ⟨n, hn⟩ : ∃ n, xs.length = n + 1 := ⟨xs.length - 1, by omega⟩
  unfold feed
  rw [hn, drain, hn, next, if_neg hlt, hread]
  cases o with
  | some b => exact congrArg (Fed.after _) (drain_fuel (by omega) le_rfl)
  | none =>
    rw [Fed.after_none, ← drain_fuel (n := n + 1) (by omega) le_rfl]
    simp only [drain]
    rw [next_fuel (n := n) (m := (xs.drop (p.need s)).length) (by omega) le_rfl]

theorem feed_of_error {e : ε} (h : p.need s ≤ xs.length)
    (hread : p.read s (xs.take (p.need s)) = .error e) : p.feed s xs = ⟨[], .error e⟩ := by
  have hlt := not_lt.mpr h
  obtain ⟨n, hn⟩ : ∃ n, xs.length = n + 1 := ⟨xs.length - 1, by have := p.need_pos s; omega⟩
  unfold feed
  rw [hn, drain, hn, next, if_neg hlt, hread]

/-- A step over symbols that are written out. -/
theorem feed_append_of_read (h : xs.length = p.need s) (hread : p.read s xs = .ok (s', o)) :
    p.feed s (xs ++ ys) = (p.feed s' ys).after o := by
  have hle : p.need s ≤ (xs ++ ys).length := by rw [List.length_append]; omega
  have hread' : p.read s ((xs ++ ys).take (p.need s)) = .ok (s', o) := by rwa [List.take_left' h]
  rw [feed_of_read hle hread', List.drop_left' h]

@[simp] theorem feed_nil : p.feed s [] = .idle s [] := rfl

/-- What is left over is the end of the input. -/
theorem feed_suffix {left : List α} (h : (p.feed s xs).rest = .ok (s', left)) : left <:+ xs := by
  induction hn : xs.length using Nat.strongRecOn generalizing s xs with
  | ind n ih =>
    subst hn
    by_cases hlt : xs.length < p.need s
    · rw [feed_of_lt hlt] at h
      cases h
      exact List.suffix_rfl
    · have hle := not_lt.mp hlt
      cases hread : p.read s (xs.take (p.need s)) with
      | error e => rw [feed_of_error hle hread] at h; cases h
      | ok q =>
        rw [feed_of_read hle hread] at h
        exact (ih _ (length_drop_lt hlt) h rfl).trans (List.drop_suffix _ _)

/-! ### Chunks

A caller reads what has come, unpacks what it can and waits for more. What it gets does not
depend on where the pieces were cut, since what is left over is read again together with what
comes later. -/

/-- What comes later may as well come at once. By induction on the input: as long as there is
enough for a step it is the same step on both sides. -/
theorem feed_append :
    p.feed s (xs ++ ys) = (p.feed s xs).bind fun s' left => p.feed s' (left ++ ys) := by
  induction hn : xs.length using Nat.strongRecOn generalizing s xs with
  | ind n ih =>
    subst hn
    by_cases hlt : xs.length < p.need s
    · rw [feed_of_lt hlt, Fed.idle_bind]
    · have hle := not_lt.mp hlt
      have hle' : p.need s ≤ (xs ++ ys).length := by rw [List.length_append]; omega
      have htake : (xs ++ ys).take (p.need s) = xs.take (p.need s) :=
        List.take_append_of_le_length hle
      cases hread : p.read s (xs.take (p.need s)) with
      | error e =>
        rw [feed_of_error hle hread, feed_of_error hle' (by rwa [htake])]
        rfl
      | ok q =>
        obtain ⟨s', o⟩ := q
        have hread' : p.read s ((xs ++ ys).take (p.need s)) = .ok (s', o) := by rwa [htake]
        rw [feed_of_read hle hread, feed_of_read hle' hread',
          List.drop_append_of_le_length hle, ih _ (length_drop_lt hlt) rfl, Fed.after_bind]

/-- Steps that pay for what they leave behind and put out with what they read: so does the whole
parser. `w` is what a state owes for, `cost` what an output is worth. -/
theorem feed_accounts {I : σ → Prop} {Q : β → Prop} {w : σ → ℕ} {cost : β → ℕ} (xs : List α)
    (hstep : ∀ s xs s' o, I s → xs.length = p.need s → p.read s xs = .ok (s', o) →
      I s' ∧ (∀ b ∈ o, Q b) ∧ w s' + (o.map cost).getD 0 ≤ w s + xs.length)
    (hs : I s) :
    (∀ b ∈ (p.feed s xs).outputs, Q b) ∧
      ((p.feed s xs).outputs.map cost).sum ≤ w s + xs.length := by
  induction hn : xs.length using Nat.strongRecOn generalizing s xs with
  | ind n ih =>
    subst hn
    by_cases hlt : xs.length < p.need s
    · rw [feed_of_lt hlt]
      exact ⟨fun b hb => (List.not_mem_nil hb).elim, Nat.zero_le _⟩
    · have hle := not_lt.mp hlt
      cases hread : p.read s (xs.take (p.need s)) with
      | error e =>
        rw [feed_of_error hle hread]
        exact ⟨fun b hb => (List.not_mem_nil hb).elim, Nat.zero_le _⟩
      | ok q =>
        obtain ⟨s', o⟩ := q
        have htake : (xs.take (p.need s)).length = p.need s := List.length_take_of_le hle
        obtain ⟨hs', ho, hw⟩ := hstep s _ s' o hs htake hread
        obtain ⟨hrest, hsum⟩ := ih _ (length_drop_lt hlt) _ hs' rfl
        rw [feed_of_read hle hread]
        rw [List.length_drop] at hsum
        -- The symbols of this step pay for its output, if it has one, and for what the state
        -- has grown by.
        cases o with
        | none =>
          rw [htake, Option.map_none, Option.getD_none] at hw
          exact ⟨hrest, by rw [Fed.after_none]; omega⟩
        | some b =>
          rw [htake, Option.map_some, Option.getD_some] at hw
          refine ⟨fun c hc => ?_, ?_⟩
          · rcases List.mem_cons.mp hc with rfl | hc
            · exact ho _ rfl
            · exact hrest c hc
          · simp only [Fed.after, Option.toList_some, List.singleton_append, List.map_cons,
              List.sum_cons]
            omega

/-! ### Encodings

A parser that reads back what an encoding writes, value for value, says nothing yet of a value
that has come in part. That it gives nothing then follows from `busy`: within a value the parser
is never where it starts, so it cannot have got to the end of one. -/

/-- The parser reads what an encoding writes, from its start to its start, and is not at its
start in between. -/
structure Decodes (p : Incremental σ α β ε) (start : σ) (encode : β → List α) (ok : β → Prop) :
    Prop where
  feed_encode : ∀ b rest, ok b → p.feed start (encode b ++ rest) = (p.feed start rest).after (some b)
  busy : ∀ s xs s', p.read s xs = .ok (s', none) → s' ≠ start

namespace Decodes

variable {start : σ} {encode : β → List α} {ok : β → Prop}

/-- Without an output the parser gets back to its start only by reading nothing. -/
theorem eq_of_feed (h : p.Decodes start encode ok) {left : List α}
    (hfeed : p.feed s xs = ⟨[], .ok (start, left)⟩) : s = start ∧ left = xs := by
  induction hn : xs.length using Nat.strongRecOn generalizing s xs with
  | ind n ih =>
    subst hn
    by_cases hlt : xs.length < p.need s
    · rw [feed_of_lt hlt] at hfeed
      cases hfeed
      exact ⟨rfl, rfl⟩
    · have hle := not_lt.mp hlt
      cases hread : p.read s (xs.take (p.need s)) with
      | error e => rw [feed_of_error hle hread] at hfeed; cases hfeed
      | ok q =>
        obtain ⟨s', o⟩ := q
        rw [feed_of_read hle hread] at hfeed
        cases o with
        | some b => simp [Fed.after] at hfeed
        | none =>
          obtain ⟨hstart, -⟩ := ih _ (length_drop_lt hlt) hfeed rfl
          exact absurd hstart (h.busy _ _ _ hread)

/-- A part of an encoded value gives nothing. -/
theorem feed_part (h : p.Decodes start encode ok) {b : β} (hb : ok b) (henc : encode b = xs ++ ys)
    (hys : ys ≠ []) : ∃ s left, p.feed start xs = .idle s left := by
  have hwhole := h.feed_encode b [] hb
  rw [List.append_nil, henc, feed_append] at hwhole
  cases hr : p.feed start xs with
  | mk out rest =>
    cases rest with
    | error e => rw [hr] at hwhole; simp [Fed.bind, Fed.after, Fed.idle] at hwhole
    | ok q =>
      obtain ⟨s, left⟩ := q
      rw [hr] at hwhole
      simp only [Fed.bind, feed_nil, Fed.after, Fed.idle, Option.toList_some, List.append_nil,
        Fed.mk.injEq] at hwhole
      obtain ⟨hout, hrest⟩ := hwhole
      cases out with
      | nil => exact ⟨s, left, rfl⟩
      | cons c out =>
        have hnil : (p.feed s (left ++ ys)).outputs = [] := by
          have := congrArg List.length hout
          rw [List.length_append, List.length_cons, List.length_singleton] at this
          exact List.length_eq_zero_iff.mp (by omega)
        have hquiet : p.feed s (left ++ ys) = ⟨[], .ok (start, [])⟩ := by rw [← hrest, ← hnil]
        obtain ⟨-, hleft⟩ := h.eq_of_feed hquiet
        exact absurd (List.append_eq_nil_iff.mp hleft.symm).2 hys

/-- From a part of a stream of values the parser gets those that have come whole: `k` of them,
and the next one has not come to its end. -/
theorem feed_prefix (h : p.Decodes start encode ok) {bs : List β} (hbs : ∀ b ∈ bs, ok b)
    (hxs : xs <+: bs.flatMap encode) :
    ∃ k s left, p.feed start xs = ⟨bs.take k, .ok (s, left)⟩ ∧ (bs.take k).flatMap encode <+: xs ∧
      (k < bs.length → xs.length < ((bs.take (k + 1)).flatMap encode).length) := by
  induction bs generalizing xs with
  | nil =>
    obtain rfl := List.prefix_nil.mp hxs
    exact ⟨0, start, [], rfl, List.prefix_rfl, fun hk => absurd hk (Nat.lt_irrefl 0)⟩
  | cons b bs ih =>
    rw [List.flatMap_cons] at hxs
    -- If the first value has come whole, the others are as in the induction hypothesis.
    have whole : ∀ zs, encode b ++ zs = xs → ∃ k s left,
        p.feed start xs = ⟨(b :: bs).take k, .ok (s, left)⟩ ∧
        ((b :: bs).take k).flatMap encode <+: xs ∧
        (k < (b :: bs).length → xs.length < (((b :: bs).take (k + 1)).flatMap encode).length) := by
      rintro zs rfl
      obtain ⟨k, s, left, hfeed, hread, hmore⟩ :=
        ih (fun c hc => hbs c (.tail _ hc)) ((List.prefix_append_right_inj _).mp hxs)
      refine ⟨k + 1, s, left, ?_, ?_, fun hk => ?_⟩
      · rw [h.feed_encode b zs (hbs b (.head _)), hfeed]
        rfl
      · simpa using hread
      · have := hmore (Nat.lt_of_succ_lt_succ hk)
        simp only [List.take_succ_cons, List.flatMap_cons, List.length_append] at this ⊢
        omega
    rcases List.prefix_or_prefix_of_prefix hxs (List.prefix_append _ _) with ⟨ys, hys⟩ | ⟨zs, hzs⟩
    · by_cases hnil : ys = []
      · exact whole [] (by rw [← hys, hnil, List.append_nil, List.append_nil])
      -- Otherwise a part of it has come, and there is nothing else.
      · obtain ⟨s, left, hfeed⟩ := h.feed_part (hbs b (.head _)) hys.symm hnil
        refine ⟨0, s, left, hfeed, List.nil_prefix, fun _ => ?_⟩
        have := List.length_pos_iff.mpr hnil
        simp [← hys]
        omega
    · exact whole zs hzs

end Decodes

end Incremental
