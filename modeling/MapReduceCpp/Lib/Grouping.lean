import Mathlib.Data.List.Basic
import Std.Data.ExtTreeMap

/-!
# MapReduceCpp.Lib.Grouping

Grouping a list of key-value pairs by key into an ordered map of value lists.

`valuesOf k ps` is the list of values `ps` holds for `k`, in order, and
`Groups m ps` says that the ordered map `m` is `ps` grouped by key: a key is
present exactly when it has a value, with exactly its values in order. Appending
to one key's list (`Groups.append`) and folding one grouped map into another
(`Groups.merge`) keep the relation, and a grouped map is determined by its pairs
(`Groups.unique`), so a program that builds such a map piece by piece can be
compared with the flat list of pairs it has consumed.
-/

open Std (ExtTreeMap TransOrd LawfulEqOrd)

namespace Grouping

variable {κ β : Type} [DecidableEq κ]

/-- The values a list of pairs holds for a key, in order. Two lists with the same values for
each key are alike for everything that groups by key. -/
def valuesOf (k : κ) (ps : List (κ × β)) : List β :=
  ps.filterMap fun p => if p.1 = k then some p.2 else none

@[simp] theorem valuesOf_nil (k : κ) : valuesOf k ([] : List (κ × β)) = [] := rfl

theorem valuesOf_cons (k : κ) (p : κ × β) (ps : List (κ × β)) :
    valuesOf k (p :: ps) = if p.1 = k then p.2 :: valuesOf k ps else valuesOf k ps := by
  by_cases h : p.1 = k <;> simp [valuesOf, h]

@[simp] theorem valuesOf_append (k : κ) (ps qs : List (κ × β)) :
    valuesOf k (ps ++ qs) = valuesOf k ps ++ valuesOf k qs := by
  simp [valuesOf]

theorem valuesOf_flatMap {γ : Type} (k : κ) (xs : List γ) (f : γ → List (κ × β)) :
    valuesOf k (xs.flatMap f) = xs.flatMap fun x => valuesOf k (f x) := by
  induction xs with
  | nil => rfl
  | cons x xs ih => simp [ih]

theorem mem_valuesOf {k : κ} {v : β} {ps : List (κ × β)} :
    v ∈ valuesOf k ps ↔ (k, v) ∈ ps := by
  simp only [valuesOf, List.mem_filterMap, Option.ite_none_right_eq_some, Option.some.injEq]
  constructor
  · rintro ⟨⟨k', v'⟩, hp, rfl, rfl⟩
    exact hp
  · intro h
    exact ⟨(k, v), h, rfl, rfl⟩

theorem valuesOf_ne_nil {k : κ} {ps : List (κ × β)} :
    valuesOf k ps ≠ [] ↔ k ∈ ps.map Prod.fst := by
  constructor
  · intro h
    obtain ⟨v, hv⟩ := List.exists_mem_of_ne_nil _ h
    exact List.mem_map_of_mem (mem_valuesOf.mp hv)
  · intro h
    obtain ⟨⟨k', v⟩, hp, rfl⟩ := List.mem_map.mp h
    exact List.ne_nil_of_mem (mem_valuesOf.mpr hp)

theorem valuesOf_map_pair (k k' : κ) (vs : List β) :
    valuesOf k (vs.map fun v => (k', v)) = if k' = k then vs else [] := by
  induction vs with
  | nil => simp
  | cons v vs ih =>
    rw [List.map_cons, valuesOf_cons, ih]
    split <;> simp_all

/-- Values of a key survive a filter on keys that keeps it. -/
theorem valuesOf_filter (k : κ) (q : κ → Bool) (ps : List (κ × β)) :
    valuesOf k (ps.filter fun p => q p.1) = if q k = true then valuesOf k ps else [] := by
  induction ps with
  | nil => simp
  | cons p ps ih =>
    by_cases hp : p.1 = k
    · subst hp
      by_cases hq : q p.1 = true <;> simp_all [valuesOf_cons]
    · by_cases hq : q p.1 = true <;> simp_all [valuesOf_cons]

/-- How often a pair occurs is how often its value occurs among the key's values. -/
theorem count_valuesOf [DecidableEq β] (k : κ) (v : β) (ps : List (κ × β)) :
    (valuesOf k ps).count v = ps.count (k, v) := by
  induction ps with
  | nil => rfl
  | cons p ps ih =>
    rw [valuesOf_cons, List.count_cons, ← ih]
    by_cases hk : p.1 = k
    · rw [if_pos hk, List.count_cons]
      congr 2
      rw [Bool.eq_iff_iff, beq_iff_eq, beq_iff_eq, Prod.ext_iff]
      simp [hk]
    · have hne : (p == (k, v)) = false := by
        rw [beq_eq_false_iff_ne]
        exact fun he => hk (congrArg Prod.fst he)
      simp [hk, hne]

/-- Two lists with the same values for each key are rearrangements of each other. -/
theorem perm_of_valuesOf [DecidableEq β] {ps qs : List (κ × β)}
    (h : ∀ k, (valuesOf k ps).Perm (valuesOf k qs)) : ps.Perm qs := by
  rw [List.perm_iff_count]
  rintro ⟨k, v⟩
  rw [← count_valuesOf, ← count_valuesOf, (h k).count_eq]

/-- The pairs of a map of lists, key by key. -/
def flatten (es : List (κ × List β)) : List (κ × β) :=
  es.flatMap fun e => e.2.map fun v => (e.1, v)

theorem valuesOf_flatten_of_not_mem {k : κ} {es : List (κ × List β)}
    (h : k ∉ es.map Prod.fst) : valuesOf k (flatten es) = [] := by
  induction es with
  | nil => rfl
  | cons e es ih =>
    simp only [List.map_cons, List.mem_cons, not_or] at h
    rw [flatten, List.flatMap_cons, valuesOf_append, valuesOf_map_pair, if_neg (Ne.symm h.1)]
    exact ih h.2

theorem valuesOf_flatten_of_mem {k : κ} {vs : List β} {es : List (κ × List β)}
    (hnd : (es.map Prod.fst).Nodup) (h : (k, vs) ∈ es) : valuesOf k (flatten es) = vs := by
  induction es with
  | nil => simp at h
  | cons e es ih =>
    rw [List.map_cons, List.nodup_cons] at hnd
    rw [flatten, List.flatMap_cons, valuesOf_append, valuesOf_map_pair]
    rcases List.mem_cons.mp h with rfl | h
    · rw [if_pos rfl]
      have := valuesOf_flatten_of_not_mem hnd.1
      rw [flatten] at this
      rw [this, List.append_nil]
    · have hk : e.1 ≠ k := fun he =>
        hnd.1 (he ▸ List.mem_map_of_mem h)
      rw [if_neg hk, List.nil_append]
      exact ih hnd.2 h

variable [Ord κ] [TransOrd κ]

/-- `m` is `ps` grouped by key. The map has no entry for a key without a value, so the keys need
no clause of their own. -/
def Groups (m : ExtTreeMap κ (List β)) (ps : List (κ × β)) : Prop :=
  ∀ k, m[k]? = if valuesOf k ps = [] then none else some (valuesOf k ps)

omit [DecidableEq κ] in
/-- `operator[]` of an ordered map of lists: the list under the key, the empty
one when the key is absent. -/
theorem getD_eq (m : ExtTreeMap κ (List β)) (k : κ) : m.getD k [] = (m[k]?).getD [] :=
  ExtTreeMap.getD_eq_getD_getElem?

theorem groups_empty : Groups (∅ : ExtTreeMap κ (List β)) [] := by
  intro k
  simp

theorem Groups.getD {m : ExtTreeMap κ (List β)} {ps : List (κ × β)} (h : Groups m ps) (k : κ) :
    m.getD k [] = valuesOf k ps := by
  rw [getD_eq, h k]
  split <;> simp_all

theorem Groups.mem_iff {m : ExtTreeMap κ (List β)} {ps : List (κ × β)} (h : Groups m ps)
    (k : κ) : k ∈ m ↔ k ∈ ps.map Prod.fst := by
  rw [← ExtTreeMap.isSome_getElem?_iff_mem, h k, ← valuesOf_ne_nil]
  split <;> simp_all

/-- A grouped map depends only on each key's values. -/
theorem Groups.congr {m : ExtTreeMap κ (List β)} {ps qs : List (κ × β)} (h : Groups m ps)
    (heq : ∀ k, valuesOf k ps = valuesOf k qs) : Groups m qs := by
  intro k
  rw [h k, heq k]

variable [LawfulEqOrd κ]

/-- Appending values to one key's list. The list must not be empty, or the key would get an
entry without having a pair. -/
theorem Groups.append {m : ExtTreeMap κ (List β)} {ps : List (κ × β)} (h : Groups m ps)
    (k : κ) {vs : List β} (hvs : vs ≠ []) :
    Groups (m.insert k (m.getD k [] ++ vs)) (ps ++ vs.map fun v => (k, v)) := by
  intro k'
  rw [ExtTreeMap.getElem?_insert, h.getD, valuesOf_append, valuesOf_map_pair]
  by_cases hk : k = k'
  · subst hk
    simp [hvs]
  · have hcmp : compare k k' ≠ Ordering.eq := fun hc => hk (Std.LawfulEqOrd.eq_of_compare hc)
    rw [if_neg hcmp, if_neg hk, List.append_nil, h k']

theorem Groups.unique {m m' : ExtTreeMap κ (List β)} {ps : List (κ × β)} (h : Groups m ps)
    (h' : Groups m' ps) : m = m' :=
  ExtTreeMap.ext_getElem? fun k => by rw [h k, h' k]

theorem Groups.mem_toList {m : ExtTreeMap κ (List β)} {ps : List (κ × β)} (h : Groups m ps)
    {k : κ} {vs : List β} :
    (k, vs) ∈ m.toList ↔ k ∈ ps.map Prod.fst ∧ vs = valuesOf k ps := by
  rw [ExtTreeMap.mem_toList_iff_getElem?_eq_some, h k, ← valuesOf_ne_nil]
  by_cases hv : valuesOf k ps = [] <;> simp [hv, eq_comm]

omit [DecidableEq κ] [LawfulEqOrd κ] in
/-- The keys of an ordered map are listed once each. -/
theorem nodup_keys (m : ExtTreeMap κ (List β)) :
    (m.toList.map Prod.fst).Nodup := by
  rw [List.nodup_iff_pairwise_ne, List.pairwise_map]
  exact ExtTreeMap.distinct_keys_toList.imp fun h heq =>
    h (by rw [heq]; exact Std.ReflOrd.compare_self)

/-- Flattening a grouped map recovers each key's values. -/
theorem Groups.valuesOf_flatten {m : ExtTreeMap κ (List β)} {ps : List (κ × β)}
    (h : Groups m ps) (k : κ) : valuesOf k (flatten m.toList) = valuesOf k ps := by
  by_cases hk : k ∈ ps.map Prod.fst
  · exact valuesOf_flatten_of_mem (nodup_keys m) (h.mem_toList.mpr ⟨hk, rfl⟩)
  · have hk' : k ∉ m.toList.map Prod.fst := by
      intro hmem
      obtain ⟨⟨k', vs⟩, he, rfl⟩ := List.mem_map.mp hmem
      exact hk (h.mem_toList.mp he).1
    have hnil : valuesOf k ps = [] := by
      by_contra hne
      exact hk (valuesOf_ne_nil.mp hne)
    rw [valuesOf_flatten_of_not_mem hk', hnil]

/-- Appending a list of entries, one key after the other. -/
theorem Groups.foldl_append {m : ExtTreeMap κ (List β)} {ps : List (κ × β)} (h : Groups m ps)
    {es : List (κ × List β)} (hes : ∀ e ∈ es, e.2 ≠ []) :
    Groups (es.foldl (fun acc e => acc.insert e.1 (acc.getD e.1 [] ++ e.2)) m)
      (ps ++ flatten es) := by
  induction es generalizing m ps with
  | nil => simpa [flatten] using h
  | cons e es ih =>
    have hstep := ih (h.append e.1 (hes e List.mem_cons_self))
      fun e' he' => hes e' (List.mem_cons_of_mem _ he')
    simpa [flatten] using hstep

/-- Merging one grouped map into another, entry by entry, groups the concatenated pairs: what
the second map has for a key comes behind what the first has. -/
theorem Groups.merge {m m' : ExtTreeMap κ (List β)} {ps qs : List (κ × β)} (h : Groups m ps)
    (h' : Groups m' qs) :
    Groups (m'.toList.foldl (fun acc e => acc.insert e.1 (acc.getD e.1 [] ++ e.2)) m)
      (ps ++ qs) := by
  have hne : ∀ e ∈ m'.toList, e.2 ≠ [] := by
    rintro ⟨k, vs⟩ he
    obtain ⟨hk, rfl⟩ := h'.mem_toList.mp he
    exact valuesOf_ne_nil.mpr hk
  refine (h.foldl_append hne).congr fun k => ?_
  rw [valuesOf_append, valuesOf_append, h'.valuesOf_flatten]

/-! ### Extending a map

What a loop over a map cannot undo. It is weaker than grouping, and so holds of loops that skip
some pairs or end early. -/

/-- `m'` has all the keys of `m`, and under each of them the values of `m` first. -/
def Extends (m m' : ExtTreeMap κ (List β)) : Prop :=
  ∀ (k : κ) (vs : List β), m[k]? = some vs → ∃ ws, m'[k]? = some (vs ++ ws)

omit [DecidableEq κ] [LawfulEqOrd κ] in
theorem Extends.refl (m : ExtTreeMap κ (List β)) : Extends m m := fun _ vs h =>
  ⟨[], by rw [h, List.append_nil]⟩

omit [DecidableEq κ] [LawfulEqOrd κ] in
theorem Extends.trans {m₁ m₂ m₃ : ExtTreeMap κ (List β)} (h : Extends m₁ m₂)
    (h' : Extends m₂ m₃) : Extends m₁ m₃ := by
  intro k vs hk
  obtain ⟨ws, hws⟩ := h k vs hk
  obtain ⟨us, hus⟩ := h' k (vs ++ ws) hws
  exact ⟨ws ++ us, by rw [hus, List.append_assoc]⟩

omit [DecidableEq κ] in
/-- Appending to one key's list extends a map. -/
theorem extends_insert (m : ExtTreeMap κ (List β)) (k : κ) (ws : List β) :
    Extends m (m.insert k (m.getD k [] ++ ws)) := by
  intro k' vs hk'
  rw [ExtTreeMap.getElem?_insert]
  by_cases hk : compare k k' = .eq
  · obtain rfl := LawfulEqOrd.eq_of_compare hk
    exact ⟨ws, by rw [if_pos hk, getD_eq, hk', Option.getD_some]⟩
  · exact ⟨[], by rw [if_neg hk, hk', List.append_nil]⟩

omit [DecidableEq κ] in
/-- So does adding an entry if its key is new. -/
theorem extends_insertIfNew (m : ExtTreeMap κ (List β)) (k : κ) (ws : List β) :
    Extends m (m.insertIfNew k ws) := by
  intro k' vs hk'
  refine ⟨[], ?_⟩
  rw [ExtTreeMap.getElem?_insertIfNew, if_neg, hk', List.append_nil]
  rintro ⟨hk, hnew⟩
  obtain rfl := LawfulEqOrd.eq_of_compare hk
  exact hnew (ExtTreeMap.mem_iff_isSome_getElem?.mpr (by rw [hk', Option.isSome_some]))

omit [DecidableEq κ] [LawfulEqOrd κ] in
/-- A loop whose every turn extends the map extends it. -/
theorem extends_foldl {γ : Type} {f : ExtTreeMap κ (List β) → γ → ExtTreeMap κ (List β)}
    (hf : ∀ m x, Extends m (f m x)) (xs : List γ) (m : ExtTreeMap κ (List β)) :
    Extends m (xs.foldl f m) := by
  induction xs generalizing m with
  | nil => exact .refl m
  | cons x xs ih => exact (hf m x).trans (ih (f m x))

/-- Group a list of pairs, one after the other. By `Groups.unique` it is the only map that
groups them. -/
def ofPairs (ps : List (κ × β)) : ExtTreeMap κ (List β) :=
  ps.foldl (fun m p => m.insert p.1 (m.getD p.1 [] ++ [p.2])) ∅

theorem groups_ofPairs (ps : List (κ × β)) : Groups (ofPairs ps) ps := by
  suffices key : ∀ {m : ExtTreeMap κ (List β)} {qs : List (κ × β)}, Groups m qs →
      Groups (ps.foldl (fun m p => m.insert p.1 (m.getD p.1 [] ++ [p.2])) m) (qs ++ ps) by
    simpa [ofPairs] using key groups_empty
  induction ps with
  | nil => intro m qs h; simpa using h
  | cons p ps ih =>
    intro m qs h
    have hstep := ih (h.append p.1 (List.cons_ne_nil p.2 []))
    simpa using hstep

theorem Groups.eq_ofPairs {m : ExtTreeMap κ (List β)} {ps : List (κ × β)} (h : Groups m ps) :
    m = ofPairs ps :=
  h.unique (groups_ofPairs ps)

end Grouping
