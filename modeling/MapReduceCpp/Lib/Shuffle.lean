import MapReduceCpp.Lib.Grouping
import MapReduceCpp.Lib.Partition
import Mathlib.Data.List.Dedup
import Mathlib.Data.List.Perm.Lattice

/-!
# MapReduceCpp.Lib.Shuffle

Grouping pairs by key when the keys are spread over several reducers.

Every reducer groups the pairs whose key is routed to it. Since a key is routed to
one reducer only, the entries of all reducers together are one entry for each key
of the whole list, with all its values in their order (`shuffle_perm`): the number
of reducers and the route have no influence but on the order of the entries.
-/

open Std (ExtTreeMap TransOrd LawfulEqOrd)

namespace Shuffle

open Grouping ListPartition

variable {κ β : Type} [DecidableEq κ] [Ord κ] [TransOrd κ] [LawfulEqOrd κ] (rt : κ → ℕ)

/-- The pairs routed to a reducer. -/
def routed (ps : List (κ × β)) (r : ℕ) : List (κ × β) := part (fun p => rt p.1) ps r

/-- The entries of a reducer: its pairs grouped, in the order of the keys. -/
def entries (ps : List (κ × β)) (r : ℕ) : List (κ × List β) := (ofPairs (routed rt ps r)).toList

/-- The entry of every key of the list, with all its values: the result of grouping without any
distribution. -/
def reference (ps : List (κ × β)) : List (κ × List β) :=
  (ps.map Prod.fst).dedup.map fun k => (k, valuesOf k ps)

variable {rt}

omit [Ord κ] [TransOrd κ] [LawfulEqOrd κ] in
theorem valuesOf_routed (k : κ) (ps : List (κ × β)) (r : ℕ) :
    valuesOf k (routed rt ps r) = if rt k = r then valuesOf k ps else [] := by
  rw [routed, part, valuesOf_filter k fun k => decide (rt k = r)]
  simp only [decide_eq_true_eq]

omit [Ord κ] [TransOrd κ] [LawfulEqOrd κ] in
theorem mem_reference {ps : List (κ × β)} {k : κ} {vs : List β} :
    (k, vs) ∈ reference ps ↔ k ∈ ps.map Prod.fst ∧ vs = valuesOf k ps := by
  simp only [reference, List.mem_map, List.mem_dedup, Prod.mk.injEq]
  constructor
  · rintro ⟨k', hk, rfl, rfl⟩
    exact ⟨hk, rfl⟩
  · rintro ⟨hk, rfl⟩
    exact ⟨k, hk, rfl, rfl⟩

omit [Ord κ] [TransOrd κ] [LawfulEqOrd κ] in
theorem reference_keys (ps : List (κ × β)) :
    (reference ps).map Prod.fst = (ps.map Prod.fst).dedup := by
  simp [reference, Function.comp_def]

omit [Ord κ] [TransOrd κ] [LawfulEqOrd κ] in
theorem reference_nodup (ps : List (κ × β)) : (reference ps).Nodup :=
  .of_map Prod.fst (reference_keys ps ▸ List.nodup_dedup _)

/-- A reducer has an entry for exactly the keys routed to it. -/
theorem mem_entries {ps : List (κ × β)} {r : ℕ} {k : κ} {vs : List β} :
    (k, vs) ∈ entries rt ps r ↔ rt k = r ∧ (k, vs) ∈ reference ps := by
  rw [entries, (groups_ofPairs _).mem_toList, mem_reference, ← valuesOf_ne_nil, ← valuesOf_ne_nil,
    valuesOf_routed]
  by_cases h : rt k = r <;> simp [h]

omit [DecidableEq κ] [LawfulEqOrd κ] in
theorem entries_nodup (ps : List (κ × β)) (r : ℕ) : (entries rt ps r).Nodup :=
  .of_map Prod.fst (nodup_keys _)

/-- The entries of all reducers are one entry for each key, with all its values. Both sides have
no entry twice, so they are compared by membership. -/
theorem shuffle_perm {ps : List (κ × β)} {R : ℕ} (h : ∀ k ∈ ps.map Prod.fst, rt k < R) :
    ((List.range R).flatMap (entries rt ps)).Perm (reference ps) := by
  have hnodup : ((List.range R).flatMap (entries rt ps)).Nodup := by
    rw [List.nodup_flatMap]
    refine ⟨fun r _ => entries_nodup ps r, ?_⟩
    refine List.nodup_range.imp fun {r r'} hne => ?_
    rintro ⟨k, vs⟩ hr hr'
    exact hne ((mem_entries.mp hr).1.symm.trans (mem_entries.mp hr').1)
  refine (List.perm_ext_iff_of_nodup hnodup (reference_nodup ps)).mpr ?_
  rintro ⟨k, vs⟩
  simp only [List.mem_flatMap, List.mem_range, mem_entries]
  constructor
  · rintro ⟨r, -, -, hmem⟩
    exact hmem
  · intro hmem
    exact ⟨rt k, h k (mem_reference.mp hmem).1, rfl, hmem⟩

end Shuffle
