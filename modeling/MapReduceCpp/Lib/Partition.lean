import Mathlib.Data.List.Perm.Basic
import Mathlib.Data.List.Flatten

/-!
# MapReduceCpp.Lib.Partition

Splitting a list into classes numbered by a function and putting it together
again class by class.

`part own xs i` is the sublist of class `i`. The classes below a bound,
concatenated in order, are a rearrangement of the elements whose class lies below
the bound (`parts_perm_filter`), hence of the whole list when every class does
(`parts_perm`). A function of the elements that is summed up class by class
therefore loses and doubles nothing (`flatMap_parts_perm`).
-/

namespace ListPartition

variable {α β : Type} (own : α → ℕ)

/-- The elements of one class, in order. That order is all that is left of the list within a
class. -/
def part (xs : List α) (i : ℕ) : List α := xs.filter fun x => own x = i

@[simp] theorem part_nil (i : ℕ) : part own [] i = [] := rfl

variable {own}

@[simp] theorem mem_part {xs : List α} {i : ℕ} {x : α} :
    x ∈ part own xs i ↔ x ∈ xs ∧ own x = i := by
  simp [part]

/-- The classes below `n`, one after the other, rearrange the elements whose
class is below `n`. -/
theorem parts_perm_filter (xs : List α) (n : ℕ) :
    ((List.range n).flatMap (part own xs)).Perm (xs.filter fun x => own x < n) := by
  induction n with
  | zero => simp
  | succ n ih =>
    have hlt : part own xs n = (xs.filter fun x => own x < n + 1).filter fun x => !(own x < n) := by
      rw [part, List.filter_filter]
      refine List.filter_congr fun x _ => ?_
      rw [Bool.eq_iff_iff]
      simp
      omega
    have hge : (xs.filter fun x => own x < n) =
        (xs.filter fun x => own x < n + 1).filter fun x => own x < n := by
      rw [List.filter_filter]
      refine List.filter_congr fun x _ => ?_
      rw [Bool.eq_iff_iff]
      simp
      omega
    simp only [List.range_succ, List.flatMap_append, List.flatMap_singleton]
    refine (ih.append_right _).trans ?_
    rw [hge, hlt]
    exact List.filter_append_perm _ _

/-- The classes of a list make up the list: no element is in two of them, and none is left out
if all classes are below the bound. -/
theorem parts_perm {xs : List α} {n : ℕ} (h : ∀ x ∈ xs, own x < n) :
    ((List.range n).flatMap (part own xs)).Perm xs := by
  have hall : (xs.filter fun x => own x < n) = xs := by simpa using h
  have hperm := @parts_perm_filter _ own xs n
  rwa [hall] at hperm

/-- What is produced from the elements class by class is what is produced from
the list, rearranged. -/
theorem flatMap_parts_perm {xs : List α} {n : ℕ} (h : ∀ x ∈ xs, own x < n) (f : α → List β) :
    ((List.range n).flatMap fun i => (part own xs i).flatMap f).Perm (xs.flatMap f) := by
  rw [← List.flatMap_assoc]
  exact (parts_perm h).flatMap_right f

/-- Lists that are nowhere longer are no longer in total. -/
theorem length_flatMap_le {f g : α → List β} {xs : List α}
    (h : ∀ x ∈ xs, (f x).length ≤ (g x).length) :
    (xs.flatMap f).length ≤ (xs.flatMap g).length := by
  induction xs with
  | nil => exact Nat.le_refl _
  | cons x xs ih =>
    have hx := h x List.mem_cons_self
    have hxs := ih fun y hy => h y (List.mem_cons_of_mem _ hy)
    simp only [List.flatMap_cons, List.length_append]
    omega

/-- Lists that are nowhere longer and somewhere shorter are shorter in total. -/
theorem length_flatMap_lt {f g : α → List β} {xs : List α}
    (h : ∀ x ∈ xs, (f x).length ≤ (g x).length) {x : α} (hx : x ∈ xs)
    (hlt : (f x).length < (g x).length) :
    (xs.flatMap f).length < (xs.flatMap g).length := by
  obtain ⟨before, behind, rfl⟩ := List.append_of_mem hx
  have hbefore := @length_flatMap_le _ _ f g before fun y hy => h y (by simp [hy])
  have hbehind := @length_flatMap_le _ _ f g behind fun y hy => h y (by simp [hy])
  simp only [List.flatMap_append, List.flatMap_cons, List.length_append]
  omega

end ListPartition
