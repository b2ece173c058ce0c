import MapReduceCpp.Lib.FileProg
import MapReduceCpp.Lib.Transition
import Mathlib.Data.List.Basic

/-!
# MapReduceCpp.Lib.Interleave

Several programs over one store, one operation at a time.

`interleave` is the transition system whose states are the programs' remaining
parts and the store, and whose labels say whose turn it is. Programs are
`Independent` when none of them writes a path that another one reads or writes.
Independent programs do not notice one another: at any moment, finishing the
remainder of one of them alone gives the result, and leaves the files of its
footprint, that running it alone from the start would have given (`Tracks`). So
all complete interleavings end alike (`Tracks.unique`), and since the sequential
run is one of them (`reaches_runAll`), they end like the sequential run
(`interleaving_eq_runAll`).
-/

open Transition (Reaches)

namespace FileProg

variable {π γ α : Type} [DecidableEq π]

/-- Let the program at an index perform its next operation. The index is the label, so a
schedule is a list of indices. -/
def interleave (acc : Access π) (s : List (FileProg π γ α) × Store π γ) (i : ℕ) :
    Option (List (FileProg π γ α) × Store π γ) :=
  s.1[i]?.bind fun q => (q.step acc s.2).map fun next => (s.1.set i next.1, next.2)

/-- The interleavings of programs that start on a store. -/
abbrev Interleaves (acc : Access π) (s s' : List (FileProg π γ α) × Store π γ) : Prop :=
  Reaches (interleave acc) (fun _ _ => True) s s'

/-- All programs have returned. -/
def Complete (qs : List (FileProg π γ α)) : Prop := ∀ q ∈ qs, ∃ a, q = done a

/-- A test of `Complete`. -/
def completeTest (qs : List (FileProg π γ α)) : Bool :=
  qs.all fun
    | .done _ => true
    | _ => false

omit [DecidableEq π] in
theorem complete_of_test {qs : List (FileProg π γ α)} (h : completeTest qs = true) :
    Complete qs := by
  intro q hq
  have hdone := List.all_eq_true.mp h q hq
  split at hdone
  · exact ⟨_, rfl⟩
  · cases hdone

variable {acc : Access π} {qs qs' : List (FileProg π γ α)} {d d' : Store π γ}

theorem interleave_inv {s s' : List (FileProg π γ α) × Store π γ} {i : ℕ}
    (h : interleave acc s i = some s') :
    ∃ q q', s.1[i]? = some q ∧ q.step acc s.2 = some (q', s'.2) ∧ s'.1 = s.1.set i q' := by
  obtain ⟨q, hq, h⟩ := Option.bind_eq_some_iff.mp h
  obtain ⟨next, hnext, rfl⟩ := Option.map_eq_some_iff.mp h
  exact ⟨q, next.1, hq, hnext, rfl⟩

/-! ### The sequential run as an interleaving

Nothing is assumed of the programs here: to run them one after the other is one of the ways to
take turns. -/

theorem Interleaves.cons (q : FileProg π γ α) (h : Interleaves acc (qs, d) (qs', d')) :
    Interleaves acc (q :: qs, d) (q :: qs', d') := by
  suffices key : ∀ s', Interleaves acc (qs, d) s' → Interleaves acc (q :: qs, d) (q :: s'.1, s'.2)
    from key _ h
  intro s' h
  induction h with
  | refl => exact .refl
  | @tail s s' i _ _ hstep ih =>
    refine ih.tail (l := i + 1) True.intro ?_
    obtain ⟨r, r', hr, hnext, hset⟩ := interleave_inv hstep
    simp [interleave, hr, hnext, hset]

/-- The first program can run to its end while the others wait. -/
theorem interleaves_run (q : FileProg π γ α) (qs : List (FileProg π γ α)) (d : Store π γ) :
    Interleaves acc (q :: qs, d) (done (q.run acc d).1 :: qs, (q.run acc d).2) := by
  induction q generalizing d with
  | done a => exact .refl
  | read p k ih => exact .head (l := 0) True.intro rfl (ih _ d)
  | create p k ih =>
    rw [run]
    by_cases hp : acc.canWrite p = true
    · rw [if_pos hp]
      refine .head (l := 0) True.intro ?_ (ih true _)
      simp [interleave, step, hp]
    · rw [if_neg hp]
      refine .head (l := 0) True.intro ?_ (ih false d)
      simp [interleave, step, hp]
  | append p xs k ih => exact .head (l := 0) True.intro rfl (ih _)
  | close p k ih => exact .head (l := 0) True.intro rfl (ih d)

/-- Running the programs one after the other is one of their interleavings. -/
theorem reaches_runAll (acc : Access π) (qs : List (FileProg π γ α)) (d : Store π γ) :
    Interleaves acc (qs, d) ((runAll acc qs d).1.map done, (runAll acc qs d).2) := by
  induction qs generalizing d with
  | nil => exact .refl
  | cons q qs ih => exact (interleaves_run q qs d).trans ((ih _).cons _)

omit [DecidableEq π] in
theorem complete_map_done (as : List α) : Complete (as.map (done : α → FileProg π γ α)) := by
  intro q hq
  obtain ⟨a, -, rfl⟩ := List.mem_map.mp hq
  exact ⟨a, rfl⟩

/-! ### Independence

The diamond argument, without a diamond. Swapping neighbouring operations of two programs would
do as well, but an invariant is shorter: what is left of a program does in the present store
what the whole program would have done in the first one, as far as its own files go. -/

/-- Each program keeps to its own footprint, and none writes into another's. -/
structure Independent (qs : List (FileProg π γ α)) (R W : ℕ → Set π) : Prop where
  within : ∀ (i : ℕ) (q : FileProg π γ α), qs[i]? = some q → q.Within (R i) (W i)
  apart : ∀ i < qs.length, ∀ j < qs.length, i ≠ j → ∀ p ∈ W j, p ∉ R i ∧ p ∉ W i

variable {R W : ℕ → Set π}

/-- What remains of each program does what the whole program would have done alone: it comes to
the same result, and leaves the same in the files of its footprint. No other file has changed. -/
structure Tracks (acc : Access π) (R W : ℕ → Set π) (qs : List (FileProg π γ α))
    (d : Store π γ) (s : List (FileProg π γ α) × Store π γ) : Prop where
  length : s.1.length = qs.length
  within : ∀ (i : ℕ) (q : FileProg π γ α), s.1[i]? = some q → q.Within (R i) (W i)
  result : ∀ (i : ℕ) (q q₀ : FileProg π γ α), s.1[i]? = some q → qs[i]? = some q₀ →
    (q.run acc s.2).1 = (q₀.run acc d).1
  store : ∀ (i : ℕ) (q q₀ : FileProg π γ α), s.1[i]? = some q → qs[i]? = some q₀ →
    ∀ p, p ∈ R i ∨ p ∈ W i →
    (q.run acc s.2).2 p = (q₀.run acc d).2 p
  frame : ∀ p, (∀ i < qs.length, p ∉ W i) → s.2 p = d p

omit [DecidableEq π] in
theorem lt_of_getElem? {i : ℕ} {q : FileProg π γ α} (h : qs[i]? = some q) : i < qs.length :=
  (List.getElem?_eq_some_iff.mp h).1

/-- An operation of one program is part of its own run and unseen by the others. -/
theorem Tracks.step (hind : Independent qs R W) {s s' : List (FileProg π γ α) × Store π γ} {i : ℕ}
    (h : Tracks acc R W qs d s) (hstep : interleave acc s i = some s') :
    Tracks acc R W qs d s' := by
  obtain ⟨qs₁, d₁⟩ := s
  obtain ⟨qs₂, d₂⟩ := s'
  obtain ⟨q, q', hq, hnext, hset⟩ := interleave_inv hstep
  dsimp only at hq hnext hset
  subst hset
  have hi : i < qs₁.length := lt_of_getElem? hq
  obtain ⟨hwithin, houtside⟩ := (h.within i q hq).step hnext
  have hself : (qs₁.set i q')[i]? = some q' := by simp [hi]
  have hother : ∀ j : ℕ, j ≠ i → (qs₁.set i q')[j]? = qs₁[j]? := fun j hj => by
    rw [List.getElem?_set_ne hj.symm]
  -- the store a waiting program sees has not changed in its footprint
  have hcalm : ∀ (j : ℕ) (r : FileProg π γ α), j ≠ i → qs₁[j]? = some r →
      (r.run acc d₂).1 = (r.run acc d₁).1 ∧
        ∀ p, p ∈ R j ∨ p ∈ W j → (r.run acc d₂).2 p = (r.run acc d₁).2 p := by
    intro j r hj hr
    refine run_congr (h.within j r hr) fun p hp => houtside p fun hpi => ?_
    have hjlen : j < qs.length := h.length ▸ lt_of_getElem? hr
    obtain ⟨hR, hW⟩ := hind.apart j hjlen i (h.length ▸ hi) hj p hpi
    exact hp.elim hR hW
  -- Each clause is about a program `j`: the one that has moved, or one that waits.
  refine ⟨by simpa using h.length, fun j r hr => ?_, fun j r r₀ hr hr₀ => ?_,
    fun j r r₀ hr hr₀ p hp => ?_, fun p hp => ?_⟩
  · by_cases hj : j = i
    · subst hj
      obtain rfl := Option.some.inj (hself.symm.trans hr)
      exact hwithin
    · rw [hother j hj] at hr
      exact h.within j r hr
  · by_cases hj : j = i
    · subst hj
      obtain rfl := Option.some.inj (hself.symm.trans hr)
      rw [run_of_step hnext]
      exact h.result j q r₀ hq hr₀
    · rw [hother j hj] at hr
      rw [(hcalm j r hj hr).1]
      exact h.result j r r₀ hr hr₀
  · by_cases hj : j = i
    · subst hj
      obtain rfl := Option.some.inj (hself.symm.trans hr)
      rw [run_of_step hnext]
      exact h.store j q r₀ hq hr₀ p hp
    · rw [hother j hj] at hr
      rw [(hcalm j r hj hr).2 p hp]
      exact h.store j r r₀ hr hr₀ p hp
  · exact (houtside p (hp i (h.length ▸ hi))).trans (h.frame p hp)

theorem tracks_of_interleaves (hind : Independent qs R W)
    {s : List (FileProg π γ α) × Store π γ} (h : Interleaves acc (qs, d) s) :
    Tracks acc R W qs d s := by
  refine h.invariant (P := Tracks acc R W qs d)
    (fun s i s' hs _ hstep => hs.step hind hstep) ?_
  refine ⟨rfl, hind.within, fun i q q₀ hq hq₀ => ?_, fun i q q₀ hq hq₀ p _ => ?_,
    fun _ _ => rfl⟩
  · obtain rfl := Option.some.inj (hq.symm.trans hq₀)
    rfl
  · obtain rfl := Option.some.inj (hq.symm.trans hq₀)
    rfl

/-- Two complete interleavings of the same programs end alike, since each program has come to
the result, and left the files, of its run alone. -/
theorem Tracks.unique {s t : List (FileProg π γ α) × Store π γ} (hs : Tracks acc R W qs d s)
    (ht : Tracks acc R W qs d t) (hsc : Complete s.1) (htc : Complete t.1) : s = t := by
  have hget : ∀ i < qs.length, ∃ a b, s.1[i]? = some (done a) ∧ t.1[i]? = some (done b) := by
    intro i hi
    have his : i < s.1.length := hs.length ▸ hi
    have hit : i < t.1.length := ht.length ▸ hi
    obtain ⟨a, ha⟩ := hsc _ (List.getElem_mem his)
    obtain ⟨b, hb⟩ := htc _ (List.getElem_mem hit)
    exact ⟨a, b, by rw [List.getElem?_eq_getElem his, ha],
      by rw [List.getElem?_eq_getElem hit, hb]⟩
  have hprogs : s.1 = t.1 := by
    refine List.ext_getElem? fun i => ?_
    by_cases hi : i < qs.length
    · obtain ⟨a, b, ha, hb⟩ := hget i hi
      have hq : qs[i]? = some qs[i] := List.getElem?_eq_getElem hi
      have hab : a = b := (hs.result i _ _ ha hq).trans (ht.result i _ _ hb hq).symm
      rw [ha, hb, hab]
    · rw [List.getElem?_eq_none (by rw [hs.length]; omega),
        List.getElem?_eq_none (by rw [ht.length]; omega)]
  -- A file is either what its only writer leaves in it, or what it was.
  have hstore : s.2 = t.2 := by
    funext p
    by_cases hp : ∃ i < qs.length, p ∈ W i
    · obtain ⟨i, hi, hpi⟩ := hp
      obtain ⟨a, b, ha, hb⟩ := hget i hi
      have hq : qs[i]? = some qs[i] := List.getElem?_eq_getElem hi
      exact (hs.store i _ _ ha hq p (.inr hpi)).trans (ht.store i _ _ hb hq p (.inr hpi)).symm
    · have hout : ∀ i < qs.length, p ∉ W i := fun i hi hpi => hp ⟨i, hi, hpi⟩
      rw [hs.frame p hout, ht.frame p hout]
  exact Prod.ext hprogs hstore

/-- Every complete interleaving of independent programs ends like their sequential
run: with the same results and the same store. -/
theorem interleaving_eq_runAll (hind : Independent qs R W)
    (h : Interleaves acc (qs, d) (qs', d')) (hc : Complete qs') :
    qs' = (runAll acc qs d).1.map done ∧ d' = (runAll acc qs d).2 :=
  Prod.mk.inj ((tracks_of_interleaves hind h).unique
    (tracks_of_interleaves hind (reaches_runAll acc qs d)) hc (complete_map_done _))

end FileProg
