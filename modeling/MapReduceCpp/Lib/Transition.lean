import Mathlib.Data.Nat.Notation

/-!
# MapReduceCpp.Lib.Transition

Runs of a labelled transition system given by a partial step function.

`Reaches step ok s s'` says that some run leads from `s` to `s'` all of whose steps
meet `ok`, a condition on the state before the step and on its label. Restricting
the steps is how a fault model enters: a run without crashes is a run whose labels
are no crashes. `Reaches.invariant` is the induction rule for safety properties and
`run` executes a list of labels, so that a particular run can be exhibited.
-/

namespace Transition

variable {σ ℓ : Type} {step : σ → ℓ → Option σ} {ok ok' : σ → ℓ → Prop} {s s' s'' : σ} {l : ℓ}

/-- Some run whose steps all meet `ok` leads from a state to another. The condition is on the
state before the step and on its label, so that a fault model is a choice of `ok`. -/
inductive Reaches (step : σ → ℓ → Option σ) (ok : σ → ℓ → Prop) (s : σ) : σ → Prop
  /-- The empty run. -/
  | refl : Reaches step ok s s
  /-- One more step at the end. -/
  | tail {s' s'' : σ} {l : ℓ} : Reaches step ok s s' → ok s' l → step s' l = some s'' →
      Reaches step ok s s''

namespace Reaches

theorem single (hok : ok s l) (h : step s l = some s') : Reaches step ok s s' := .tail .refl hok h

theorem trans (h : Reaches step ok s s') (h' : Reaches step ok s' s'') :
    Reaches step ok s s'' := by
  induction h' with
  | refl => exact h
  | tail _ hok hstep ih => exact .tail ih hok hstep

theorem head (hok : ok s l) (h : step s l = some s') (h' : Reaches step ok s' s'') :
    Reaches step ok s s'' := (single hok h).trans h'

theorem mono (himp : ∀ s l, ok s l → ok' s l) (h : Reaches step ok s s') :
    Reaches step ok' s s' := by
  induction h with
  | refl => exact .refl
  | tail _ hok hstep ih => exact .tail ih (himp _ _ hok) hstep

theorem any (h : Reaches step ok s s') : Reaches step (fun _ _ => True) s s' :=
  h.mono fun _ _ _ => trivial

/-- A property that every allowed step preserves holds along every run. This is the rule behind
every safety result: one lemma about a step gives one about all runs. -/
theorem invariant {P : σ → Prop}
    (hstep : ∀ s l s', P s → ok s l → step s l = some s' → P s')
    (h : Reaches step ok s s') (hs : P s) : P s' := by
  induction h with
  | refl => exact hs
  | tail _ hok hnext ih => exact hstep _ _ _ ih hok hnext

/-- The invariant rule over a property already known to hold along the run. Invariants are
proved in layers with it, each using those below. -/
theorem invariant_of {I P : σ → Prop} (hI : ∀ s', Reaches step ok s s' → I s')
    (hstep : ∀ s l s', I s → P s → ok s l → step s l = some s' → P s')
    (h : Reaches step ok s s') (hs : P s) : P s' := by
  induction h with
  | refl => exact hs
  | tail hrun hok hnext ih => exact hstep _ _ _ (hI _ hrun) ih hok hnext

/-- A run meets every condition that its steps meet in the states it reaches. So a condition
that an invariant implies need not be assumed of the run. -/
theorem strengthen (himp : ∀ s' l, Reaches step ok s s' → ok s' l → ok' s' l)
    (h : Reaches step ok s s') : Reaches step ok' s s' := by
  induction h with
  | refl => exact .refl
  | tail hrun hok hstep ih => exact .tail ih (himp _ _ hrun hok) hstep

/-- A loop: what each pass takes from one stage to the next, all passes take to the last. `I i`
says what is true before pass `i`. -/
theorem iterate {I : ℕ → σ → Prop} {n : ℕ}
    (hpass : ∀ i < n, ∀ s, I i s → ∃ s', Reaches step ok s s' ∧ I (i + 1) s') (hs : I 0 s) :
    ∃ s', Reaches step ok s s' ∧ I n s' := by
  induction n with
  | zero => exact ⟨s, .refl, hs⟩
  | succ n ih =>
    obtain ⟨t, ht, hI⟩ := ih fun i hi => hpass i (Nat.lt_succ_of_lt hi)
    obtain ⟨s', hs', hI'⟩ := hpass n (Nat.lt_succ_self n) t hI
    exact ⟨s', ht.trans hs', hI'⟩

end Reaches

/-- Perform the steps of a list of labels; `none` if one of them is not enabled. Particular runs
are given as such lists and evaluated. -/
def run (step : σ → ℓ → Option σ) : List ℓ → σ → Option σ
  | [], s => some s
  | l :: ls, s => (step s l).bind (run step ls)

/-- A list of labels that are allowed in every state is an allowed run. -/
theorem reaches_of_labels {ls : List ℓ} (hok : ∀ l ∈ ls, ∀ s, ok s l)
    (h : run step ls s = some s') : Reaches step ok s s' := by
  induction ls generalizing s with
  | nil =>
    obtain rfl := Option.some.inj h
    exact .refl
  | cons l ls ih =>
    obtain ⟨t, ht, hrest⟩ := Option.bind_eq_some_iff.mp h
    exact .head (hok l List.mem_cons_self s) ht
      (ih (fun l' h' => hok l' (List.mem_cons_of_mem _ h')) hrest)

theorem reaches_of_run {ls : List ℓ} (h : run step ls s = some s') :
    Reaches step (fun _ _ => True) s s' := reaches_of_labels (fun _ _ _ => True.intro) h

/-- A step that is taken only when it passes a test. -/
def guarded (test : σ → ℓ → Bool) (step : σ → ℓ → Option σ) (s : σ) (l : ℓ) : Option σ :=
  if test s l then step s l else none

/-- A run that passes a test at each step meets what the test stands for. The test is what can
be evaluated of a condition that speaks of all processes, say. -/
theorem reaches_of_tested {test : σ → ℓ → Bool} {ls : List ℓ}
    (hok : ∀ s l, test s l = true → ok s l) (h : run (guarded test step) ls s = some s') :
    Reaches step ok s s' := by
  induction ls generalizing s with
  | nil =>
    obtain rfl := Option.some.inj h
    exact .refl
  | cons l ls ih =>
    obtain ⟨t, ht, hrest⟩ := Option.bind_eq_some_iff.mp h
    unfold guarded at ht
    split at ht
    · exact .head (hok s l ‹_›) ht (ih hrest)
    · cases ht

end Transition
