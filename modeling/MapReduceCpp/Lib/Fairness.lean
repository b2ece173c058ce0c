import MapReduceCpp.Lib.Transition
import Mathlib.Order.WellFounded

/-!
# MapReduceCpp.Lib.Fairness

Infinite runs of a labelled transition system, weak fairness and the rule of helpful
activities.

A `Run` has a state at every time and performs at most one step between two times; a
time without a label is idle, so that a system with nothing left to do has runs as well
(`exists_run_of_terminal`). Fairness is relative to a family of activities, each a set of
labels that may depend on the state: an activity that can be performed at all times from
some time on is performed at some later time (`Run.Fair`).

`Ranking` is the certificate for "a goal is reached": as long as it is not, some activity
is helpful, which means that it can be performed, that performing it lowers the rank, and
that no other step raises the rank, or takes the help away without lowering it. From it
follow that every fair run gets to the goal (`Ranking.eventually`) and that from every
state some run does (`Ranking.exists_reaches`).
-/

namespace Transition

variable {σ ℓ α β : Type} {step : σ → ℓ → Option σ} {ok ok' : σ → ℓ → Prop} {s s' : σ}

/-- An infinite run whose steps all meet `ok`. At a time without a label nothing happens. -/
structure Run (step : σ → ℓ → Option σ) (ok : σ → ℓ → Prop) (s : σ) where
  state : ℕ → σ
  label : ℕ → Option ℓ
  start : state 0 = s
  idle : ∀ n, label n = none → state (n + 1) = state n
  next : ∀ n l, label n = some l → ok (state n) l ∧ step (state n) l = some (state (n + 1))

/-- Some step that `ok` allows belongs to the activity and can be taken. -/
def Enabled (step : σ → ℓ → Option σ) (ok : σ → ℓ → Prop) (act : σ → ℓ → Prop) (s : σ) : Prop :=
  ∃ l s', act s l ∧ ok s l ∧ step s l = some s'

namespace Run

variable {r : Run step ok s}

/-- The activity is performed at a time. -/
def Performs (r : Run step ok s) (act : σ → ℓ → Prop) (n : ℕ) : Prop :=
  ∃ l, r.label n = some l ∧ act (r.state n) l

/-- Weak fairness: no activity stays possible forever without being performed. An activity that
keeps being interrupted need not be performed. -/
def Fair (r : Run step ok s) (acts : α → σ → ℓ → Prop) : Prop :=
  ∀ a n, (∀ m ≥ n, Enabled step ok (acts a) (r.state m)) → ∃ m ≥ n, r.Performs (acts a) m

theorem reaches (r : Run step ok s) (n : ℕ) : Reaches step ok s (r.state n) := by
  induction n with
  | zero =>
    rw [r.start]
    exact .refl
  | succ n ih =>
    cases hl : r.label n with
    | none =>
      rw [r.idle n hl]
      exact ih
    | some l =>
      obtain ⟨hok, hstep⟩ := r.next n l hl
      exact .tail ih hok hstep

end Run

/-! ### Helpful activities

A goal is reached in every fair run if at all times before it there is somebody whose turn would
bring it closer, and nobody else's turn makes it recede. What "closer" means is a rank, which
may be of any type in which nothing descends for ever; which activity helps may change whenever
the rank falls. -/

/-- A measure of how far the goal is, and the activities that bring it closer. The steps that
are considered meet `ok'`, and help is something that `ok` allows: the two differ where steps
may happen on the way that nobody can be relied on to take. -/
structure Ranking [Preorder β] (step : σ → ℓ → Option σ) (ok ok' : σ → ℓ → Prop)
    (acts : α → σ → ℓ → Prop) (I goal : σ → Prop) (rank : σ → β) (helpful : α → σ → Prop) :
    Prop where
  exists_helpful : ∀ s, I s → ¬ goal s → ∃ a, helpful a s
  /-- Who helps can be performed, by a step that is allowed. -/
  enabled : ∀ a s, I s → helpful a s → Enabled step ok (acts a) s
  /-- A step lowers the rank, or leaves it and who helps as they are; only a step of the helpful
  activity itself has to lower it. -/
  progress : ∀ a s l s', I s → helpful a s → ok' s l → step s l = some s' →
    goal s' ∨ rank s' < rank s ∨ rank s' = rank s ∧ helpful a s' ∧ ¬ acts a s l

namespace Ranking

variable [Preorder β] {acts : α → σ → ℓ → Prop} {I goal : σ → Prop} {rank : σ → β}
  {helpful : α → σ → Prop}

/-- Help that is allowed stays so when more is. -/
theorem relax {ok'' : σ → ℓ → Prop} (h : Ranking step ok ok' acts I goal rank helpful)
    (himp : ∀ s l, ok s l → ok'' s l) : Ranking step ok'' ok' acts I goal rank helpful where
  exists_helpful := h.exists_helpful
  enabled := by
    intro a s hs ha
    obtain ⟨l, t, hact, hok, hstep⟩ := h.enabled a s hs ha
    exact ⟨l, t, hact, himp s l hok, hstep⟩
  progress := h.progress

/-- While nothing lowers the rank, an activity stays helpful and is not performed. With fairness
that cannot go on, which is the contradiction in `eventually`. -/
theorem stays (h : Ranking step ok ok' acts I goal rank helpful) {r : Run step ok s} {n : ℕ}
    (hI : ∀ m ≥ n, I (r.state m)) (hok : ∀ m ≥ n, ∀ l, r.label m = some l → ok' (r.state m) l)
    {a : α} (ha : helpful a (r.state n)) (hgoal : ∀ m ≥ n, ¬ goal (r.state m))
    (hrank : ∀ m ≥ n, ¬ rank (r.state m) < rank (r.state n)) (m : ℕ) (hm : n ≤ m) :
    rank (r.state m) = rank (r.state n) ∧ helpful a (r.state m) ∧ ¬ r.Performs (acts a) m := by
  -- One time later the activity still helps, and this time it has not been performed.
  have hstep : ∀ m ≥ n, rank (r.state m) = rank (r.state n) → helpful a (r.state m) →
      rank (r.state (m + 1)) = rank (r.state n) ∧ helpful a (r.state (m + 1)) ∧
        ¬ r.Performs (acts a) m := by
    intro m hm hr hh
    cases hl : r.label m with
    | none =>
      rw [r.idle m hl]
      refine ⟨hr, hh, fun hp => ?_⟩
      obtain ⟨l, hl', -⟩ := hp
      rw [hl] at hl'
      cases hl'
    -- A step that does not get to the goal or lower the rank leaves the help as it is.
    | some l =>
      obtain ⟨-, hnext⟩ := r.next m l hl
      rcases h.progress a _ l _ (hI m hm) hh (hok m hm l hl) hnext with hg | hlt | ⟨heq, hh', hna⟩
      · exact absurd hg (hgoal (m + 1) (Nat.le_succ_of_le hm))
      · exact absurd (hr ▸ hlt) (hrank (m + 1) (Nat.le_succ_of_le hm))
      · refine ⟨heq.trans hr, hh', fun hp => hna ?_⟩
        obtain ⟨l', hl', hact⟩ := hp
        rw [hl] at hl'
        obtain rfl := Option.some.inj hl'
        exact hact
  have hkeep : rank (r.state m) = rank (r.state n) ∧ helpful a (r.state m) := by
    induction m, hm using Nat.le_induction with
    | base => exact ⟨rfl, ha⟩
    | succ m hm ih =>
      obtain ⟨hr, hh, -⟩ := hstep m hm ih.1 ih.2
      exact ⟨hr, hh⟩
  exact ⟨hkeep.1, hkeep.2, (hstep m hm hkeep.1 hkeep.2).2.2⟩

variable [WellFoundedLT β]

/-- **Every fair run gets to the goal.** By descent on the rank: as long as it does not fall one
activity helps at all times, so fairness performs it, and it falls. -/
theorem eventually (h : Ranking step ok ok' acts I goal rank helpful) {r : Run step ok s}
    (hfair : r.Fair acts) {n : ℕ} (hI : ∀ m ≥ n, I (r.state m))
    (hok : ∀ m ≥ n, ∀ l, r.label m = some l → ok' (r.state m) l) :
    ∃ m ≥ n, goal (r.state m) := by
  induction hb : rank (r.state n) using WellFoundedLT.induction generalizing n with
  | ind b ih =>
    subst hb
    by_contra hno
    push Not at hno
    obtain ⟨a, ha⟩ := h.exists_helpful _ (hI n le_rfl) (hno n le_rfl)
    have hrank : ∀ m ≥ n, ¬ rank (r.state m) < rank (r.state n) := by
      intro m hm hlt
      obtain ⟨k, hk, hgoal⟩ := ih _ hlt (fun k hk => hI k (hm.trans hk))
        (fun k hk => hok k (hm.trans hk)) rfl
      exact hno k (hm.trans hk) hgoal
    have hstays := h.stays hI hok ha hno hrank
    obtain ⟨m, hm, hperf⟩ := hfair a n fun m hm => h.enabled a _ (hI m hm) (hstays m hm).2.1
    exact (hstays m hm).2.2 hperf

/-- **The goal can be reached from every state**, if what helps is among the steps that are
considered: no fairness is needed to take a helpful step oneself. -/
theorem exists_reaches (h : Ranking step ok ok acts I goal rank helpful)
    (hI : ∀ s', Reaches step ok s s' → I s') : ∃ s', Reaches step ok s s' ∧ goal s' := by
  induction hb : rank s using WellFoundedLT.induction generalizing s with
  | ind b ih =>
    subst hb
    by_cases hg : goal s
    · exact ⟨s, .refl, hg⟩
    · obtain ⟨a, ha⟩ := h.exists_helpful s (hI s .refl) hg
      obtain ⟨l, t, hact, hok, hstep⟩ := h.enabled a s (hI s .refl) ha
      rcases h.progress a s l t (hI s .refl) ha hok hstep with hg' | hlt | ⟨-, -, hna⟩
      · exact ⟨t, .single hok hstep, hg'⟩
      · obtain ⟨s', hreach, hg'⟩ := ih _ hlt (fun s' hs' => hI s' (.head hok hstep hs')) rfl
        exact ⟨s', .head hok hstep hreach, hg'⟩
      · exact absurd hact hna

end Ranking

/-! ### Runs that come to rest

A finite run is the beginning of an infinite one that idles from its end on. It is fair if at
its end no activity can be performed any more, which is how the results above are applied to
runs that are written out. -/

/-- A finite run into a state in which no activity can be performed is a fair infinite run. -/
theorem exists_run_of_rest {acts : α → σ → ℓ → Prop} {test : σ → ℓ → Bool} {ls : List ℓ}
    (hok : ∀ s l, test s l = true → ok s l) (h : run (guarded test step) ls s = some s')
    (hend : ∀ a, ¬ Enabled step ok (acts a) s') :
    ∃ r : Run step ok s, r.Fair acts ∧ (∀ n, r.label n = ls[n]?) ∧
      ∀ n ≥ ls.length, r.state n = s' := by
  -- Fairness is only a matter of the end; the run itself is built from the labels.
  suffices key : ∃ r : Run step ok s, (∀ n, r.label n = ls[n]?) ∧
      ∀ n ≥ ls.length, r.state n = s' by
    obtain ⟨r, hlabel, hrest⟩ := key
    refine ⟨r, fun a n hen => ?_, hlabel, hrest⟩
    exact absurd (hrest _ (le_max_right _ _) ▸ hen (max n ls.length) (le_max_left _ _)) (hend a)
  clear hend
  induction ls generalizing s with
  | nil =>
    obtain rfl := Option.some.inj h
    exact ⟨⟨fun _ => s, fun _ => none, rfl, fun _ _ => rfl, fun _ _ hl => by cases hl⟩,
      fun _ => rfl, fun _ _ => rfl⟩
  | cons l ls ih =>
    obtain ⟨t, ht, hrest⟩ := Option.bind_eq_some_iff.mp h
    obtain ⟨r, hlabel, hend⟩ := ih hrest
    unfold guarded at ht
    split at ht
    -- The first label in front of the run that the rest of the list makes.
    · refine ⟨⟨fun n => n.casesOn s r.state, fun n => n.casesOn (some l) r.label, rfl,
        fun n hn => ?_, fun n l' hl' => ?_⟩, fun n => ?_, fun n hn => ?_⟩
      · cases n with
        | zero => cases hn
        | succ n => exact r.idle n hn
      · cases n with
        | zero =>
          obtain rfl := Option.some.inj hl'
          exact ⟨hok s l ‹_›, ht.trans (congrArg some r.start.symm)⟩
        | succ n => exact r.next n l' hl'
      · cases n with
        | zero => rfl
        | succ n => exact hlabel n
      · obtain ⟨k, rfl⟩ := Nat.exists_eq_add_of_le' (Nat.one_le_of_lt (Nat.lt_of_succ_le hn))
        exact hend k (Nat.le_of_succ_le_succ hn)
    · cases ht

/-- So is one into a state in which nothing can happen. -/
theorem exists_run_of_terminal {acts : α → σ → ℓ → Prop} {test : σ → ℓ → Bool} {ls : List ℓ}
    (hok : ∀ s l, test s l = true → ok s l) (h : run (guarded test step) ls s = some s')
    (hend : ∀ l, step s' l = none) :
    ∃ r : Run step ok s, r.Fair acts ∧ (∀ n, r.label n = ls[n]?) ∧
      ∀ n ≥ ls.length, r.state n = s' := by
  refine exists_run_of_rest hok h fun a hen => ?_
  obtain ⟨l, t, -, -, hstep⟩ := hen
  rw [hend] at hstep
  cases hstep

end Transition
