import MapReduceCpp.Lib.FileProg

/-!
# MapReduceCpp.Lib.Restart

Programs that can be started again after having been cut short.

`cut` is the store a program leaves when it stops after some of its operations.
A program is `Guarded` when it appends only to files it has opened for writing
itself, which truncates them. Such a program, cut short anywhere, has changed no
file but those it opens, and the same program started afresh opens every one of
them again: as long as it reads nothing it writes, the complete run ends as if
nothing had happened before (`run_cut`), however often it was cut short
(`run_cuts`).

`Guarded` carries a postcondition over the result and the files opened so far, so
that the streams one part of a program returns can be used by the next.
-/

namespace FileProg

variable {π γ α β : Type}

/-- Every append goes to a path in `O` or to one opened since; `Q` holds of the result and of
the paths open at the end. Whether an open succeeds is not known, so both ways are covered, and
only the one that succeeds adds its path. -/
def Guarded (Q : α → Set π → Prop) : Set π → FileProg π γ α → Prop
  | O, done a => Q a O
  | O, read _ k => ∀ o, (k o).Guarded Q O
  | O, create p k => (k true).Guarded Q (insert p O) ∧ (k false).Guarded Q O
  | O, append p _ k => p ∈ O ∧ k.Guarded Q O
  | O, close _ k => k.Guarded Q O

theorem Guarded.imp {P Q : α → Set π → Prop} {O : Set π} {q : FileProg π γ α}
    (hq : q.Guarded P O) (himp : ∀ a O', P a O' → Q a O') : q.Guarded Q O := by
  induction q generalizing O with
  | done a => exact himp a O hq
  | read p k ih => exact fun o => ih o (hq o)
  | create p k ih => exact ⟨ih true hq.1, ih false hq.2⟩
  | append p xs k ih => exact ⟨hq.1, ih hq.2⟩
  | close p k ih => exact ih hq

theorem Guarded.bind {P : β → Set π → Prop} {Q : α → Set π → Prop} {O : Set π}
    {q : FileProg π γ β} {f : β → FileProg π γ α} (hq : q.Guarded P O)
    (hf : ∀ b O', P b O' → (f b).Guarded Q O') : (q.bind f).Guarded Q O := by
  induction q generalizing O with
  | done b => exact hf b O hq
  | read p k ih => exact fun o => ih o (hq o)
  | create p k ih => exact ⟨ih true hq.1, ih false hq.2⟩
  | append p xs k ih => exact ⟨hq.1, ih hq.2⟩
  | close p k ih => exact ih hq

variable [DecidableEq π] {acc : Access π}

/-- The run of a program on a store opens a path for writing, and succeeds in that. -/
def Opens (acc : Access π) (p : π) : FileProg π γ α → Store π γ → Prop
  | done _, _ => False
  | read p' k, d => Opens acc p (k (acc.view d p')) d
  | create p' k, d =>
      if acc.canWrite p' then p = p' ∨ Opens acc p (k true) (Function.update d p' (some []))
      else Opens acc p (k false) d
  | append p' xs k, d => Opens acc p k (Function.update d p' ((d p').map (· ++ xs)))
  | close _ k, d => Opens acc p k d

/-- The store a program leaves that stops after at most `n` operations: what a process that is
killed leaves behind. -/
def cut (acc : Access π) : ℕ → FileProg π γ α → Store π γ → Store π γ
  | 0, _, d => d
  | n + 1, q, d =>
    match q.step acc d with
    | none => d
    | some (q', d') => cut acc n q' d'

variable {R W : Set π}

/-- A program cut short has left every path outside its write footprint alone. -/
theorem cut_frame {q : FileProg π γ α} (hq : q.Within R W) (n : ℕ) (d : Store π γ) {p : π}
    (hp : p ∉ W) : q.cut acc n d p = d p := by
  induction n generalizing q d with
  | zero => rfl
  | succ n ih =>
    cases hstep : q.step acc d with
    | none => simp only [cut, hstep]
    | some next =>
      obtain ⟨hq', hout⟩ := hq.step hstep
      simp only [cut, hstep]
      rw [ih hq' next.2, hout p hp]

/-- A guarded program cut short has changed only files that its complete run opens. Which they
are does not depend on where it was cut. -/
theorem cut_eq_of_not_opens {Q : α → Set π → Prop} {q : FileProg π γ α} {O : Set π}
    (hq : q.Guarded Q O) (n : ℕ) (d : Store π γ) {p : π} (hO : p ∉ O) (hp : ¬ q.Opens acc p d) :
    q.cut acc n d p = d p := by
  induction n generalizing q O d with
  | zero => rfl
  | succ n ih =>
    cases q with
    | done a => rfl
    | read p' k => exact ih (hq _) d hO hp
    -- The open either truncates the file, and the program may append to it from now on, or
    -- fails and changes nothing.
    | create p' k =>
      simp only [Opens] at hp
      simp only [cut, step]
      by_cases hw : acc.canWrite p' = true
      · rw [if_pos hw, not_or] at hp
        simp only [hw, if_true]
        have hO' : p ∉ insert p' O := fun hmem => hmem.elim hp.1 hO
        rw [ih hq.1 _ hO' hp.2, Function.update_of_ne hp.1]
      · rw [if_neg hw] at hp
        simp only [hw, Bool.false_eq_true, if_false]
        exact ih hq.2 d hO hp
    -- A guarded program appends only to files it has opened before.
    | append p' xs k =>
      have hne : p ≠ p' := fun he => hO (he ▸ hq.1)
      refine (ih hq.2 _ hO hp).trans ?_
      rw [Function.update_of_ne hne]
    | close p' k => exact ih (q := k) hq d hO hp

/-- Two stores that differ only in files the run opens anew lead to the same end: opening
truncates them, and before that the program does not look at them. -/
theorem run_eq_of_opens {q : FileProg π γ α} (hq : q.Within R W) (hRW : ∀ p ∈ R, p ∉ W)
    {d e : Store π γ} (hR : ∀ p ∈ R, d p = e p) (h : ∀ p, ¬ q.Opens acc p d → d p = e p) :
    q.run acc d = q.run acc e := by
  -- Writing does not make a difference to what is read, since no file is both.
  have hwrite : ∀ (d e : Store π γ) (o o' : Option (List γ)), (∀ p ∈ R, d p = e p) →
      ∀ p' ∈ W, ∀ p ∈ R, Function.update d p' o p = Function.update e p' o' p := by
    intro d e o o' hR p' hp' p hp
    have hne : p ≠ p' := fun he => hRW p hp (he ▸ hp')
    rw [Function.update_of_ne hne, Function.update_of_ne hne, hR p hp]
  induction q generalizing d e with
  | done a =>
    have hde : d = e := funext fun p => h p id
    rw [hde]
  | read p k ih =>
    have hview : acc.view d p = acc.view e p := by
      rw [Access.view, Access.view, hR p hq.1]
    simp only [Opens, hview] at h
    simp only [run, hview]
    exact ih _ (hq.2 _) hR h
  | create p k ih =>
    simp only [Opens] at h
    simp only [run]
    by_cases hw : acc.canWrite p = true
    · -- From here on the stores agree on this file too: both are empty there.
      simp only [hw, if_true] at h ⊢
      refine ih true (hq.2 _) (hwrite d e _ _ hR p hq.1) fun p' hp' => ?_
      by_cases he : p' = p
      · subst he
        simp
      · rw [Function.update_of_ne he, Function.update_of_ne he]
        exact h p' fun hor => hor.elim he hp'
    · simp only [hw, Bool.false_eq_true, if_false] at h ⊢
      exact ih false (hq.2 _) hR h
  | append p xs k ih =>
    refine ih hq.2 (hwrite d e _ _ hR p hq.1) fun p' hp' => ?_
    have hp : d p' = e p' := h p' hp'
    by_cases he : p' = p
    · subst he
      simp [hp]
    · rw [Function.update_of_ne he, Function.update_of_ne he, hp]
  | close p k ih => exact ih hq.2 hR h

/-- A complete run ends the same way after the program has been cut short, at whichever
operation. -/
theorem run_cut {q : FileProg π γ α} (hq : q.Within R W) (hRW : ∀ p ∈ R, p ∉ W)
    {Q : α → Set π → Prop} (hg : q.Guarded Q ∅) (n : ℕ) (d : Store π γ) :
    q.run acc (q.cut acc n d) = q.run acc d := by
  refine (run_eq_of_opens hq hRW (fun p hp => ?_) fun p hp => ?_).symm
  · exact (cut_frame hq n d (hRW p hp)).symm
  · exact (cut_eq_of_not_opens hg n d (Set.notMem_empty p) hp).symm

/-- The store after the program has been cut short several times. -/
def cuts (acc : Access π) (q : FileProg π γ α) (ns : List ℕ) (d : Store π γ) : Store π γ :=
  ns.foldl (fun d n => q.cut acc n d) d

theorem cuts_frame {q : FileProg π γ α} (hq : q.Within R W) (ns : List ℕ) (d : Store π γ) {p : π}
    (hp : p ∉ W) : q.cuts acc ns d p = d p := by
  induction ns generalizing d with
  | nil => rfl
  | cons n ns ih => exact (ih (q.cut acc n d)).trans (cut_frame hq n d hp)

/-- It does not matter how often, and where, a program was cut short before. -/
theorem run_cuts {q : FileProg π γ α} (hq : q.Within R W) (hRW : ∀ p ∈ R, p ∉ W)
    {Q : α → Set π → Prop} (hg : q.Guarded Q ∅) (ns : List ℕ) (d : Store π γ) :
    q.run acc (q.cuts acc ns d) = q.run acc d := by
  induction ns generalizing d with
  | nil => rfl
  | cons n ns ih => exact (ih (q.cut acc n d)).trans (run_cut hq hRW hg n d)

end FileProg
