import Mathlib.Data.Set.Basic
import Mathlib.Logic.Function.Basic

/-!
# MapReduceCpp.Lib.FileProg

Programs over a store of files, as trees of file operations.

A `FileProg` reads whole files, opens files for writing with truncation, appends
to them and closes them, and finally returns a value. The same tree has two
semantics: `step` performs one operation, which is what an interleaving of
several programs needs, and `run` performs all of them, which is what a program
does when nobody interferes. `run_of_step` ties the two together: performing one
operation and then running the rest is running the whole program.

Which opens succeed is decided by an `Access` policy over paths, so that a
missing permission or an exhausted descriptor table is a parameter of the
semantics rather than a case of every program.

Two static properties carry the reasoning about interference. `Within R W` bounds
the footprint: the program reads only paths of `R` and writes only paths of `W`,
so it leaves everything else alone (`run_frame`) and depends on nothing else
(`run_congr`). `CleanUnless Q` says that a result outside `Q` is only ever
produced before the first write, so a program that ends so has left the store as
it was (`run_clean`).
-/

/-- The contents of the files that exist. Directories are not modelled: a path has a file or it
has none. -/
abbrev Store (π γ : Type) := π → Option (List γ)

/-- Which paths can be opened for reading and for writing. A directory that cannot be written
to, a file without permission and a full descriptor table differ in nothing else. -/
structure Access (π : Type) where
  canRead : π → Bool
  canWrite : π → Bool

/-- Every open that could succeed does. -/
def Access.all {π : Type} : Access π := ⟨fun _ => true, fun _ => true⟩

@[simp] theorem Access.all_canRead {π : Type} (p : π) : (Access.all.canRead p) = true := rfl
@[simp] theorem Access.all_canWrite {π : Type} (p : π) : (Access.all.canWrite p) = true := rfl

/-- What opening a path for reading shows of a store. -/
def Access.view {π γ : Type} (acc : Access π) (d : Store π γ) (p : π) : Option (List γ) :=
  if acc.canRead p then d p else none

@[simp] theorem Access.all_view {π γ : Type} (d : Store π γ) (p : π) :
    Access.all.view d p = d p := rfl

/-- A program over a store of files. What it does between two operations is in the functions
that take the result of the first to the rest, so it takes no time. -/
inductive FileProg (π γ α : Type)
  /-- Return a value. -/
  | done (a : α)
  /-- Open a file for reading and read it to its end; `none` if it cannot be opened. -/
  | read (p : π) (k : Option (List γ) → FileProg π γ α)
  /-- Open a file for writing, emptying it; the flag says whether the open succeeded. -/
  | create (p : π) (k : Bool → FileProg π γ α)
  /-- Write at the end of an open file. -/
  | append (p : π) (xs : List γ) (k : FileProg π γ α)
  /-- Close an open file. -/
  | close (p : π) (k : FileProg π γ α)

namespace FileProg

variable {π γ α β : Type}

/-- Sequential composition. -/
def bind : FileProg π γ α → (α → FileProg π γ β) → FileProg π γ β
  | done a, f => f a
  | read p k, f => read p fun o => (k o).bind f
  | create p k, f => create p fun b => (k b).bind f
  | append p xs k, f => append p xs (k.bind f)
  | close p k, f => close p (k.bind f)

instance : Monad (FileProg π γ) where
  pure := done
  bind := bind

@[simp] theorem pure_eq (a : α) : (pure a : FileProg π γ α) = done a := rfl
@[simp] theorem bind_eq (q : FileProg π γ α) (f : α → FileProg π γ β) : q >>= f = q.bind f := rfl
@[simp] theorem done_bind (a : α) (f : α → FileProg π γ β) : (done a).bind f = f a := rfl

/-- `ifstream`: read a whole file. -/
def readFile (p : π) : FileProg π γ (Option (List γ)) := read p done

/-- `ofstream`: open a file for writing. -/
def createFile (p : π) : FileProg π γ Bool := create p done

/-- Write to an open file. -/
def appendFile (p : π) (xs : List γ) : FileProg π γ Unit := append p xs (done ())

/-- Close an open file. -/
def closeFile (p : π) : FileProg π γ Unit := close p (done ())

variable [DecidableEq π]

/-- Perform the next operation of a program; `none` once it has returned. An `append` to a path
without a file is lost, as what is written to a stream that is not open. -/
def step (acc : Access π) :
    FileProg π γ α → Store π γ → Option (FileProg π γ α × Store π γ)
  | done _, _ => none
  | read p k, d => some (k (acc.view d p), d)
  | create p k, d =>
      if acc.canWrite p then some (k true, Function.update d p (some []))
      else some (k false, d)
  | append p xs k, d => some (k, Function.update d p ((d p).map (· ++ xs)))
  | close _ k, d => some (k, d)

/-- Perform all operations of a program. -/
def run (acc : Access π) : FileProg π γ α → Store π γ → α × Store π γ
  | done a, d => (a, d)
  | read p k, d => run acc (k (acc.view d p)) d
  | create p k, d =>
      if acc.canWrite p then run acc (k true) (Function.update d p (some []))
      else run acc (k false) d
  | append p xs k, d => run acc k (Function.update d p ((d p).map (· ++ xs)))
  | close _ k, d => run acc k d

/-- Run programs one after the other. -/
def runAll (acc : Access π) :
    List (FileProg π γ α) → Store π γ → List α × Store π γ
  | [], d => ([], d)
  | q :: qs, d =>
      let r := q.run acc d
      let rs := runAll acc qs r.2
      (r.1 :: rs.1, rs.2)

variable {acc : Access π} {R W : Set π} {Q : α → Prop}

@[simp] theorem run_done (a : α) (d : Store π γ) : (done a : FileProg π γ α).run acc d = (a, d) :=
  rfl

@[simp] theorem run_bind (q : FileProg π γ α) (f : α → FileProg π γ β) (d : Store π γ) :
    (q.bind f).run acc d = (f (q.run acc d).1).run acc (q.run acc d).2 := by
  induction q generalizing d with
  | done a => rfl
  | read p k ih => exact ih _ d
  | create p k ih =>
    simp only [bind, run]
    split
    · exact ih true _
    · exact ih false d
  | append p xs k ih => exact ih _
  | close p k ih => exact ih d

@[simp] theorem run_readFile (p : π) (d : Store π γ) :
    (readFile p).run acc d = (acc.view d p, d) := rfl

@[simp] theorem run_createFile (p : π) (d : Store π γ) :
    (createFile p).run acc d =
      (acc.canWrite p, if acc.canWrite p then Function.update d p (some []) else d) := by
  simp only [createFile, run]
  split <;> simp_all

@[simp] theorem run_appendFile (p : π) (xs : List γ) (d : Store π γ) :
    (appendFile p xs).run acc d = ((), Function.update d p ((d p).map (· ++ xs))) := rfl

@[simp] theorem run_closeFile (p : π) (d : Store π γ) :
    (closeFile p).run acc d = ((), d) := rfl

theorem runAll_concat (qs : List (FileProg π γ α)) (q : FileProg π γ α) (d : Store π γ) :
    (runAll acc (qs ++ [q]) d).2 = (q.run acc (runAll acc qs d).2).2 := by
  induction qs generalizing d with
  | nil => rfl
  | cons q' qs ih => exact ih (q'.run acc d).2

/-- Performing one operation and running the rest is running the program. It is how a run that
is interrupted at each operation is compared with one that is not. -/
theorem run_of_step {q q' : FileProg π γ α} {d d' : Store π γ}
    (h : q.step acc d = some (q', d')) : q'.run acc d' = q.run acc d := by
  cases q with
  | done a => simp [step] at h
  | read p k =>
    simp only [step, Option.some.injEq, Prod.mk.injEq] at h
    obtain ⟨rfl, rfl⟩ := h
    rfl
  | create p k =>
    simp only [step] at h
    simp only [run]
    split at h <;> simp_all
  | append p xs k =>
    simp only [step, Option.some.injEq, Prod.mk.injEq] at h
    obtain ⟨rfl, rfl⟩ := h
    rfl
  | close p k =>
    simp only [step, Option.some.injEq, Prod.mk.injEq] at h
    obtain ⟨rfl, rfl⟩ := h
    rfl

/-! ### Footprints

What a program may touch, whatever it reads on the way. Since the bound is on all branches of
the tree it can be read off the text of a program, and it is kept by every step. -/

/-- The program reads only paths of `R` and writes only paths of `W`. To close a file counts as
writing, so that a program has no business with another one's open files. -/
def Within (R W : Set π) : FileProg π γ α → Prop
  | done _ => True
  | read p k => p ∈ R ∧ ∀ o, (k o).Within R W
  | create p k => p ∈ W ∧ ∀ b, (k b).Within R W
  | append p _ k => p ∈ W ∧ k.Within R W
  | close p k => p ∈ W ∧ k.Within R W

omit [DecidableEq π] in
theorem Within.bind {q : FileProg π γ α} {f : α → FileProg π γ β} (hq : q.Within R W)
    (hf : ∀ a, (f a).Within R W) : (q.bind f).Within R W := by
  induction q with
  | done a => exact hf a
  | read p k ih => exact ⟨hq.1, fun o => ih o (hq.2 o)⟩
  | create p k ih => exact ⟨hq.1, fun b => ih b (hq.2 b)⟩
  | append p xs k ih => exact ⟨hq.1, ih hq.2⟩
  | close p k ih => exact ⟨hq.1, ih hq.2⟩

/-- The footprint bound is kept by every step, and what lies outside the written
paths stays as it is. -/
theorem Within.step {q q' : FileProg π γ α} {d d' : Store π γ} (hq : q.Within R W)
    (h : q.step acc d = some (q', d')) : q'.Within R W ∧ ∀ p ∉ W, d' p = d p := by
  cases q with
  | done a => simp [FileProg.step] at h
  | read p k =>
    simp only [FileProg.step, Option.some.injEq, Prod.mk.injEq] at h
    obtain ⟨rfl, rfl⟩ := h
    exact ⟨hq.2 _, fun _ _ => rfl⟩
  | create p k =>
    simp only [FileProg.step] at h
    split at h <;> simp only [Option.some.injEq, Prod.mk.injEq] at h <;> obtain ⟨rfl, rfl⟩ := h
    · exact ⟨hq.2 _, fun p' hp' => Function.update_of_ne (ne_of_mem_of_not_mem hq.1 hp').symm _ _⟩
    · exact ⟨hq.2 _, fun _ _ => rfl⟩
  | append p xs k =>
    simp only [FileProg.step, Option.some.injEq, Prod.mk.injEq] at h
    obtain ⟨rfl, rfl⟩ := h
    exact ⟨hq.2, fun p' hp' => Function.update_of_ne (ne_of_mem_of_not_mem hq.1 hp').symm _ _⟩
  | close p k =>
    simp only [FileProg.step, Option.some.injEq, Prod.mk.injEq] at h
    obtain ⟨rfl, rfl⟩ := h
    exact ⟨hq.2, fun _ _ => rfl⟩

/-- A program leaves every path outside its write footprint alone. -/
theorem run_frame {q : FileProg π γ α} (hq : q.Within R W) (d : Store π γ) {p : π}
    (hp : p ∉ W) : (q.run acc d).2 p = d p := by
  induction q generalizing d with
  | done a => rfl
  | read p' k ih => exact ih _ (hq.2 _) d
  | create p' k ih =>
    simp only [run]
    split
    · rw [ih true (hq.2 _), Function.update_of_ne (ne_of_mem_of_not_mem hq.1 hp).symm]
    · exact ih false (hq.2 _) d
  | append p' xs k ih =>
    rw [run, ih hq.2, Function.update_of_ne (ne_of_mem_of_not_mem hq.1 hp).symm]
  | close p' k ih => exact ih hq.2 d

/-- A program's result, and what it leaves in its footprint, depend only on the contents of its
footprint: two runs on stores that agree there read the same at every step. -/
theorem run_congr {q : FileProg π γ α} (hq : q.Within R W) {d d' : Store π γ}
    (h : ∀ p, p ∈ R ∨ p ∈ W → d p = d' p) :
    (q.run acc d).1 = (q.run acc d').1 ∧
      ∀ p, p ∈ R ∨ p ∈ W → (q.run acc d).2 p = (q.run acc d').2 p := by
  induction q generalizing d d' with
  | done a => exact ⟨rfl, h⟩
  | read p k ih =>
    simp only [run]
    have hview : acc.view d p = acc.view d' p := by
      rw [Access.view, Access.view, h p (.inl hq.1)]
    rw [hview]
    exact ih _ (hq.2 _) h
  | create p k ih =>
    simp only [run]
    split
    · refine ih true (hq.2 _) fun p' hp' => ?_
      -- The file that is opened is empty in both stores from here on.
      by_cases he : p' = p
      · subst he; simp
      · simp [he, h p' hp']
    · exact ih false (hq.2 _) h
  | append p xs k ih =>
    refine ih hq.2 fun p' hp' => ?_
    by_cases he : p' = p
    · subst he; simp [h p' hp']
    · simp [he, h p' hp']
  | close p k ih => exact ih hq.2 h

/-- When nothing written is read, the result depends only on what is read. -/
theorem run_fst_congr {q : FileProg π γ α} (hq : q.Within R W) (hRW : ∀ p ∈ R, p ∉ W)
    {d d' : Store π γ} (h : ∀ p ∈ R, d p = d' p) : (q.run acc d).1 = (q.run acc d').1 := by
  have hwrite : ∀ (d d' : Store π γ), (∀ p ∈ R, d p = d' p) → ∀ p ∈ W, ∀ o o', ∀ p' ∈ R,
      Function.update d p o p' = Function.update d' p o' p' := by
    intro d d' h p hp o o' p' hp'
    have hpp : p' ≠ p := fun he => hRW p' hp' (he ▸ hp)
    rw [Function.update_of_ne hpp, Function.update_of_ne hpp, h p' hp']
  induction q generalizing d d' with
  | done a => rfl
  | read p k ih =>
    have hview : acc.view d p = acc.view d' p := by
      rw [Access.view, Access.view, h p hq.1]
    simp only [run, hview]
    exact ih _ (hq.2 _) h
  | create p k ih =>
    simp only [run]
    split
    · exact ih true (hq.2 _) (hwrite d d' h p hq.1 _ _)
    · exact ih false (hq.2 _) h
  | append p xs k ih => exact ih hq.2 (hwrite d d' h p hq.1 _ _)
  | close p k ih => exact ih hq.2 h

/-- Programs that read nothing any of them writes have the results they have alone. -/
theorem runAll_fst {qs : List (FileProg π γ α)} (hRW : ∀ p ∈ R, p ∉ W)
    (hqs : ∀ q ∈ qs, q.Within R W) (d : Store π γ) :
    (runAll acc qs d).1 = qs.map fun q => (q.run acc d).1 := by
  suffices key : ∀ d', (∀ p ∈ R, d' p = d p) →
      (runAll acc qs d').1 = qs.map fun q => (q.run acc d).1 from key d fun _ _ => rfl
  induction qs with
  | nil => exact fun _ _ => rfl
  | cons q qs ih =>
    intro d' h
    have hq := hqs q List.mem_cons_self
    have hnext : ∀ p ∈ R, (q.run acc d').2 p = d p := fun p hp => by
      rw [run_frame hq d' (hRW p hp), h p hp]
    simp only [runAll, List.map_cons]
    rw [run_fst_congr hq hRW h, ih (fun q' h' => hqs q' (List.mem_cons_of_mem _ h')) _ hnext]

omit [DecidableEq π] in
theorem Within.mono {q : FileProg π γ α} (h : q.Within R W) {R' W' : Set π} (hR : R ⊆ R')
    (hW : W ⊆ W') : q.Within R' W' := by
  induction q with
  | done a => trivial
  | read p k ih => exact ⟨hR h.1, fun o => ih o (h.2 o)⟩
  | create p k ih => exact ⟨hW h.1, fun b => ih b (h.2 b)⟩
  | append p xs k ih => exact ⟨hW h.1, ih h.2⟩
  | close p k ih => exact ⟨hW h.1, ih h.2⟩

/-! ### Results and writes

Which results are possible at all, and which of them only to a program that has not written yet.
The second is the shape of a program that checks everything before it opens its first file. -/

/-- Every result the program can produce, whatever the store, is in `Q`. -/
def Results (Q : α → Prop) : FileProg π γ α → Prop
  | done a => Q a
  | read _ k => ∀ o, (k o).Results Q
  | create _ k => ∀ b, (k b).Results Q
  | append _ _ k => k.Results Q
  | close _ k => k.Results Q

/-- Results outside `Q` are produced only by runs that have not written. From the first open for
writing on, every result the rest can produce has to be in `Q`. -/
def CleanUnless (Q : α → Prop) : FileProg π γ α → Prop
  | done _ => True
  | read _ k => ∀ o, (k o).CleanUnless Q
  | create _ k => ∀ b, (k b).Results Q
  | append _ _ k => k.Results Q
  | close _ k => k.CleanUnless Q

omit [DecidableEq π] in
theorem Results.bind {P : β → Prop} {q : FileProg π γ β} {f : β → FileProg π γ α}
    (hq : q.Results P) (hf : ∀ b, P b → (f b).Results Q) : (q.bind f).Results Q := by
  induction q with
  | done a => exact hf a hq
  | read p k ih => exact fun o => ih o (hq o)
  | create p k ih => exact fun b => ih b (hq b)
  | append p xs k ih => exact ih hq
  | close p k ih => exact ih hq

omit [DecidableEq π] in
theorem Results.imp {P : α → Prop} {q : FileProg π γ α} (h : q.Results P)
    (himp : ∀ a, P a → Q a) : q.Results Q := by
  induction q with
  | done a => exact himp a h
  | read p k ih => exact fun o => ih o (h o)
  | create p k ih => exact fun b => ih b (h b)
  | append p xs k ih => exact ih h
  | close p k ih => exact ih h

omit [DecidableEq π] in
theorem Results.trivial (q : FileProg π γ α) : q.Results fun _ => True := by
  induction q with
  | done a => exact True.intro
  | read p k ih => exact ih
  | create p k ih => exact ih
  | append p xs k ih => exact ih
  | close p k ih => exact ih

omit [DecidableEq π] in
/-- Composition, when the second footprint depends on the first result: the streams that a first
part has opened are those that the second writes to. -/
theorem Within.bind_results {P : β → Prop} {q : FileProg π γ β} {f : β → FileProg π γ α}
    (hq : q.Within R W) (hres : q.Results P) (hf : ∀ b, P b → (f b).Within R W) :
    (q.bind f).Within R W := by
  induction q with
  | done a => exact hf a hres
  | read p k ih => exact ⟨hq.1, fun o => ih o (hq.2 o) (hres o)⟩
  | create p k ih => exact ⟨hq.1, fun b => ih b (hq.2 b) (hres b)⟩
  | append p xs k ih => exact ⟨hq.1, ih hq.2 hres⟩
  | close p k ih => exact ⟨hq.1, ih hq.2 hres⟩

omit [DecidableEq π] in
theorem CleanUnless.of_results {q : FileProg π γ α} (h : q.Results Q) : q.CleanUnless Q := by
  induction q with
  | done a => trivial
  | read p k ih => exact fun o => ih o (h o)
  | create p k ih => exact h
  | append p xs k ih => exact h
  | close p k ih => exact ih h

theorem Results.run {q : FileProg π γ α} (h : q.Results Q) (d : Store π γ) :
    Q (q.run acc d).1 := by
  induction q generalizing d with
  | done a => exact h
  | read p k ih => exact ih _ (h _) d
  | create p k ih =>
    simp only [FileProg.run]
    split
    · exact ih true (h _) _
    · exact ih false (h _) d
  | append p xs k ih => exact ih h _
  | close p k ih => exact ih h d

theorem Results.step {q q' : FileProg π γ α} {d d' : Store π γ} (h : q.Results Q)
    (hs : q.step acc d = some (q', d')) : q'.Results Q := by
  cases q with
  | done a => simp [FileProg.step] at hs
  | create p k =>
    simp only [FileProg.step] at hs
    split at hs <;> simp only [Option.some.injEq, Prod.mk.injEq] at hs <;> exact hs.1 ▸ h _
  | read p k => simp only [FileProg.step, Option.some.injEq, Prod.mk.injEq] at hs; exact hs.1 ▸ h _
  | append p xs k => simp only [FileProg.step, Option.some.injEq, Prod.mk.injEq] at hs; exact hs.1 ▸ h
  | close p k => simp only [FileProg.step, Option.some.injEq, Prod.mk.injEq] at hs; exact hs.1 ▸ h

/-- A clean program stays clean, and once a step has changed the store only
results in `Q` are left. -/
theorem CleanUnless.step {q q' : FileProg π γ α} {d d' : Store π γ} (h : q.CleanUnless Q)
    (hs : q.step acc d = some (q', d')) : q'.CleanUnless Q ∧ (d' = d ∨ q'.Results Q) := by
  cases q with
  | done a => simp [FileProg.step] at hs
  | read p k =>
    simp only [FileProg.step, Option.some.injEq, Prod.mk.injEq] at hs
    obtain ⟨rfl, rfl⟩ := hs
    exact ⟨h _, .inl rfl⟩
  | create p k =>
    have hres : q'.Results Q := Results.step (Q := Q) (q := create p k) h hs
    exact ⟨.of_results hres, .inr hres⟩
  | append p xs k =>
    have hres : q'.Results Q := Results.step (Q := Q) (q := append p xs k) h hs
    exact ⟨.of_results hres, .inr hres⟩
  | close p k =>
    simp only [FileProg.step, Option.some.injEq, Prod.mk.injEq] at hs
    obtain ⟨rfl, rfl⟩ := hs
    exact ⟨h, .inl rfl⟩

/-- A clean program that ends outside `Q` has changed nothing. -/
theorem run_clean {q : FileProg π γ α} (h : q.CleanUnless Q) {d : Store π γ}
    (hq : ¬ Q (q.run acc d).1) : (q.run acc d).2 = d := by
  induction q generalizing d with
  | done a => rfl
  | read p k ih => exact ih _ (h _) hq
  | create p k ih => exact absurd (Results.run (q := create p k) h d) hq
  | append p xs k ih => exact absurd (Results.run (q := append p xs k) h d) hq
  | close p k ih => exact ih h hq

/-! ### What is appended

The sequence of writes to one path. A program that first opens a file and then appends to it
leaves these writes in it, one behind the other. -/

/-- What the run of a program on a store appends to a path, in order. -/
def appends (acc : Access π) (p : π) : FileProg π γ α → Store π γ → List (List γ)
  | done _, _ => []
  | read p' k, d => appends acc p (k (acc.view d p')) d
  | create p' k, d =>
      if acc.canWrite p' then appends acc p (k true) (Function.update d p' (some []))
      else appends acc p (k false) d
  | append p' xs k, d =>
      (if p' = p then [xs] else []) ++
        appends acc p k (Function.update d p' ((d p').map (· ++ xs)))
  | close _ k, d => appends acc p k d

@[simp] theorem appends_done (p : π) (a : α) (d : Store π γ) :
    (done a : FileProg π γ α).appends acc p d = [] := rfl

@[simp] theorem appends_bind (p : π) (q : FileProg π γ α) (f : α → FileProg π γ β)
    (d : Store π γ) :
    (q.bind f).appends acc p d =
      q.appends acc p d ++ (f (q.run acc d).1).appends acc p (q.run acc d).2 := by
  induction q generalizing d with
  | done a => rfl
  | read p' k ih => exact ih _ d
  | create p' k ih =>
    simp only [bind, appends, run]
    split
    · exact ih true _
    · exact ih false d
  | append p' xs k ih =>
    simp only [bind, appends, run, ih, List.append_assoc]
  | close p' k ih => exact ih d

/-! ### How many operations are left

A measure that every step of a program lowers by one. It is taken on the present store, where a
program that is not alone may find another file than it would have found later; for one that
reads nothing that is written this makes no difference. -/

/-- The number of operations a program performs if nobody interferes. -/
def length (acc : Access π) : FileProg π γ α → Store π γ → ℕ
  | done _, _ => 0
  | read p k, d => length acc (k (acc.view d p)) d + 1
  | create p k, d =>
      (if acc.canWrite p then length acc (k true) (Function.update d p (some []))
      else length acc (k false) d) + 1
  | append p xs k, d => length acc k (Function.update d p ((d p).map (· ++ xs))) + 1
  | close _ k, d => length acc k d + 1

/-- A program without a next operation has returned. -/
theorem done_of_step {q : FileProg π γ α} {d : Store π γ} (h : q.step acc d = none) :
    ∃ a, q = done a := by
  cases q with
  | done a => exact ⟨a, rfl⟩
  | create p k =>
    simp only [FileProg.step] at h
    split at h <;> cases h
  | _ => cases h

/-- An operation is one less to be performed. -/
theorem length_of_step {q q' : FileProg π γ α} {d d' : Store π γ}
    (h : q.step acc d = some (q', d')) : q.length acc d = q'.length acc d' + 1 := by
  cases q with
  | done a => cases h
  | read p k =>
    obtain ⟨rfl, rfl⟩ := Prod.mk.inj (Option.some.inj h)
    rfl
  | create p k =>
    simp only [FileProg.step] at h
    simp only [length]
    split at h <;> obtain ⟨rfl, rfl⟩ := Prod.mk.inj (Option.some.inj h) <;> simp_all
  | append p xs k =>
    obtain ⟨rfl, rfl⟩ := Prod.mk.inj (Option.some.inj h)
    rfl
  | close p k =>
    obtain ⟨rfl, rfl⟩ := Prod.mk.inj (Option.some.inj h)
    rfl

/-- When nothing written is read, that number depends only on what is read. -/
theorem length_congr {q : FileProg π γ α} (hq : q.Within R W) (hRW : ∀ p ∈ R, p ∉ W)
    {d d' : Store π γ} (h : ∀ p ∈ R, d p = d' p) : q.length acc d = q.length acc d' := by
  have hwrite : ∀ (d d' : Store π γ), (∀ p ∈ R, d p = d' p) → ∀ p ∈ W, ∀ o o', ∀ p' ∈ R,
      Function.update d p o p' = Function.update d' p o' p' := by
    intro d d' h p hp o o' p' hp'
    have hpp : p' ≠ p := fun he => hRW p' hp' (he ▸ hp)
    rw [Function.update_of_ne hpp, Function.update_of_ne hpp, h p' hp']
  induction q generalizing d d' with
  | done a => rfl
  | read p k ih =>
    have hview : acc.view d p = acc.view d' p := by
      rw [Access.view, Access.view, h p hq.1]
    simp only [length, hview]
    rw [ih _ (hq.2 _) h]
  | create p k ih =>
    simp only [length]
    split
    · rw [ih true (hq.2 _) (hwrite d d' h p hq.1 _ _)]
    · rw [ih false (hq.2 _) h]
  | append p xs k ih =>
    simp only [length]
    rw [ih hq.2 (hwrite d d' h p hq.1 _ _)]
  | close p k ih =>
    simp only [length]
    rw [ih hq.2 h]

end FileProg
