import MapReduceCpp.Process.Recovery

/-!
# MapReduceCpp.Process.Session

Several runs of `process` over one data directory.

A run rewrites all temp and output files it is responsible for, so what it leaves in
them does not depend on what an earlier run left there. It removes nothing. The output
files of an earlier run with more workers therefore stay beside those of a later run
with fewer (`last_run_exact`, `results_leak`).
-/

namespace MapReduceCpp

open Job

variable {job : Job} {dir : Str} {d d' d₀ d₁ d₂ : Disk} {content : Str} {x : Path} {r : ℕ}

/-- A run of `process` from one data directory to another in which nothing crashes and every
controller call returns 0. Which interleaving it is does not matter, and there may be several. -/
def CleanRun (job : Job) (d d' : Disk) : Prop :=
  ∃ s, Transition.Reaches (step job) CrashFree (.init d) s ∧ s.ctrl = .returned ∧
    Errorless s ∧ s.disk = d'

/-- A call of `process` over a directory: the job and what its input file holds. -/
structure Invocation (dir : Str) where
  job : Job
  content : Str
  dir_eq : job.outputResultDirectory = dir
  square : job.nrMapper = job.nrReducer

/-- The input file is put into the directory and the run made. -/
def Invocation.Runs (i : Invocation dir) (d d' : Disk) : Prop :=
  CleanRun i.job (Function.update d i.job.input (some i.content)) d'

/-- Calls of `process` over one directory, one after the other. -/
inductive Session : List (Invocation dir) → Disk → Disk → Prop
  | nil {d : Disk} : Session [] d d
  | snoc {is : List (Invocation dir)} {i : Invocation dir} {d d₁ d₂ : Disk} :
      Session is d d₁ → i.Runs d₁ d₂ → Session (is ++ [i]) d d₂

/-- The file is named `output_<number>.txt`, whichever job wrote it. -/
def IsResult (dir : Str) (x : Path) : Prop :=
  ∃ number : Str, number ≠ [] ∧ (∀ c ∈ number, c.isDigit = true) ∧
    x = dir ++ "/output_".toList ++ number ++ ".txt".toList

theorem isResult_outputPath (dir : Str) (r : ℕ) : IsResult dir (outputPath dir r) :=
  ⟨toStr r, toStr_ne_nil r, fun _ hc => isDigit_of_mem_toStr hc, rfl⟩

theorem IsResult.ne_tempPath (h : IsResult dir x) (m r : ℕ) : x ≠ tempPath dir m r := by
  obtain ⟨number, -, -, rfl⟩ := h
  intro he
  simp only [tempPath, List.append_assoc] at he
  exact absurd (letter_of_path he) (by decide)

/-! ### One run

A run is described by what it is responsible for: its own output files are made anew, and of all
other result files none is opened. -/

/-- A run leaves what it is responsible for, whatever was there. -/
theorem CleanRun.output (hb : job.Sound) (hd : d job.input = some content) (h : CleanRun job d d')
    (hr : r < job.nrReducer) : d' (job.output r) = some (job.outputContent content r) := by
  obtain ⟨s, hs, hc, herr, rfl⟩ := h
  have hfiles := (files_of_reaches hb hd hs).1 herr
  exact (@Files.written _ _ _ ⟨.reduce, r⟩ hfiles (orderly_of_reaches hs) hc hr).2

/-- A run leaves alone what it is not responsible for. -/
theorem CleanRun.frame (h : CleanRun job d d') (hsquare : job.nrMapper = job.nrReducer)
    (hx : IsResult job.outputResultDirectory x) (hout : ∀ r < job.nrReducer, x ≠ job.output r) :
    d' x = d x := by
  obtain ⟨s, hs, -, -, rfl⟩ := h
  refine frame_of_reaches (fun t ht hmem => ?_) hs
  obtain ⟨ph, idx⟩ := t
  cases ph with
  | map =>
    obtain ⟨r, -, he⟩ := hmem
    exact hx.ne_tempPath idx r he
  | reduce => exact hout idx (hsquare ▸ ht) (Set.mem_singleton_iff.mp hmem)

namespace Invocation

variable {i : Invocation dir}

/-- What a run leaves in its own output files depends on its input only. -/
theorem Runs.output_eq
    (hapart : ∀ m < i.job.nrMapper, ∀ r < i.job.nrReducer, i.job.input ≠ i.job.temp m r)
    (h : i.Runs d d') (h₀ : i.Runs d₁ d₀) (hr : r < i.job.nrReducer) :
    d' (outputPath dir r) = d₀ (outputPath dir r) := by
  have hb : i.job.Sound := ⟨hapart, i.square⟩
  have hname : outputPath dir r = i.job.output r := by rw [Job.output, i.dir_eq]
  rw [hname, CleanRun.output hb (Function.update_self _ _ _) h hr,
    CleanRun.output hb (Function.update_self _ _ _) h₀ hr]

/-- Another file of that kind is not touched. -/
theorem Runs.frame (h : i.Runs d d') (hx : IsResult dir x)
    (hout : ∀ r < i.job.nrReducer, x ≠ outputPath dir r) (hin : x ≠ i.job.input) :
    d' x = d x := by
  have hx' : IsResult i.job.outputResultDirectory x := by rwa [i.dir_eq]
  have hout' : ∀ r < i.job.nrReducer, x ≠ i.job.output r := by
    intro r hr
    rw [Job.output, i.dir_eq]
    exact hout r hr
  rw [CleanRun.frame h i.square hx' hout', Function.update_of_ne hin]

/-- The input file stays, unless it is an output file too. -/
theorem Runs.frame_input (h : i.Runs d d') (hx : IsResult dir i.job.input)
    (hout : ∀ r < i.job.nrReducer, i.job.input ≠ outputPath dir r) :
    d' i.job.input = some i.content := by
  have hx' : IsResult i.job.outputResultDirectory i.job.input := by rwa [i.dir_eq]
  have hout' : ∀ r < i.job.nrReducer, i.job.input ≠ i.job.output r := by
    intro r hr
    rw [Job.output, i.dir_eq]
    exact hout r hr
  rw [CleanRun.frame h i.square hx' hout', Function.update_self]

end Invocation

/-! ### Many runs

The sessions before the last run matter through one thing: which result files they have left
that the last run has no reason to write. -/

/-- A file that no run of a session is responsible for is left alone. -/
theorem Session.frame {is : List (Invocation dir)} (h : Session is d d') (hx : IsResult dir x)
    (hout : ∀ i ∈ is, (∀ r < i.job.nrReducer, x ≠ outputPath dir r) ∧ x ≠ i.job.input) :
    d' x = d x := by
  induction h with
  | nil => rfl
  | @snoc is i d d₁ d₂ _ hrun ih =>
    obtain ⟨hi, hin⟩ := hout i (List.mem_append_right _ (List.mem_singleton_self i))
    rw [hrun.frame hx hi hin, ih fun j hj => hout j (List.mem_append_left _ hj)]

/-- **The output files of the last run are its own, the others are those of earlier
runs.** After any session, with any files in the directory, the last run leaves in each
of its output files what it would leave in a directory with nothing but its input. All
other result files stay as it found them. The result files are therefore exactly its
own if and only if it found none beside them, as it does when it starts on a directory
without result files and no run before it had more workers. -/
theorem last_run_exact {before : List (Invocation dir)} {last : Invocation dir}
    (hapart : ∀ m < last.job.nrMapper, ∀ r < last.job.nrReducer,
      last.job.input ≠ last.job.temp m r)
    (hbefore : Session before d d₁) (hlast : last.Runs d₁ d₂)
    (halone : last.Runs (fun _ => none) d₀) :
    (∀ r < last.job.nrReducer, d₂ (outputPath dir r) = d₀ (outputPath dir r)) ∧
      (∀ x, IsResult dir x → (∀ r < last.job.nrReducer, x ≠ outputPath dir r) →
        x ≠ last.job.input → d₂ x = d₁ x ∧ d₀ x = none) ∧
      ((∀ x, IsResult dir x → d₂ x = d₀ x) ↔
        ∀ x, IsResult dir x → (∀ r < last.job.nrReducer, x ≠ outputPath dir r) →
          x ≠ last.job.input → d₁ x = none) ∧
      ((∀ i ∈ before, i.job.nrReducer ≤ last.job.nrReducer ∧ ¬ IsResult dir i.job.input) →
        (∀ x, IsResult dir x → d x = none) → ∀ x, IsResult dir x → d₂ x = d₀ x) := by
  have hown : ∀ r < last.job.nrReducer, d₂ (outputPath dir r) = d₀ (outputPath dir r) :=
    fun r hr => hlast.output_eq hapart halone hr
  have hother : ∀ x, IsResult dir x → (∀ r < last.job.nrReducer, x ≠ outputPath dir r) →
      x ≠ last.job.input → d₂ x = d₁ x ∧ d₀ x = none :=
    fun x hx hout hin => ⟨hlast.frame hx hout hin, halone.frame hx hout hin⟩
  -- A result file is an output of the last run, its input, or one it does not touch.
  have hiff : (∀ x, IsResult dir x → d₂ x = d₀ x) ↔
      ∀ x, IsResult dir x → (∀ r < last.job.nrReducer, x ≠ outputPath dir r) →
        x ≠ last.job.input → d₁ x = none := by
    constructor
    · intro heq x hx hout hin
      obtain ⟨hsame, hnone⟩ := hother x hx hout hin
      rw [← hsame, heq x hx, hnone]
    · intro hnone x hx
      by_cases hout : ∃ r < last.job.nrReducer, x = outputPath dir r
      · obtain ⟨r, hr, rfl⟩ := hout
        exact hown r hr
      · have hout' : ∀ r < last.job.nrReducer, x ≠ outputPath dir r :=
          fun r hr he => hout ⟨r, hr, he⟩
        by_cases hin : x = last.job.input
        · subst hin
          rw [hlast.frame_input hx hout', halone.frame_input hx hout']
        · obtain ⟨hsame, hempty⟩ := hother x hx hout' hin
          rw [hsame, hempty, hnone x hx hout' hin]
  -- With no more workers before, an earlier run is responsible for none of the other files.
  refine ⟨hown, hother, hiff, fun hfew hempty => hiff.mpr fun x hx hout _ => ?_⟩
  rw [hbefore.frame hx fun i hi => ⟨fun r hr => hout r (hr.trans_le (hfew i hi).1), fun he =>
    (hfew i hi).2 (he ▸ hx)⟩]
  exact hempty x hx

/-! ### Runs that leak

Nothing in the code removes a file, and nothing checks the name of the input. So there are two
ways in which a directory can hold what the last run would not have left there. -/

/-- Over an empty directory and after the given runs, the result files are exactly
those of the last run. -/
def ResultsExact (before : List (Invocation dir)) (last : Invocation dir) : Prop :=
  ∀ d₁ d₂ d₀, Session before (fun _ => none) d₁ → last.Runs d₁ d₂ →
    last.Runs (fun _ => none) d₀ → ∀ x, IsResult dir x → d₂ x = d₀ x

/-- A run that is exhibited is a clean one, if its labels kill nobody and the codes on record
are 0. -/
theorem cleanRun_of_run {ls : List Label} {s : State}
    (h : Transition.run (step job) ls (.init d) = some s) (hls : ∀ p, Label.kill p ∉ ls)
    (hc : s.ctrl = .returned)
    (hret : ∀ p < s.spawned, ∀ r ∈ (s.servers p).returned, r.2 = 0) : CleanRun job d s.disk := by
  have hok : ∀ l ∈ ls, ∀ s, CrashFree s l := by
    intro l hl _ p he
    exact hls p (he ▸ hl)
  have hs := Transition.reaches_of_labels hok h
  refine ⟨s, hs, hc, fun p r hr => ?_, rfl⟩
  refine hret p ((topology_of_reaches hs).lt_of_ne fun hnone => ?_) r hr
  rw [hnone] at hr
  cases hr

/-- What is to be seen of a run: where it has come to, whether without errors, and one of its
output files. -/
def State.report (r : ℕ) (s : State) : Ctrl × Bool × Option Str :=
  (s.ctrl, decide (∀ p < s.spawned, ∀ x ∈ (s.servers p).returned, x.2 = 0),
    s.disk (outputPath "data".toList r))

/-- A clean run from what is seen of it. -/
theorem cleanRun_of_report {r : ℕ} {ls : List Label} {out : Option Str}
    (h : (Transition.run (step job) ls (.init d)).map (State.report r) =
      some (.returned, true, out)) (hls : ∀ p, Label.kill p ∉ ls) :
    ∃ d', CleanRun job d d' ∧ d' (outputPath "data".toList r) = out := by
  obtain ⟨s, hs, heq⟩ := Option.map_eq_some_iff.mp h
  simp only [State.report, Prod.mk.injEq] at heq
  exact ⟨s.disk, cleanRun_of_run hs hls heq.1 (of_decide_eq_true heq.2.1), heq.2.2⟩

/-- Two workers over an empty input. -/
def twoWorkers : Invocation "data".toList := ⟨Job.lineNumbers, [], rfl, rfl⟩

/-- One worker over an empty input. -/
def singleWorker : Invocation "data".toList := ⟨Job.oneWorker, [], rfl, rfl⟩

/-- Two workers over an input file with the name of a temp file. -/
def racingWorkers : Invocation "data".toList where
  job := { Job.lineNumbers with inputFileName := "temp_0_0.txt".toList }
  content := "a\na".toList
  dir_eq := rfl
  square := rfl

theorem singleWorker_runs (d : Disk) : ∃ d', singleWorker.Runs d d' := by
  have hrun : (Transition.run (step Job.oneWorker) oneWorkerRun
      (.init (Function.update d Job.oneWorker.input (some [])))).map (fun s => (s.ctrl,
        decide (∀ p < s.spawned, ∀ r ∈ (s.servers p).returned, r.2 = 0))) =
      some (.returned, true) := rfl
  obtain ⟨s, hs, heq⟩ := Option.map_eq_some_iff.mp hrun
  obtain ⟨hc, hret⟩ := Prod.mk.inj heq
  have hls : ∀ p, Label.kill p ∉ oneWorkerRun := by simp [oneWorkerRun, oneWorkerSteps]
  exact ⟨s.disk, cleanRun_of_run hs hls hc (of_decide_eq_true hret)⟩

/-- The second output file of two workers stays beside that of a single one; and an input
file named like a temp file may be written over before it is read. -/
theorem results_leak :
    ¬ ResultsExact [twoWorkers] singleWorker ∧ ¬ ResultsExact [] racingWorkers := by
  refine ⟨fun h => ?_, fun h => ?_⟩
  · -- output_1.txt is no file of the single worker, so it is what two workers left.
    obtain ⟨d₁, hrun, hout⟩ := @cleanRun_of_report Job.lineNumbers
      (Function.update (fun _ => none) Job.lineNumbers.input (some [])) 1
      [twoWorkersStart, List.replicate 6 (.file 0 0), List.replicate 6 (.file 1 0),
        twoWorkersRest 5 5].flatten (some []) (by decide +kernel)
      (by simp [twoWorkersStart, twoWorkersRest])
    obtain ⟨d₂, hlast⟩ := singleWorker_runs d₁
    obtain ⟨d₀, halone⟩ := singleWorker_runs fun _ => none
    have heq := h d₁ d₂ d₀ (.snoc .nil hrun) hlast halone _ (isResult_outputPath _ 1)
    have hname : ∀ r < singleWorker.job.nrReducer,
        outputPath "data".toList 1 ≠ outputPath "data".toList r := by
      intro r hr he
      have hr' : r < 1 := hr
      rw [← outputPath_inj.mp he] at hr'
      exact Nat.lt_irrefl 1 hr'
    have hin : outputPath "data".toList 1 ≠ singleWorker.job.input := by decide
    rw [hlast.frame (isResult_outputPath _ 1) hname hin,
      halone.frame (isResult_outputPath _ 1) hname hin, hout] at heq
    cases heq
  · -- Mapper 1 reads the input after or before mapper 0 has truncated it.
    obtain ⟨d₂, hlate, hout⟩ := @cleanRun_of_report racingWorkers.job
      (Function.update (fun _ => none) racingWorkers.job.input (some racingWorkers.content)) 1
      [twoWorkersStart, [.file 0 0], List.replicate 7 (.file 1 0),
        List.replicate 6 (.file 0 0), twoWorkersRest 5 9].flatten (some "a 0 1 \n".toList)
      (by decide +kernel) (by simp [twoWorkersStart, twoWorkersRest])
    obtain ⟨d₀, hearly, hout₀⟩ := @cleanRun_of_report racingWorkers.job
      (Function.update (fun _ => none) racingWorkers.job.input (some racingWorkers.content)) 1
      [twoWorkersStart, List.replicate 7 (.file 0 0), List.replicate 6 (.file 1 0),
        twoWorkersRest 5 8].flatten (some "a 0 \n".toList)
      (by decide +kernel) (by simp [twoWorkersStart, twoWorkersRest])
    have heq := h _ d₂ d₀ .nil hlate hearly _ (isResult_outputPath _ 1)
    rw [hout, hout₀] at heq
    exact absurd heq (by decide)

/-- One worker over one line. -/
def earlierWorker : Invocation "data".toList := ⟨Job.oneWorker, "a\n".toList, rfl, rfl⟩

/-- Two workers over three lines. -/
def laterWorkers : Invocation "data".toList := ⟨Job.lineNumbers, Job.sampleLines, rfl, rfl⟩

/-- Two workers leave the output files that they would leave alone, and nothing of what one
worker has left before them. -/
theorem last_run_exact_laterWorkers : ∃ d₁ d₂ d₀, Session [earlierWorker] (fun _ => none) d₁ ∧
    laterWorkers.Runs d₁ d₂ ∧ laterWorkers.Runs (fun _ => none) d₀ ∧
      d₁ (outputPath "data".toList 0) = some "a 0 \n".toList ∧
      d₀ (outputPath "data".toList 0) = some "aa 0 2 \n".toList ∧
      ∀ x, IsResult "data".toList x → d₂ x = d₀ x := by
  have hrun : ((Transition.run (step Job.oneWorker) (oneWorkerSteps 5 7)
      (.init (Function.update (fun _ => none) Job.oneWorker.input (some "a\n".toList)))).bind
        fun s₁ => (Transition.run (step Job.lineNumbers) twoWorkersRun
          (.init (Function.update s₁.disk Job.lineNumbers.input (some Job.sampleLines)))).bind
            fun s₂ => (Transition.run (step Job.lineNumbers) twoWorkersRun
              (.init (Function.update (fun _ => none) Job.lineNumbers.input
                (some Job.sampleLines)))).map fun s₀ => decide
                  (s₁.report 0 = (.returned, true, some "a 0 \n".toList) ∧
                    s₂.report 0 = (.returned, true, some "aa 0 2 \n".toList) ∧
                    s₀.report 0 = (.returned, true, some "aa 0 2 \n".toList))) =
      some true := by decide +kernel
  obtain ⟨s₁, hs₁, hrun⟩ := Option.bind_eq_some_iff.mp hrun
  obtain ⟨s₂, hs₂, hrun⟩ := Option.bind_eq_some_iff.mp hrun
  obtain ⟨s₀, hs₀, heq⟩ := Option.map_eq_some_iff.mp hrun
  have heq := of_decide_eq_true heq
  simp only [State.report, Prod.mk.injEq, decide_eq_true_eq] at heq
  obtain ⟨⟨hc₁, hret₁, hout₁⟩, ⟨hc₂, hret₂, -⟩, hc₀, hret₀, hout₀⟩ := heq
  have hearly : earlierWorker.Runs (fun _ => none) s₁.disk :=
    cleanRun_of_run hs₁ (by simp [oneWorkerSteps]) hc₁ hret₁
  have hlast : laterWorkers.Runs s₁.disk s₂.disk :=
    cleanRun_of_run hs₂ (by simp [twoWorkersRun, twoWorkersStart, twoWorkersRest]) hc₂ hret₂
  have halone : laterWorkers.Runs (fun _ => none) s₀.disk :=
    cleanRun_of_run hs₀ (by simp [twoWorkersRun, twoWorkersStart, twoWorkersRest]) hc₀ hret₀
  have hin : ¬ IsResult "data".toList earlierWorker.job.input := by
    intro hx
    obtain ⟨number, -, -, he⟩ := hx
    rw [show earlierWorker.job.input = "data".toList ++ "/in.txt".toList from rfl] at he
    simp only [List.append_assoc] at he
    exact absurd (letter_of_path he) (by decide)
  have hbefore : Session [earlierWorker] (fun _ => none) s₁.disk := .snoc .nil hearly
  obtain ⟨-, -, -, hall⟩ := last_run_exact lineNumbers_sound.apart hbefore hlast halone
  refine ⟨s₁.disk, s₂.disk, s₀.disk, hbefore, hlast, halone, hout₁, hout₀,
    hall (fun i hi => ?_) fun _ _ => rfl⟩
  obtain rfl := List.mem_singleton.mp hi
  exact ⟨by decide, hin⟩

end MapReduceCpp
