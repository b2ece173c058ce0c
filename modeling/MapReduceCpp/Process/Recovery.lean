import MapReduceCpp.Process.Files

/-!
# MapReduceCpp.Process.Recovery

What `process` guarantees whatever crashes.

Between the phases there is a barrier: once a reduce task has been sent, the temp
files are complete and nobody writes them any more (`barrier`). And when `process`
returns, the temp and output files are those of a run without crashes
(`crash_transparent`).
-/

namespace MapReduceCpp

variable {job : Job} {s s' : State} {l : Label} {content : Str} {d : Disk} {p : ℕ} {t : Task}

/-! ### The barrier

That the map tasks are over is what `Credit` says of the reduce phase. That nobody writes their
files any more is a matter of names: a reducer opens its own output and no temp file. -/

/-- What has been sent stays on record. -/
theorem Step.sent_subset (ht : Topology job s) (hs : Step job s l s') {req : Request}
    (h : req ∈ (s.servers p).sent) : req ∈ (s'.servers p).sent := by
  rcases hs.sent ht with hsame | ⟨q, w, req', phases, c, -, -, rfl⟩
  · rwa [hsame]
  · by_cases hq : p = q
    · subst hq
      simp only [State.deliver_self]
      exact List.mem_append_left _ h
    · simp only [State.deliver_ne s req' hq]
      exact h

theorem sent_of_reaches {ok ok' : State → Label → Prop} {req : Request}
    (hr : Transition.Reaches (step job) ok (.init d) s)
    (h : Transition.Reaches (step job) ok' s s') (hreq : req ∈ (s.servers p).sent) :
    req ∈ (s'.servers p).sent := by
  induction h with
  | refl => exact hreq
  | tail hrun _ hstep ih =>
    exact (step_cases hstep).sent_subset (topology_of_reaches (hr.any.trans hrun.any)) ih

/-- Once a reduce task has been sent, the phase is the reduce phase, and it stays so. -/
theorem Orderly.phase_of_sent (h : Orderly job s) {idx : ℕ}
    (hsent : .task ⟨.reduce, idx⟩ ∈ (s.servers p).sent) : s.ctrl.phase = .reduce :=
  h.accounting.early p idx (List.count_pos_iff.mpr hsent)

/-- In the reduce phase the temp files are complete. -/
theorem Files.temps (h : Files job content s) (hi : Orderly job s)
    (hphase : s.ctrl.phase = .reduce) {m r : ℕ} (hm : m < job.nrMapper) (hr : r < job.nrReducer) :
    s.disk (job.temp m r) = some (job.tempContent content m r) := by
  have hfin : s.ctrl.finished .map = true := by simp [Ctrl.finished, hphase]
  exact (h.status .map m (hi.control.finished .map hfin m hm)).2 r hr

/-- A controller that runs in the reduce phase is a reducer and has no temp file open, as no two
files of a job share a name. -/
theorem Confined.not_opened (h : Confined job s) (hi : Orderly job s) (hcr : Credit s)
    (hphase : s.ctrl.phase = .reduce) {e : Exec} (he : e ∈ (s.servers p).running) (m r : ℕ) :
    e.task.phase = .reduce ∧ job.temp m r ∉ e.opened := by
  obtain ⟨htask, -⟩ := hcr.running hi he
  have hred : e.task.phase = .reduce := by rw [htask, hphase]
  refine ⟨hred, fun hmem => ?_⟩
  have hwrites := (h p e he).2 _ hmem
  obtain ⟨⟨ph, idx⟩, prog, opened⟩ := e
  obtain rfl : ph = .reduce := hred
  exact job.temp_ne_output (Set.mem_singleton_iff.mp hwrites)

/-- **There is a barrier between the phases.** In every state in which a reduce task has
been sent, whatever has crashed, each temp file is closed and holds the pairs of its
mapper for its reducer, no live process runs a map task or has one waiting, and no temp
file changes any more. -/
theorem barrier (hb : job.Sound) (hret : job.Returns) (hd : d job.input = some content)
    (h : Transition.Reaches (step job) (fun _ _ => True) (.init d) s)
    (hsent : ∃ p idx, Request.task ⟨.reduce, idx⟩ ∈ (s.servers p).sent) :
    (∀ m < job.nrMapper, ∀ r < job.nrReducer,
      s.disk (job.temp m r) = some (job.tempContent content m r) ∧
        ∀ p, ∀ e ∈ (s.servers p).running, job.temp m r ∉ e.opened) ∧
      (∀ p, (s.servers p).alive = true → (∀ e ∈ (s.servers p).running, e.task.phase ≠ .map) ∧
        ∀ idx, Request.task ⟨.map, idx⟩ ∉ (s.servers p).inbox) ∧
      ∀ s', Transition.Reaches (step job) (fun _ _ => True) s s' →
        ∀ m < job.nrMapper, ∀ r < job.nrReducer, s'.disk (job.temp m r) = s.disk (job.temp m r) := by
  obtain ⟨p, idx, hsent⟩ := hsent
  -- What holds in the reduce phase holds in this state and in all later ones.
  have key : ∀ s', Transition.Reaches (step job) (fun _ _ => True) s s' →
      s'.ctrl.phase = .reduce ∧ Files job content s' := by
    intro s' hs'
    obtain ⟨hfiles, herr⟩ := files_of_reaches hb hd (h.trans hs')
    exact ⟨(orderly_of_reaches (h.trans hs')).phase_of_sent (sent_of_reaches h hs' hsent),
      hfiles (herr hret)⟩
  obtain ⟨hphase, hfiles⟩ := key s .refl
  have hi := orderly_of_reaches h
  have hcr := credit_of_reaches h
  have hconf := confined_of_reaches h
  refine ⟨fun m hm r hr => ⟨hfiles.temps hi hphase hm hr, fun p e he =>
      (hconf.not_opened hi hcr hphase he m r).2⟩, fun p hlive => ⟨fun e he hmap => ?_,
      fun idx hmem => ?_⟩, fun s' hs' m hm r hr => ?_⟩
  · rw [(hconf.not_opened hi hcr hphase he 0 0).1] at hmap
    cases hmap
  · have hzero := (hcr.quiet_map hi hphase idx).waiting (hi.coherent p) hlive
    exact absurd (List.count_pos_iff.mpr hmem) (Nat.not_lt.mpr hzero.le)
  · obtain ⟨hphase', hfiles'⟩ := key s' hs'
    rw [hfiles'.temps (orderly_of_reaches (h.trans hs')) hphase' hm hr,
      hfiles.temps hi hphase hm hr]

/-- The steps of a run of one worker without a crash, when its controllers have so many
operations to perform. -/
def oneWorkerSteps (n₀ n₁ : ℕ) : List Label :=
  [List.replicate 4 .master, [.connect 0 0, .master, .master, .execute 0 0],
    List.replicate n₀ (.file 0 0), [.master, .master, .execute 0 0], List.replicate 5 .master,
    [.execute 0 0], List.replicate n₁ (.file 0 0), [.master, .master, .execute 0 0],
    List.replicate 5 .master].flatten

/-- Those for an empty input. -/
def oneWorkerRun : List Label := oneWorkerSteps 4 4

/-- The first steps of a run of two workers, until both have taken up a map task. -/
def twoWorkersStart : List Label :=
  [List.replicate 6 .master, [.connect 0 0, .connect 1 1], List.replicate 3 .master,
    [.execute 0 0, .execute 1 0]].flatten

/-- The last steps, when the reducers have so many operations to perform. -/
def twoWorkersRest (n₀ n₁ : ℕ) : List Label :=
  [[.master, .master, .execute 0 0], List.replicate 3 .master, [.execute 1 0],
    List.replicate 6 .master, [.execute 0 0, .execute 1 0], List.replicate n₀ (.file 0 0),
    List.replicate n₁ (.file 1 0), [.master, .master, .execute 0 0], List.replicate 3 .master,
    [.execute 1 0], List.replicate 6 .master].flatten

/-- A run over the sample lines without a crash. -/
def twoWorkersRun : List Label :=
  [twoWorkersStart, List.replicate 8 (.file 0 0), List.replicate 7 (.file 1 0),
    twoWorkersRest 9 8].flatten

/-- A run of two workers until the reduce tasks have been sent. The process of the first is
killed when it has appended one of its two pairs, and a new one does the map task again. -/
def barrierRun : List Label :=
  [twoWorkersStart, List.replicate 4 (.file 0 0), [.kill 0, .disconnect 0],
    List.replicate 7 (.file 1 0), List.replicate 3 .master, [.connect 0 2, .master, .execute 2 0],
    List.replicate 8 (.file 2 0), [.master, .master, .execute 1 0], List.replicate 5 .master,
    [.execute 2 0], List.replicate 6 .master].flatten

theorem lineNumbers_returns : Job.lineNumbers.Returns := ⟨fun _ _ => rfl, fun _ _ => rfl⟩

theorem lineNumbers_sound : Job.lineNumbers.Sound := ⟨Job.sampleJob_inputApart.temp, rfl⟩

/-- The file of the mapper that was killed holds both pairs once. -/
theorem barrier_lineNumbers :
    ∃ s, Transition.run (step Job.lineNumbers) barrierRun (.init (Job.sampleDisk Job.sampleLines)) =
        some s ∧
      ∀ s', Transition.Reaches (step Job.lineNumbers) (fun _ _ => True) s s' →
        s'.disk (Job.lineNumbers.temp 0 0) = some "aa 0\naa 2\n".toList := by
  have hrun : (Transition.run (step Job.lineNumbers) barrierRun
      (.init (Job.sampleDisk Job.sampleLines))).map (fun s =>
        (decide (Request.task ⟨.reduce, 0⟩ ∈ (s.servers 2).sent),
          s.disk (Job.lineNumbers.temp 0 0))) =
      some (true, some "aa 0\naa 2\n".toList) := by decide +kernel
  obtain ⟨s, hs, heq⟩ := Option.map_eq_some_iff.mp hrun
  obtain ⟨hsent, htemp⟩ := Prod.mk.inj heq
  obtain ⟨-, -, hstay⟩ := barrier lineNumbers_sound lineNumbers_returns (Job.sampleDisk_input _)
    (Transition.reaches_of_run hs) ⟨2, 0, of_decide_eq_true hsent⟩
  exact ⟨s, hs, fun s' hs' => (hstay s' hs' 0 (by decide) 0 (by decide)).trans htemp⟩

/-! ### The result

When `process` returns, every entry of both status vectors is 1. So every file is what its task
writes, and a sequential run in any order of the tasks leaves the same. -/

/-- When `process` has returned, the files of all tasks are written. -/
theorem Files.written (h : Files job content s) (hi : Orderly job s) (hc : s.ctrl = .returned)
    (hid : t.id < job.count t.phase) : job.Written content t s.disk := by
  obtain ⟨ph, idx⟩ := t
  have hfin : s.ctrl.finished ph = true := by
    cases ph <;> simp [Ctrl.finished, hc, Ctrl.phase, Ctrl.stopping]
  exact h.status ph idx (hi.control.finished ph hfin idx hid)

/-- The files of all tasks together are those of a sequential run. -/
theorem eq_sequential (hapart : job.InputApart) (hd : d job.input = some content) {e : Disk}
    (h : ∀ t : Task, t.id < job.count t.phase → job.Written content t e) :
    let reference := (job.reducePhase (List.range job.nrReducer)
      (job.mapPhase (List.range job.nrMapper) d).2).2
    (∀ m < job.nrMapper, ∀ r < job.nrReducer, e (job.temp m r) = reference (job.temp m r)) ∧
      ∀ r < job.nrReducer, e (job.output r) = reference (job.output r) := by
  intro reference
  -- The order of the tasks is the one in which they are numbered, but any would do.
  obtain ⟨-, -, htemps, houts⟩ := Job.phases_eq hapart (List.Perm.refl _) (List.Perm.refl _)
    (fun m hm => (h ⟨.map, m⟩ hm).1) (fun r hr => (h ⟨.reduce, r⟩ hr).1) hd
  refine ⟨fun m hm r hr => ?_, fun r hr => ?_⟩
  · exact ((h ⟨.map, m⟩ hm).2 r hr).trans (htemps m hm r hr).symm
  · exact (h ⟨.reduce, r⟩ hr).2.trans (houts r hr).symm

/-- **Crashes are transparent.** Whatever processes are killed, at whatever moments and
however often: when `process` returns 0, every temp and output file has the content it
has after running the tasks one after the other without a crash. -/
theorem crash_transparent (hapart : job.InputApart) (hsquare : job.nrMapper = job.nrReducer)
    (hret : job.Returns)
    (hd : d job.input = some content)
    (h : Transition.Reaches (step job) (fun _ _ => True) (.init d) s) (hc : s.ctrl = .returned) :
    let reference := (job.reducePhase (List.range job.nrReducer)
      (job.mapPhase (List.range job.nrMapper) d).2).2
    (∀ m < job.nrMapper, ∀ r < job.nrReducer, s.disk (job.temp m r) = reference (job.temp m r)) ∧
      ∀ r < job.nrReducer, s.disk (job.output r) = reference (job.output r) := by
  obtain ⟨hfiles, herr⟩ := files_of_reaches ⟨hapart.temp, hsquare⟩ hd h
  exact eq_sequential hapart hd fun t ht =>
    (hfiles (herr hret)).written (orderly_of_reaches h) hc ht

/-- The rest of the run with the crash, up to the `return 0`. -/
def recoveredRun : List Label :=
  [barrierRun, [.execute 2 0], List.replicate 9 (.file 2 0), [.execute 1 0],
    List.replicate 8 (.file 1 0), List.replicate 3 .master, [.execute 2 0],
    List.replicate 3 .master, [.execute 1 0], List.replicate 6 .master].flatten

/-- The directory of the run with a crash is that of a run without one. -/
theorem crash_transparent_lineNumbers :
    ∃ s, Transition.run (step Job.lineNumbers) recoveredRun
        (.init (Job.sampleDisk Job.sampleLines)) = some s ∧ s.ctrl = .returned ∧
      s.disk (Job.lineNumbers.output 0) = some "aa 0 2 \n".toList ∧
      s.disk (Job.lineNumbers.output 0) = (Job.lineNumbers.reducePhase [0, 1]
        (Job.lineNumbers.mapPhase [0, 1] (Job.sampleDisk Job.sampleLines)).2).2
          (Job.lineNumbers.output 0) := by
  have hrun : (Transition.run (step Job.lineNumbers) recoveredRun
      (.init (Job.sampleDisk Job.sampleLines))).map (fun s =>
        (s.ctrl, s.disk (Job.lineNumbers.output 0))) =
      some (.returned, some "aa 0 2 \n".toList) := by decide +kernel
  obtain ⟨s, hs, heq⟩ := Option.map_eq_some_iff.mp hrun
  obtain ⟨hc, hfirst⟩ := Prod.mk.inj heq
  obtain ⟨-, hout⟩ := crash_transparent Job.sampleJob_inputApart rfl lineNumbers_returns
    (Job.sampleDisk_input _) (Transition.reaches_of_run hs) hc
  exact ⟨s, hs, hc, hfirst, hout 0 (by decide)⟩

end MapReduceCpp
