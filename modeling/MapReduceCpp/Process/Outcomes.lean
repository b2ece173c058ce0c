import MapReduceCpp.Process.Recovery

/-!
# MapReduceCpp.Process.Outcomes

How the controller calls of a run end.

What a controller is going to return is decided early: a mapper's outcome when it has
read the input, a reducer's before it has read anything, because nobody writes temp files
in the reduce phase. So a condition on what controllers find when they begin (`Begins`)
carries over to all the codes of a run (`ends_of_reaches`). With the condition that nothing
but `int`s is thrown the workers survive (`workers_survive`), with the condition that
nothing is thrown and the input is there a return of `process` means what it should
(`success_of_returned`). Without it neither holds: no handler catches anything but an
`int`, and no code reaches the master.
-/

namespace MapReduceCpp

open FileProg InputStream

variable {job : Job} {s s' : State} {l : Label} {c : Ctrl} {ph : Phase} {w p q : ℕ}
  {t : Task} {content : Str} {d d' : Disk} {prog : FileProg Path Char TaskResult}
  {P : Outcome → Prop} {C : Task → Disk → Prop}

/-! ### Outcomes of controllers

What a controller returns from a given disk, when it runs by itself. The two conditions are
about the records and keys that it is going to find there. -/

namespace Job

/-- What can be thrown while a task is done on a disk is an `int`, and the records of a
mapper can be numbered. -/
def Caught (job : Job) (t : Task) (d : Disk) : Prop :=
  match t with
  | ⟨.map, idx⟩ => ∀ content, d job.input = some content →
      (∀ fault, job.mapFault content idx = some fault → ∃ n, fault = .int n) ∧
        (job.mapFault content idx = none → (lines '\n' content).length < 2 ^ 31)
  | ⟨.reduce, idx⟩ => ∀ fault, job.reduceFault .all d idx = some fault → ∃ n, fault = .int n

/-- Nothing is thrown while a task is done on a disk, the input is there and the records
of a mapper can be numbered. -/
def Succeeds (job : Job) (t : Task) (d : Disk) : Prop :=
  match t with
  | ⟨.map, idx⟩ => ∃ content, d job.input = some content ∧ job.MapReturns content idx
  | ⟨.reduce, idx⟩ => job.reduceFault .all d idx = none

/-- Where nothing is thrown, nothing but an `int` is. -/
theorem Succeeds.caught (h : job.Succeeds t d) : job.Caught t d := by
  obtain ⟨ph, idx⟩ := t
  cases ph with
  | map =>
    obtain ⟨content, hd, hret⟩ := h
    intro content' hd'
    obtain rfl := Option.some.inj (hd.symm.trans hd')
    refine ⟨fun fault hfault => ?_, fun _ => hret.length_lt⟩
    rw [hret.mapFault_eq] at hfault
    cases hfault
  | reduce =>
    have hnone : job.reduceFault .all d idx = none := h
    intro fault hfault
    rw [hnone] at hfault
    cases hfault

/-- Then the controller returns, with one of the codes of the source. -/
theorem Caught.outcome (h : job.Caught t d) :
    ∃ code, ((job.program t).run .all d).1.outcome = .ok code := by
  obtain ⟨ph, idx⟩ := t
  cases ph with
  | map =>
    cases hd : d job.input with
    | none => exact ⟨-1, @mapTask_missing job .all d idx hd⟩
    | some content =>
      obtain ⟨hint, hlen⟩ := h content hd
      have hout := @mapTask_outcome job content .all d idx hd
      rw [show job.program ⟨.map, idx⟩ = job.mapTask idx from rfl, hout]
      cases hfault : job.mapFault content idx with
      | none => exact ⟨0, if_pos (hlen hfault)⟩
      | some fault =>
        obtain ⟨n, rfl⟩ := hint fault hfault
        exact ⟨-2, rfl⟩
  | reduce =>
    rw [show job.program ⟨.reduce, idx⟩ = job.reduceTask idx from rfl, reduceTask_outcome]
    cases hfault : job.reduceFault .all d idx with
    | none => exact ⟨0, rfl⟩
    | some fault =>
      obtain ⟨n, rfl⟩ := h fault hfault
      exact ⟨-3, rfl⟩

theorem Succeeds.outcome (h : job.Succeeds t d) :
    ((job.program t).run .all d).1.outcome = .ok 0 := by
  obtain ⟨ph, idx⟩ := t
  cases ph with
  | map =>
    obtain ⟨content, hd, hret⟩ := h
    exact @mapTask_returns job content .all d idx hret hd
  | reduce =>
    have hnone : job.reduceFault .all d idx = none := h
    rw [show job.program ⟨.reduce, idx⟩ = job.reduceTask idx from rfl, reduceTask_outcome, hnone]
    rfl

/-- A controller performs an operation before it returns, so that there is a step at which it
begins. -/
theorem program_ne_done (t : Task) (res : TaskResult) : job.program t ≠ .done res := by
  obtain ⟨ph, idx⟩ := t
  cases ph with
  | map =>
    obtain ⟨k, hk, -, -⟩ := @mapTask_read job idx
    rw [show job.program ⟨.map, idx⟩ = job.mapTask idx from rfl, hk]
    intro h
    cases h
  | reduce =>
    obtain ⟨n, hn⟩ := Nat.exists_eq_succ_of_ne_zero job.nrMapper_pos.ne'
    rw [show job.program ⟨.reduce, idx⟩ = job.reduceTask idx from rfl, reduceTask,
      reduceControllerModule, hn, List.range_succ_eq_map]
    intro h
    cases h

end Job

/-! ### Controllers on their way

From the first operation on the outcome is settled, for a mapper on any disk, since it has the
input in memory, for a reducer on the disk as it is, since the files it has yet to read do not
change. -/

/-- The outcome of a controller that has begun is in `P`. For a mapper no disk is needed to say
so, and another controller may write over the input. -/
def Exec.Settled (P : Outcome → Prop) (e : Exec) (d : Disk) : Prop :=
  match e.task.phase with
  | .map => e.prog.Results fun res => P res.outcome
  | .reduce => P (e.prog.run .all d).1.outcome

/-- The first operation settles the outcome the controller has from the disk. -/
theorem settled_of_begin {opened : List Path}
    (hP : P ((job.program t).run .all d).1.outcome)
    (h : (job.program t).step .all d = some (prog, d')) :
    Exec.Settled P ⟨t, prog, opened⟩ d' := by
  obtain ⟨ph, idx⟩ := t
  cases ph with
  -- Behind the read of the input the outcome no longer depends on the disk.
  | map =>
    obtain ⟨k, hk, hnone, hcontent⟩ := @Job.mapTask_read job idx
    rw [show job.program ⟨.map, idx⟩ = job.mapTask idx from rfl] at hP h
    rw [hk] at h
    obtain ⟨rfl, rfl⟩ := Prod.mk.inj (Option.some.inj h)
    rw [hk, FileProg.run] at hP
    unfold Exec.Settled
    simp only [Access.all_view] at hP ⊢
    cases hd : d job.input with
    | none =>
      rw [hd, hnone] at hP
      rw [hnone]
      exact hP
    | some content =>
      rw [hd] at hP
      refine (hcontent content).imp fun res hres => ?_
      rw [hres, ← (hcontent content).run d]
      exact hP
  | reduce =>
    unfold Exec.Settled
    simp only
    rw [run_of_step h]
    exact hP

theorem Exec.Settled.step {e : Exec} {opened : List Path} (he : e.Settled P d)
    (h : e.prog.step .all d = some (prog, d')) : Exec.Settled P ⟨e.task, prog, opened⟩ d' := by
  obtain ⟨⟨ph, idx⟩, prog₀, opened₀⟩ := e
  cases ph with
  | map => exact Results.step he h
  | reduce =>
    unfold Exec.Settled at he ⊢
    simp only at he h ⊢
    rwa [run_of_step h]

/-- A controller at its end has an outcome in `P`. -/
theorem Exec.Settled.outcome {e : Exec} {res : TaskResult} (he : e.Settled P d)
    (h : e.prog = .done res) : P res.outcome := by
  obtain ⟨⟨ph, idx⟩, prog₀, opened₀⟩ := e
  obtain rfl : prog₀ = .done res := h
  cases ph with
  | map => exact he
  | reduce => exact he

/-- Another controller of the same phase does not unsettle it, as it writes nothing that a
reducer reads. -/
theorem Exec.Settled.congr {e : Exec} (he : e.Settled P d)
    (hwithin : e.prog.Within (job.reads e.task) (job.writes e.task))
    (hd : e.task.phase = .reduce → ∀ x ∈ job.reads e.task, d' x = d x) : e.Settled P d' := by
  obtain ⟨⟨ph, idx⟩, prog₀, opened₀⟩ := e
  cases ph with
  | map => exact he
  | reduce =>
    have hRW : ∀ x ∈ job.reads ⟨.reduce, idx⟩, x ∉ job.writes ⟨.reduce, idx⟩ :=
      fun x hx => Job.reads_apart_of_reduce rfl rfl hx
    unfold Exec.Settled at he ⊢
    simp only at he ⊢
    rwa [@run_fst_congr _ _ _ _ Access.all _ _ _ hwithin hRW _ _ (hd rfl)]

/-! ### Runs

The condition is put on the moment at which a controller begins and comes back at its end. In
between the invariant `Ends` carries it, whatever happens to the process. -/

/-- Whenever a controller is about to perform its first operation, its task and the disk meet a
condition. A controller that a killed process had begun begins once more in the next one. -/
def Begins (job : Job) (C : Task → Disk → Prop) (s : State) (l : Label) : Prop :=
  ∀ p k e, l = .file p k → (s.servers p).running[k]? = some e → e.prog = job.program e.task →
    C e.task s.disk

/-- Every running controller has not begun or is going to end in `P`. -/
def Ends (job : Job) (P : Outcome → Prop) (s : State) : Prop :=
  ∀ p, ∀ e ∈ (s.servers p).running, e.prog = job.program e.task ∨ e.Settled P s.disk

/-- The first operation settles the outcome, and no other operation unsettles it. -/
theorem Ends.step (h : Ends job P s) (hC : ∀ t d, C t d → P ((job.program t).run .all d).1.outcome)
    (hi : Orderly job s) (hcr : Credit s) (hconf : Confined job s) (hb : Begins job C s l)
    (hs : Step job s l s') : Ends job P s' := by
  intro q e' he'
  rcases hs.files with ⟨p, k, e, prog, d, hl, hk, hop, rfl⟩ | ⟨hdisk, hrun⟩
  · have he := List.mem_of_getElem? hk
    obtain ⟨-, hframe⟩ := (hconf p e he).1.step hop
    rcases State.mem_perform hk he' with ⟨rfl, rfl⟩ | hold
    · right
      rcases h q e he with hfresh | hsettled
      · exact settled_of_begin (hC _ _ (hb q k e hl hk hfresh)) (hfresh ▸ hop)
      · exact hsettled.step hop
    · have hmem : e' ∈ (s.servers q).running := by
        rcases hold with ⟨hold, -⟩ | ⟨rfl, j, -, hj⟩
        · exact hold
        · exact List.mem_of_getElem? hj
      refine (h q e' hmem).imp id fun hsettled => hsettled.congr (hconf q e' hmem).1 ?_
      intro hred x hx
      refine hframe x fun hx' => ?_
      -- The controller that has performed the operation is a reducer too.
      have hph : e.task.phase = .reduce := by
        rw [(hcr.running hi he).1]
        rwa [(hcr.running hi hmem).1] at hred
      exact Job.reads_apart_of_reduce hred hph hx hx'
  -- A controller that is started has not begun.
  · rw [hdisk]
    rcases hrun q e' he' with hold | ⟨t, -, rfl⟩
    · exact h q e' hold
    · exact .inl rfl

/-- A call that returns in a step returns a code in `P`: the controller has begun, as it is at
its end. -/
theorem Ends.returned (h : Ends job P s) (ht : Topology job s) (hs : Step job s l s')
    (hret : ∀ p, ∀ r ∈ (s.servers p).returned, P (.ok r.2)) :
    ∀ p, ∀ r ∈ (s'.servers p).returned, P (.ok r.2) := by
  intro q r hr
  rcases hs.returned ht with hsame | ⟨p, e, res, code, he, hprog, hres, hself, hne⟩
  · rw [hsame] at hr
    exact hret q r hr
  · by_cases hq : q = p
    · subst hq
      rw [hself] at hr
      rcases List.mem_append.mp hr with hr | hr
      · exact hret q r hr
      · rw [List.mem_singleton.mp hr]
        rcases h q e he with hfresh | hsettled
        · exact absurd (hfresh.symm.trans hprog) (Job.program_ne_done _ _)
        · rw [← hres]
          exact hsettled.outcome hprog
    · rw [hne q hq] at hr
      exact hret q r hr

/-- What holds of the outcomes of all controllers when they begin holds of them when they
end, and of all codes. -/
theorem ends_of_reaches {ok : State → Label → Prop}
    (hC : ∀ t d, C t d → P ((job.program t).run .all d).1.outcome)
    (hok : ∀ s l, ok s l → Begins job C s l)
    (h : Transition.Reaches (step job) ok (.init d) s) :
    Ends job P s ∧ ∀ p, ∀ r ∈ (s.servers p).returned, P (.ok r.2) := by
  induction h with
  | refl => exact ⟨fun p e he => (by cases he), fun p r hr => (by cases hr)⟩
  | tail hr hl hstep ih =>
    have hs := step_cases hstep
    have hi := orderly_of_reaches hr
    exact ⟨ih.1.step hC hi (credit_of_reaches hr) (confined_of_reaches hr) (hok _ _ hl) hs,
      ih.1.returned hi.topology hs ih.2⟩

/-- What every result of every controller has, the result of a running one will have. -/
theorem results_of_reaches {ok : State → Label → Prop} {Q : TaskResult → Prop}
    (hQ : ∀ t, (job.program t).Results Q)
    (h : Transition.Reaches (step job) ok (.init d) s) :
    ∀ p, ∀ e ∈ (s.servers p).running, e.prog.Results Q := by
  induction h with
  | refl =>
    intro p e he
    cases he
  | tail _ _ hstep ih =>
    intro q e' he'
    rcases (step_cases hstep).files with ⟨p, k, e, prog, d, -, hk, hop, rfl⟩ | ⟨-, hrun⟩
    · rcases State.mem_perform hk he' with ⟨rfl, rfl⟩ | ⟨hold, -⟩ | ⟨rfl, j, -, hj⟩
      · exact (ih q e (List.mem_of_getElem? hk)).step hop
      · exact ih q e' hold
      · exact ih q e' (List.mem_of_getElem? hj)
    · rcases hrun q e' he' with hold | ⟨t, -, rfl⟩
      · exact ih q e' hold
      · exact hQ t

/-! ### What a return of `process` means

The master sees flags, and a flag is set behind every code. So a return says that all tasks have
returned, and what they have returned is for the condition to say. -/

/-- **`process` returns after nothing but successful calls**, in every run in which a
mapper that is about to read finds the input and `map_fn` throws for none of its records,
and `reduce_fn` throws for nothing a reducer that is about to read is going to find. Every
task has then returned 0, every call has, and the temp and output files are those of this
run. -/
theorem success_of_returned
    (h : Transition.Reaches (step job) (Begins job job.Succeeds) (.init d) s)
    (hc : s.ctrl = .returned) :
    Errorless s ∧
      (∀ ph, ∀ w < job.count ph, ∃ p, (⟨ph, w⟩, 0) ∈ (s.servers p).returned) ∧
      (job.Sound → ∀ content, d job.input = some content → ∀ t : Task, t.id < job.count t.phase →
        job.Written content t s.disk) := by
  have herr : Errorless s := by
    intro p r hr
    have hcode := (ends_of_reaches (P := (· = .ok 0)) (fun t d ht => ht.outcome)
      (fun _ _ hb => hb) h).2 p r hr
    exact Except.ok.inj hcode
  have hi := orderly_of_reaches h
  refine ⟨herr, fun ph w hw => ?_, fun hb content hd t ht => ?_⟩
  · have hfin : s.ctrl.finished ph = true := by
      cases ph <;> simp [Ctrl.finished, hc, Ctrl.phase, Ctrl.stopping]
    obtain ⟨-, p, -, hret⟩ := (credit_of_reaches h).status ph w (hi.control.finished ph hfin w hw)
    obtain ⟨code, hcode⟩ := Server.returns_pos.mp hret
    obtain rfl : code = 0 := herr p _ hcode
    exact ⟨p, hcode⟩
  · exact ((files_of_reaches hb hd h).1 herr).written hi hc ht

/-- Where the functions never throw every controller is going to succeed, if nothing writes
over the input. -/
theorem begins_succeeds (hret : job.Returns) (hd : d job.input = some content)
    (hlen : (lines '\n' content).length < 2 ^ 31)
    (hapart : ∀ t : Task, t.id < job.nrMapper → job.input ∉ job.writes t)
    {ok : State → Label → Prop} (h : Transition.Reaches (step job) ok (.init d) s) (l : Label) :
    Begins job job.Succeeds s l := by
  intro p k e _ _ _
  obtain ⟨⟨ph, idx⟩, prog, opened⟩ := e
  cases ph with
  | map => exact ⟨content, (frame_of_reaches hapart h).trans hd, hlen, fun kv _ => hret.map _ _⟩
  | reduce => exact List.findSome?_eq_none_iff.mpr fun e _ => hret.reduce _ _

/-- No task of a sample job writes its input file. -/
theorem sampleJob_writes {hashers : Hashers} {iface : MapReduceInterface} {n : ℕ}
    {hn : 0 < n ∧ n < 2 ^ 31} (t : Task) (ht : t.id < n) :
    (Job.sampleJob hashers iface n hn).input ∉ (Job.sampleJob hashers iface n hn).writes t := by
  have hapart := @Job.sampleJob_inputApart hashers iface n hn
  obtain ⟨ph, idx⟩ := t
  intro hmem
  cases ph with
  | map =>
    obtain ⟨r, hr, he⟩ := hmem
    exact hapart.temp idx ht r hr he
  | reduce => exact hapart.output idx ht hmem

/-- A test of `Succeeds`. -/
def Job.succeedsTest (job : Job) (t : Task) (d : Disk) : Bool :=
  match t with
  | ⟨.map, idx⟩ => (d job.input).any fun content =>
      decide ((lines '\n' content).length < 2 ^ 31) && (job.mapFault content idx).isNone
  | ⟨.reduce, idx⟩ => (job.reduceFault .all d idx).isNone

theorem Job.succeeds_of_test (h : job.succeedsTest t d = true) : job.Succeeds t d := by
  obtain ⟨ph, idx⟩ := t
  cases ph with
  | map =>
    obtain ⟨content, hd, htest⟩ := (Option.any_eq_true _ _).mp h
    obtain ⟨hlen, hnone⟩ := Bool.and_eq_true_iff.mp htest
    exact ⟨content, hd, .of_mapFault (of_decide_eq_true hlen) (Option.isNone_iff_eq_none.mp hnone)⟩
  | reduce => exact Option.isNone_iff_eq_none.mp h

/-- A test of `Begins`, at all operations of a controller. -/
def beginsTest (job : Job) (s : State) : Label → Bool
  | .file p k => (s.servers p).running[k]?.all fun e => job.succeedsTest e.task s.disk
  | _ => true

/-- A run whose file steps pass the test is one of those the result is about. -/
theorem begins_of_test (h : beginsTest job s l = true) : Begins job job.Succeeds s l := by
  rintro p k e rfl hk -
  exact Job.succeeds_of_test ((Option.all_eq_true _ _).mp h e hk)

/-- Two workers whose functions throw for `x` only, over lines without it. -/
theorem success_of_returned_picky :
    ∃ s, Transition.run (Transition.guarded (beginsTest (Job.picky 2 Job.two_workers))
        (step (Job.picky 2 Job.two_workers))) twoWorkersRun (.init (Job.sampleDisk Job.sampleLines)) =
          some s ∧
      s.ctrl = .returned ∧ Errorless s ∧
      s.disk ((Job.picky 2 Job.two_workers).output 0) = some "aa 0 2 \n".toList := by
  have hrun : (Transition.run (Transition.guarded (beginsTest (Job.picky 2 Job.two_workers))
      (step (Job.picky 2 Job.two_workers))) twoWorkersRun (.init (Job.sampleDisk Job.sampleLines))).map
        (fun s => (s.ctrl, s.disk ((Job.picky 2 Job.two_workers).output 0))) =
      some (.returned, some "aa 0 2 \n".toList) := by decide +kernel
  obtain ⟨s, hs, heq⟩ := Option.map_eq_some_iff.mp hrun
  obtain ⟨hc, hout⟩ := Prod.mk.inj heq
  obtain ⟨herr, -, -⟩ := success_of_returned
    (Transition.reaches_of_tested (fun _ _ => begins_of_test) hs) hc
  exact ⟨s, hs, hc, herr, hout⟩

/-- A directory without the input file, but with a temp file of an earlier run. -/
def staleDisk : Disk :=
  Function.update (fun _ => none) (Job.oneWorker.temp 0 0) (some "a 0\n".toList)

/-- `process` returns after the only map call has returned -1, with an output file made
from the temp file of the earlier run. -/
theorem returned_after_failure :
    ¬ (∀ s, Transition.Reaches (step Job.oneWorker) CrashFree (.init staleDisk) s →
      s.ctrl = .returned → Errorless s) ∧
    ∃ s, Transition.Reaches (step Job.oneWorker) CrashFree (.init staleDisk) s ∧
      s.ctrl = .returned ∧ (s.servers 0).returned = [(⟨.map, 0⟩, -1), (⟨.reduce, 0⟩, 0)] ∧
        s.disk (Job.oneWorker.output 0) = some "a 0 \n".toList := by
  have hrun : (Transition.run (step Job.oneWorker)
      [List.replicate 4 .master, [.connect 0 0, .master, .master, .execute 0 0, .file 0 0, .file 0 0],
        [.master, .master, .execute 0 0], List.replicate 5 .master, [.execute 0 0],
        List.replicate 7 (.file 0 0), [.master, .master, .execute 0 0],
        List.replicate 5 .master].flatten
      (.init staleDisk)).map (fun s => (s.ctrl, (s.servers 0).returned,
        s.disk (Job.oneWorker.output 0))) =
      some (.returned, [(⟨.map, 0⟩, -1), (⟨.reduce, 0⟩, 0)], some "a 0 \n".toList) := by
    decide +kernel
  obtain ⟨s, hs, heq⟩ := Option.map_eq_some_iff.mp hrun
  simp only [Prod.mk.injEq] at heq
  obtain ⟨hc, hret, hout⟩ := heq
  have hfree : Transition.Reaches (step Job.oneWorker) CrashFree (.init staleDisk) s :=
    Transition.reaches_of_labels (fun l hl _ p he => by subst he; simp at hl) hs
  refine ⟨fun hall => ?_, s, hfree, hc, hret, hout⟩
  have hzero := hall s hfree hc 0 (⟨.map, 0⟩, -1) (by rw [hret]; exact List.mem_cons_self)
  exact absurd hzero (by omega)

end MapReduceCpp
