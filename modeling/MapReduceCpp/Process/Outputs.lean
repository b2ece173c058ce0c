import MapReduceCpp.Process.Outcomes

/-!
# MapReduceCpp.Process.Outputs

What the output files of a run hold.

`Files` follows the files of both phases, but only up to the first call that fails. For the
output files less is enough: whatever the mappers have returned and whatever their temp
files hold, a reducer that is thrown nothing at replaces its output file by what
`reduce_fn` emits for the keys in these temp files (`Job.Produced`). Nobody writes temp
files in the reduce phase, so what a reducer has produced stays its product.

The invariant is `OutputsWritten`. As in `Files` a reducer that is still running may have
been started by a second process over a half-written output file, so the file is there only
for a reducer that has been reported done, or that has returned behind its client.
-/

namespace MapReduceCpp

open FileProg

variable {job : Job} {s s' : State} {l : Label} {w p q r : ℕ} {d d' : Disk}
  {prog prog' : FileProg Path Char TaskResult}

namespace Job

/-! ### One reducer

What a reducer makes of the temp files it finds, whoever wrote them and however far they got. -/

/-- The output file of a reducer holds what `reduce_fn` emits for the keys in its temp files,
with the files as they are. -/
def Produced (job : Job) (r : ℕ) (d : Disk) : Prop :=
  d (job.output r) = some (entriesText
    ((reducerEntries .all d job.outputResultDirectory job.nrMapper r).flatMap fun e =>
      (job.iface.reduceFn e.1 e.2).1))

/-- What a controller is met with before it begins does not end it: a mapper is thrown
nothing but an `int` at, a reducer nothing at all. -/
def Clean (job : Job) (t : Task) (d : Disk) : Prop :=
  job.Caught t d ∧ (t.phase = .reduce → job.Succeeds t d)

theorem Succeeds.clean {t : Task} (h : job.Succeeds t d) : job.Clean t d := ⟨h.caught, fun _ => h⟩

/-- The rest of a reducer returns 0 and leaves its output file. -/
def Produces (job : Job) (r : ℕ) (prog : FileProg Path Char TaskResult) (d : Disk) : Prop :=
  (prog.run .all d).1.outcome = .ok 0 ∧ job.Produced r (prog.run .all d).2

/-- What a reducer finds depends on its temp files only. -/
theorem reducerEntries_congr (hd : ∀ x ∈ job.reads ⟨.reduce, r⟩, d' x = d x) :
    reducerEntries .all d' job.outputResultDirectory job.nrMapper r =
      reducerEntries .all d job.outputResultDirectory job.nrMapper r := by
  have hread : ∀ m ∈ List.range job.nrMapper,
      filePairs (Access.all.view d' (tempPath job.outputResultDirectory m r)) =
        filePairs (Access.all.view d (tempPath job.outputResultDirectory m r)) := by
    intro m hm
    rw [Access.all_view, Access.all_view, hd _ ⟨m, List.mem_range.mp hm, rfl⟩]
  rw [reducerEntries, reducerEntries, gathered, gathered, List.flatMap_congr hread]

/-- A product depends on the temp files and the output file only. -/
theorem Produced.congr (h : job.Produced r d)
    (hd : ∀ x, x ∈ job.reads ⟨.reduce, r⟩ ∨ x ∈ job.writes ⟨.reduce, r⟩ → d' x = d x) :
    job.Produced r d' := by
  rw [Produced, reducerEntries_congr fun x hx => hd x (.inl hx),
    hd _ (.inr (Set.mem_singleton _))]
  exact h

/-- So does what the rest of a reducer does. -/
theorem Produces.congr (h : job.Produces r prog d)
    (hwithin : prog.Within (job.reads ⟨.reduce, r⟩) (job.writes ⟨.reduce, r⟩))
    (hd : ∀ x, x ∈ job.reads ⟨.reduce, r⟩ ∨ x ∈ job.writes ⟨.reduce, r⟩ → d' x = d x) :
    job.Produces r prog d' := by
  obtain ⟨hres, hfoot⟩ := @run_congr _ _ _ _ Access.all _ _ _ hwithin _ _ hd
  refine ⟨?_, h.2.congr hfoot⟩
  rw [hres]
  exact h.1

/-- A reducer that is going to be thrown nothing at produces its output file. -/
theorem Succeeds.produces (h : job.Succeeds ⟨.reduce, r⟩ d) :
    job.Produces r (job.program ⟨.reduce, r⟩) d := by
  have hreturns : ∀ e ∈ reducerEntries .all d job.outputResultDirectory job.nrMapper r,
      (job.iface.reduceFn e.1 e.2).2 = none := List.findSome?_eq_none_iff.mp h
  have hrun : (job.program ⟨.reduce, r⟩).run .all d = (_, Function.update d (job.output r) _) :=
    @run_reduceControllerModule _ _ job.nrReducer _ _ _ _ hreturns
  -- The new file is the product of the temp files, which are still the old ones.
  have hreads : ∀ x ∈ job.reads ⟨.reduce, r⟩, ((job.program ⟨.reduce, r⟩).run .all d).2 x = d x := by
    intro x hx
    have hne : x ≠ job.output r := fun he =>
      @reads_apart_of_reduce job ⟨.reduce, r⟩ ⟨.reduce, r⟩ rfl rfl x hx (Set.mem_singleton_iff.mpr he)
    rw [hrun]
    exact Function.update_of_ne hne _ _
  refine ⟨by rw [hrun], ?_⟩
  rw [Produced, reducerEntries_congr hreads, hrun]
  exact Function.update_self ..

end Job

/-! ### The invariant

The disk changes in the reduce phase by the operations of reducers alone, and each of them
changes its own output file. So the temp files are fixed, and a product stays one until its
reducer writes it again. -/

/-- What is known of the reducers and their output files, with nothing about the map phase but
that it is over. -/
structure OutputsWritten (job : Job) (s : State) : Prop where
  /-- A reducer has not begun, or is about to leave its product. -/
  running : ∀ p, ∀ e ∈ (s.servers p).running, ∀ r, e.task = ⟨.reduce, r⟩ →
    e.prog = job.program e.task ∨ job.Produces r e.prog s.disk
  codes : ∀ p r code, (⟨.reduce, r⟩, code) ∈ (s.servers p).returned → code = 0
  status : ∀ w : ℕ, (s.phases .reduce).taskStatus[w]? = some 1 → job.Produced w s.disk
  /-- A product is there before the master knows, as with the files of both phases. -/
  linked : ∀ w p, s.linked w = some p → 0 < (s.servers p).returns ⟨.reduce, w⟩ →
    job.Produced w s.disk

theorem outputsWritten_init (d : Disk) : OutputsWritten job (.init d) where
  running := by intro p e he; cases he
  codes := by intro p r code h; cases h
  status := by intro w h; cases h
  linked := by intro w p h; cases h

/-- A reducer at its end has produced its output file and returns 0. -/
theorem OutputsWritten.done (h : OutputsWritten job s) {e : Exec} {res : TaskResult} {code : ℤ}
    (he : e ∈ (s.servers p).running) (htask : e.task = ⟨.reduce, r⟩) (hprog : e.prog = .done res)
    (hres : res.outcome = .ok code) : code = 0 ∧ job.Produced r s.disk := by
  rcases h.running p e he r htask with hfresh | ⟨hout, hproduced⟩
  · exact absurd (hfresh.symm.trans hprog) (Job.program_ne_done _ _)
  · rw [hprog] at hout hproduced
    exact ⟨Except.ok.inj (hres.symm.trans hout), hproduced⟩

/-- A reducer has returned in the reduce phase only. -/
theorem Orderly.phase_of_returns (h : Orderly job s)
    (hret : 0 < (s.servers p).returns ⟨.reduce, r⟩) : s.ctrl.phase = .reduce :=
  h.accounting.early p r (Nat.lt_of_lt_of_le hret ((h.coherent p).returns_le _))

/-- Steps that leave the disk alone keep the products. A call that returns is that of a reducer
at its end, which has left one. -/
theorem OutputsWritten.calm (h : OutputsWritten job s) (hi : Orderly job s) (hi' : Orderly job s')
    (hs : Step job s l s') (hdisk : s'.disk = s.disk)
    (hrun : ∀ p, ∀ e ∈ (s'.servers p).running, e ∈ (s.servers p).running ∨
      ∃ t, .task t ∈ (s.servers p).inbox ∧ e = ⟨t, job.program t, []⟩) :
    OutputsWritten job s' := by
  refine ⟨fun p e he r htask => ?_, fun q r code hmem => ?_, fun w hone => ?_,
    fun w p hp hret => ?_⟩
  · rw [hdisk]
    rcases hrun p e he with hold | ⟨t, -, rfl⟩
    · exact h.running p e hold r htask
    · exact .inl rfl
  · rcases hs.returned hi.topology with hsame | ⟨p, e, res, code', he, hprog, hres, hself, hne⟩
    · rw [hsame] at hmem
      exact h.codes q r code hmem
    · by_cases hq : q = p
      · subst hq
        rw [hself] at hmem
        rcases List.mem_append.mp hmem with hmem | hmem
        · exact h.codes q r code hmem
        · obtain ⟨htask, rfl⟩ := Prod.mk.inj (List.mem_singleton.mp hmem)
          exact (h.done he htask.symm hprog hres).1
      · rw [hne q hq] at hmem
        exact h.codes q r code hmem
  · rw [hdisk]
    rcases hs.status_one hone with hold | ⟨p, hp, hr⟩
    · exact h.status w hold
    · have hret := hi.returns_of_reply hr
      rw [(hi.topology.linked w p hp).2] at hret
      exact h.linked w p hp hret
  · rw [hdisk]
    rcases hs.returns hi.topology hret with hold | ⟨e, he, htask, res, code, hprog, hres, -⟩
    · exact h.linked w p (hi.linked_of_step hi' hs hp hold) hold
    · exact (h.done he htask hprog hres).2

/-- A file operation of one controller keeps the products of all others, and the controller on
its way to its own. -/
theorem OutputsWritten.perform (h : OutputsWritten job s) (hi : Orderly job s) (hcr : Credit s)
    (hconf : Confined job s) {k : ℕ} {e : Exec} (hk : (s.servers p).running[k]? = some e)
    (hclean : e.prog = job.program e.task → job.Clean e.task s.disk)
    (hop : e.prog.step .all s.disk = some (prog, d)) :
    OutputsWritten job (s.perform p k e prog d) := by
  have he := List.mem_of_getElem? hk
  obtain ⟨-, hframe⟩ := (hconf p e he).1.step hop
  obtain ⟨htask, hone⟩ := hcr.running hi he
  -- The files of another reducer are none of those the operation can change.
  have hapart : ∀ r, e.task.phase = .reduce → ⟨.reduce, r⟩ ≠ e.task →
      ∀ x, x ∈ job.reads ⟨.reduce, r⟩ ∨ x ∈ job.writes ⟨.reduce, r⟩ → d x = s.disk x := by
    intro r hphase hne x hx
    refine hframe x ?_
    rcases hx with hx | hx
    · exact Job.reads_apart_of_reduce rfl hphase hx
    · exact Job.writes_apart hne hx
  -- A quiet task is not the one that is being run.
  have hquiet : ∀ r, s.ctrl.phase = .reduce → Quiet s ⟨.reduce, r⟩ → job.Produced r s.disk →
      job.Produced r d := by
    intro r hphase hq hproduced
    refine hproduced.congr (hapart r (by rw [htask]; exact hphase) fun heq => ?_)
    have hzero := hq.inProgress (hi.coherent p) (hi.running he).1
    rw [heq] at hzero
    omega
  refine ⟨fun q e' he' r hr => ?_, fun q r code hmem => ?_, fun w hw => ?_, fun w q hq hret => ?_⟩
  · rcases State.mem_perform hk he' with ⟨rfl, rfl⟩ | hold
    · -- The controller itself: it has just begun, or it was on its way already.
      right
      have hproduces : job.Produces r e.prog s.disk := by
        rcases h.running q e he r hr with hfresh | hproduces
        · rw [hfresh]
          have hbegin := (hclean hfresh).2 (congrArg Task.phase hr)
          rw [show e.task = ⟨.reduce, r⟩ from hr] at hbegin ⊢
          exact hbegin.produces
        · exact hproduces
      show job.Produces r prog d
      unfold Job.Produces
      rw [run_of_step hop]
      exact hproduces
    · have hmem : e' ∈ (s.servers q).running := by
        rcases hold with ⟨hold, -⟩ | ⟨rfl, j, -, hj⟩
        · exact hold
        · exact List.mem_of_getElem? hj
      refine (h.running q e' hmem r hr).imp id fun hproduces => hproduces.congr ?_ ?_
      · rw [← hr]
        exact (hconf q e' hmem).1
      · refine hapart r ?_ (hr ▸ hcr.distinct hi hk hold)
        rw [htask, ← show e'.task.phase = s.ctrl.phase from by rw [(hcr.running hi hmem).1], hr]
  · rw [State.returned_perform] at hmem
    exact h.codes q r code hmem
  · obtain ⟨hq, p', -, hret⟩ := hcr.status .reduce w hw
    exact hquiet w (hi.phase_of_returns hret) hq (h.status w hw)
  · rw [State.returns_perform] at hret
    exact hquiet w (hi.phase_of_returns hret) (hcr.linked .reduce w q hq hret) (h.linked w q hq hret)

/-- Whatever is killed: if no reducer finds anything that makes `reduce_fn` throw, all codes
of reducers are 0, and a reducer that is reported done has written its output file. -/
theorem outputsWritten_of_reaches
    (h : Transition.Reaches (step job) (Begins job job.Clean) (.init d) s) :
    OutputsWritten job s := by
  induction h with
  | refl => exact outputsWritten_init d
  | tail hr hok hstep ih =>
    have hs := step_cases hstep
    have hi := orderly_of_reaches hr
    rcases hs.files with ⟨p, k, e, prog, d', hl, hk, hop, rfl⟩ | ⟨hdisk, hrun⟩
    · exact ih.perform hi (credit_of_reaches hr) (confined_of_reaches hr) hk
        (fun hfresh => hok p k e hl hk hfresh) hop
    · exact ih.calm hi (orderly_of_reaches (.tail hr hok hstep)) hs hdisk hrun

end MapReduceCpp
