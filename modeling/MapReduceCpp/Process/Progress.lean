import MapReduceCpp.Process.Outcomes

/-!
# MapReduceCpp.Process.Progress

A run without crashes that gets to its end.

The run is built loop by loop: all processes are forked and connected, then in each phase
all tasks are sent, done one after the other and reported in one sweep. What a loop takes
from one worker to the next is a `Scene`, with what the processes of the workers before and
behind it look like. The tasks of a phase are done in order, so the disks are those of a
sequential run (`Job.sequential`).

No controller may end its process. What a controller is thrown at depends on the disk it
finds when it begins, so the condition is one on the runs themselves (`Catching`): it is
applied to the very run that is being built, each time a controller is about to begin.
-/

namespace MapReduceCpp

open FileProg

variable {job : Job} {s s' s'' : State} {ph : Phase} {w p : ℕ} {t : Task} {d d' d₀ : Disk} {c : Ctrl}
  {A B : ℕ → Server → Prop}

/-- A crash-free run leads from a state to another. The steps of such a run are given by their
cases (`Step.enabled`). -/
abbrev Leads (job : Job) (s s' : State) : Prop := Transition.Reaches (step job) CrashFree s s'

theorem Leads.master (h : Step job s .master s') (hc : s'.ctrl ≠ .undefined) : Leads job s s' :=
  .single (fun _ he => by cases he) (h.enabled hc)

theorem Leads.execute {k : ℕ} (h : Step job s (.execute p k) s') (hc : s'.ctrl ≠ .undefined) :
    Leads job s s' :=
  .single (fun _ he => by cases he) (h.enabled hc)

theorem Leads.file {k : ℕ} (h : Step job s (.file p k) s') (hc : s'.ctrl ≠ .undefined) :
    Leads job s s' :=
  .single (fun _ he => by cases he) (h.enabled hc)

theorem Leads.connect (h : Step job s (.connect w p) s') (hc : s'.ctrl ≠ .undefined) :
    Leads job s s' :=
  .single (fun _ he => by cases he) (h.enabled hc)

/-! ### Scenes

A state of the run is known by the place of the master and by what each process looks like. A
loop over the workers turns processes of one look into those of another, one in each pass. -/

/-- The master is at a place, all clients lead to the processes forked first, and each of these
is as described. Nothing is said of the master's vectors, which the loops take along by
themselves. -/
structure Scene (job : Job) (s : State) (c : Ctrl) (d : Disk) (V : ℕ → Server → Prop) : Prop where
  place : s.ctrl = c
  made : ∀ w < job.nrMapper, s.clientPool[w]? = some (.connected w)
  servers : ∀ p < job.nrMapper, V p (s.servers p)
  disk : s.disk = d

/-- The processes of the first `w` workers are as in `A`, the others as in `B`. -/
def upTo (w : ℕ) (A B : ℕ → Server → Prop) (p : ℕ) (v : Server) : Prop :=
  if p < w then A p v else B p v

theorem Scene.linked {V : ℕ → Server → Prop} (h : Scene job s c d V) (hw : w < job.nrMapper) :
    s.linked w = some w := State.linked_of_client (h.made w hw)

/-- The process whose turn it is looks as before. -/
theorem Scene.next (h : Scene job s c d (upTo w A B)) (hw : w < job.nrMapper) :
    B w (s.servers w) := by
  have hV := h.servers w hw
  rwa [upTo, if_neg (Nat.lt_irrefl w)] at hV

/-- The next process is as in `A` now, and nothing has happened to the others. -/
theorem Scene.advance (h : Scene job s c d (upTo w A B)) (hA : A w (s'.servers w))
    (hrest : ∀ p, p ≠ w → s'.servers p = s.servers p) :
    ∀ p < job.nrMapper, upTo (w + 1) A B p (s'.servers p) := by
  intro p hp
  unfold upTo
  rcases Nat.lt_trichotomy p w with hlt | rfl | hgt
  · have hV := h.servers p hp
    rw [upTo, if_pos hlt] at hV
    rw [if_pos (Nat.lt_succ_of_lt hlt), hrest p (Nat.ne_of_lt hlt)]
    exact hV
  · rw [if_pos (Nat.lt_succ_self p)]
    exact hA
  · have hV := h.servers p hp
    rw [upTo, if_neg (Nat.lt_asymm hgt)] at hV
    rw [if_neg (by omega), hrest p (Nat.ne_of_gt hgt)]
    exact hV

theorem Scene.start (h : Scene job s c d B) : Scene job s c d (upTo 0 A B) :=
  ⟨h.place, h.made, fun p hp => by
    rw [upTo, if_neg (Nat.not_lt_zero p)]
    exact h.servers p hp, h.disk⟩

theorem Scene.finish (h : Scene job s c d (upTo job.nrMapper A B)) : Scene job s c d A :=
  ⟨h.place, h.made, fun p hp => by
    have hV := h.servers p hp
    rwa [upTo, if_pos hp] at hV, h.disk⟩

/-! ### One task

A worker that has been sent a task does it with nobody in between: it takes it up, performs all
operations and ends the handler. The master stays where it is meanwhile. -/

/-- A live process that runs nothing, and what waits for it. -/
structure Server.Calm (v : Server) (inbox : List Request) : Prop where
  alive : v.alive = true
  inbox : v.inbox = inbox
  running : v.running = []

/-- A task has returned in the process, and its flag is set. -/
structure Server.Did (v : Server) (t : Task) : Prop where
  calm : v.Calm []
  completed : v.completed t.phase = true
  returned : ∃ code, (t, code) ∈ v.returned

/-- Only a process and the disk differ. -/
structure Apart (w : ℕ) (s s' : State) : Prop where
  ctrl : s'.ctrl = s.ctrl
  clientPool : s'.clientPool = s.clientPool
  phases : s'.phases = s.phases
  others : ∀ p, p ≠ w → s'.servers p = s.servers p

theorem Apart.trans (h : Apart w s s') (h' : Apart w s' s'') : Apart w s s'' where
  ctrl := h'.ctrl.trans h.ctrl
  clientPool := h'.clientPool.trans h.clientPool
  phases := h'.phases.trans h.phases
  others := fun p hp => (h'.others p hp).trans (h.others p hp)

theorem apart_setServer (s : State) (w : ℕ) (v : Server) : Apart w s (s.setServer w v) :=
  ⟨rfl, rfl, rfl, fun _ hp => State.setServer_ne s v hp⟩

/-- A process does nothing but a controller, with a program left to do, and is otherwise as
given. -/
def Busy (s : State) (w : ℕ) (v : Server) (t : Task) (prog : FileProg Path Char TaskResult) : Prop :=
  ∃ opened, s.servers w = { v with running := [⟨t, prog, opened⟩] }

theorem Busy.op {v : Server} {prog prog' : FileProg Path Char TaskResult} (h : Busy s w v t prog)
    (hc : s.ctrl ≠ .undefined) (hop : prog.step .all s.disk = some (prog', d')) :
    ∃ s', Leads job s s' ∧ Apart w s s' ∧ s'.disk = d' ∧ Busy s' w v t prog' := by
  obtain ⟨opened, hv⟩ := h
  have hk : (s.servers w).running[0]? = some ⟨t, prog, opened⟩ := by
    rw [hv]
    rfl
  refine ⟨_, .file (.op hk hop) hc, ?_, rfl, openedAfter prog opened, ?_⟩
  · exact ⟨rfl, rfl, rfl, fun _ hp => State.setServer_ne s _ hp⟩
  · simp only [State.setServer_self, hv]
    rfl

/-- A thread takes up the task that waits. -/
theorem leads_start (h : (s.servers w).Calm [.task t]) (hc : s.ctrl ≠ .undefined) :
    ∃ s', Leads job s s' ∧ Apart w s s' ∧ s'.disk = s.disk ∧
      Busy s' w { s.servers w with inbox := [] } t (job.program t) := by
  have hlen : (s.servers w).running.length < 2 := by
    rw [h.running]
    exact Nat.zero_lt_two
  have hk : (s.servers w).inbox[0]? = some (.task t) := by
    rw [h.inbox]
    rfl
  refine ⟨_, .execute (.start hlen hk) hc, apart_setServer s w _, rfl, [], ?_⟩
  rw [State.setServer_self, h.inbox, h.running]
  rfl

theorem leads_finish {v : Server} {res : TaskResult} {code : ℤ} (h : Busy s w v t (.done res))
    (hv : v.Calm []) (hres : res.outcome = .ok code) (hc : s.ctrl ≠ .undefined) :
    ∃ s', Leads job s s' ∧ Apart w s s' ∧ s'.disk = s.disk ∧ (s'.servers w).Did t := by
  obtain ⟨opened, hbusy⟩ := h
  have hk : (s.servers w).running[0]? = some ⟨t, .done res, opened⟩ := by
    rw [hbusy]
    rfl
  refine ⟨_, .file (.finish hk rfl hres) hc, apart_setServer s w _, rfl, ?_⟩
  rw [State.setServer_self, hbusy]
  exact ⟨⟨hv.alive, hv.inbox, rfl⟩, Function.update_self .., code,
    List.mem_append_right _ (List.mem_singleton_self _)⟩

/-- A controller that is left alone gets to its end. -/
def Runs (job : Job) (w : ℕ) (v : Server) (t : Task) (prog : FileProg Path Char TaskResult) : Prop :=
  ∀ s, Busy s w v t prog → s.ctrl ≠ .undefined →
    ∃ s', Leads job s s' ∧ Apart w s s' ∧ s'.disk = (prog.run .all s.disk).2 ∧
      Busy s' w v t (.done (prog.run .all s.disk).1)

/-- To get to the end it is enough to get there after the next operation, from any disk. -/
theorem Runs.of_op {v : Server} {prog : FileProg Path Char TaskResult}
    (h : ∀ d, ∃ prog' d', prog.step .all d = some (prog', d') ∧ Runs job w v t prog') :
    Runs job w v t prog := by
  intro s hbusy hc
  obtain ⟨prog', d', hop, hruns⟩ := h s.disk
  obtain ⟨s₁, hlead, hapart, hdisk, hbusy₁⟩ := @Busy.op job _ _ _ _ _ _ _ hbusy hc hop
  obtain ⟨s₂, hlead', hapart', hdisk', hbusy₂⟩ := hruns s₁ hbusy₁ (by rw [hapart.ctrl]; exact hc)
  rw [← run_of_step hop, ← hdisk]
  exact ⟨s₂, hlead.trans hlead', hapart.trans hapart', hdisk', hbusy₂⟩

/-- So a controller gets to its end, by induction on its program: there is no operation that has
to wait. -/
theorem runs (job : Job) (w : ℕ) (v : Server) (t : Task) (prog : FileProg Path Char TaskResult) :
    Runs job w v t prog := by
  induction prog with
  | done a => exact fun s hbusy _ => ⟨s, .refl, ⟨rfl, rfl, rfl, fun _ _ => rfl⟩, rfl, hbusy⟩
  | read p k ih => exact .of_op fun d => ⟨_, _, rfl, ih _⟩
  | create p k ih => exact .of_op fun d => ⟨_, _, rfl, ih true⟩
  | append p xs k ih => exact .of_op fun d => ⟨_, _, rfl, ih⟩
  | close p k ih => exact .of_op fun d => ⟨_, _, rfl, ih⟩

/-- Whatever is thrown at a controller of a run without crashes is caught. This is about all
such runs, as it is not known beforehand what the disk will be. -/
def Catching (job : Job) (d : Disk) : Prop :=
  ∀ s l, Leads job (.init d) s → Begins job job.Caught s l

/-- A process that has been sent a task can do it: takes it up, gets to the end of the
controller, and ends the handler. -/
theorem leads_task (hcatch : Catching job d₀) (hr : Leads job (.init d₀) s)
    (hcalm : (s.servers w).Calm [.task t]) (hc : s.ctrl ≠ .undefined) :
    ∃ s', Leads job s s' ∧ Apart w s s' ∧ s'.disk = ((job.program t).run .all s.disk).2 ∧
      (s'.servers w).Did t := by
  obtain ⟨s₁, hlead₁, hapart₁, hdisk₁, hbusy₁⟩ := @leads_start job _ _ _ hcalm hc
  have hc₁ : s₁.ctrl ≠ .undefined := by rw [hapart₁.ctrl]; exact hc
  -- The controller is there and has not begun, so what it is going to meet is caught.
  have hcaught : job.Caught t s.disk := by
    obtain ⟨opened, hv⟩ := hbusy₁
    rw [← hdisk₁]
    exact hcatch s₁ (.file w 0) (hr.trans hlead₁) w 0 ⟨t, job.program t, opened⟩ rfl
      (by rw [hv]; rfl) rfl
  obtain ⟨code, hcode⟩ := hcaught.outcome
  obtain ⟨s₂, hlead₂, hapart₂, hdisk₂, hbusy₂⟩ := runs job w _ t _ s₁ hbusy₁ hc₁
  have hc₂ : s₂.ctrl ≠ .undefined := by rw [hapart₂.ctrl]; exact hc₁
  rw [hdisk₁] at hdisk₂ hbusy₂
  obtain ⟨s₃, hlead₃, hapart₃, hdisk₃, hdid⟩ :=
    @leads_finish job _ _ _ _ _ _ hbusy₂ ⟨hcalm.alive, rfl, hcalm.running⟩ hcode hc₂
  exact ⟨s₃, hlead₁.trans (hlead₂.trans hlead₃), hapart₁.trans (hapart₂.trans hapart₃),
    hdisk₃.trans hdisk₂, hdid⟩

/-! ### One phase

All tasks are sent, all are done, and one sweep finds them done. The workers take turns, so the
disk at the end is that of the sequential run, and it is by this that the next controller is
known to be caught. -/

/-- The tasks of a phase, done one after the other. -/
def Job.sequential (job : Job) (ph : Phase) (n : ℕ) (d : Disk) : Disk :=
  (runAll .all ((List.range n).map fun w => job.program ⟨ph, w⟩) d).2

theorem Job.sequential_succ (ph : Phase) (n : ℕ) (d : Disk) :
    job.sequential ph (n + 1) d =
      ((job.program ⟨ph, n⟩).run .all (job.sequential ph n d)).2 := by
  unfold Job.sequential
  simp only [List.range_succ, List.map_append]
  exact runAll_concat _ _ d

/-- All tasks are sent, and each process has its own waiting. -/
theorem leads_dispatch (h : Scene job s (.dispatch ph 0) d fun _ v => v.Calm []) :
    ∃ s', Leads job s s' ∧
      Scene job s' (.dispatch ph job.nrMapper) d fun p v => v.Calm [.task ⟨ph, p⟩] := by
  obtain ⟨s', hlead, hscene⟩ := Transition.Reaches.iterate
    (I := fun i s => Scene job s (.dispatch ph i) d
      (upTo i (fun p v => v.Calm [.task ⟨ph, p⟩]) fun _ v => v.Calm [])) (n := job.nrMapper)
    (fun w hw s hs => by
      have hlead := Leads.master (.send (.dispatch hs.place hw) (hs.linked hw)) fun he => by cases he
      refine ⟨_, hlead, rfl, hs.made, ?_, hs.disk⟩
      refine hs.advance ?_ fun p hp => State.deliver_ne s _ hp
      obtain ⟨halive, hinbox, hrunning⟩ := hs.next hw
      simp only [State.deliver_self]
      refine ⟨halive, ?_, hrunning⟩
      simp only [Server.receive, halive, hinbox, if_true, List.nil_append]) h.start
  exact ⟨s', hlead, hscene.finish⟩

theorem leads_status {V : ℕ → Server → Prop}
    (h : Scene job s (.dispatch ph job.nrMapper) d V) :
    ∃ s', Leads job s s' ∧ Scene job s' (.check ph 0) d V ∧
      (s'.phases ph).taskStatus = List.replicate (job.count ph) 0 ∧ (s'.phases ph).nrDone = 0 := by
  have hlead := Leads.master (.status h.place le_rfl) fun he => by cases he
  refine ⟨_, hlead, ⟨rfl, h.made, h.servers, h.disk⟩, ?_, ?_⟩
  · simp [State.goto, State.setPhase]
  · simp [State.goto, State.setPhase]

/-- All tasks are done, in the order of the workers. -/
theorem leads_tasks (hcatch : Catching job d₀) (hr : Leads job (.init d₀) s)
    (h : Scene job s c d fun p v => v.Calm [.task ⟨ph, p⟩]) (hc : c ≠ .undefined) :
    ∃ s', Leads job s s' ∧ s'.phases = s.phases ∧
      Scene job s' c (job.sequential ph job.nrMapper d) fun p v => v.Did ⟨ph, p⟩ := by
  obtain ⟨s', hlead, -, hphases, hscene⟩ := Transition.Reaches.iterate
    (I := fun w s' => Leads job (.init d₀) s' ∧ s'.phases = s.phases ∧
      Scene job s' c (job.sequential ph w d)
        (upTo w (fun p v => v.Did ⟨ph, p⟩) fun p v => v.Calm [.task ⟨ph, p⟩])) (n := job.nrMapper)
    (fun w hw s₁ hs => by
      obtain ⟨hr₁, hphases, hscene⟩ := hs
      obtain ⟨s₂, hlead, hapart, hdisk, hdid⟩ := leads_task hcatch hr₁ (hscene.next hw)
        (by rw [hscene.place]; exact hc)
      refine ⟨s₂, hlead, hr₁.trans hlead, hapart.phases.trans hphases,
        hapart.ctrl.trans hscene.place, ?_, ?_, ?_⟩
      · rw [hapart.clientPool]
        exact hscene.made
      · exact hscene.advance hdid hapart.others
      · rw [hdisk, hscene.disk, Job.sequential_succ]) ⟨hr, rfl, h.start⟩
  exact ⟨s', hlead, hphases, hscene.finish⟩

/-- The master finds the connection of a worker up and asks for its task. -/
theorem leads_poll (hc : s.ctrl = .check ph w) (hw : w < job.nrMapper)
    (hmade : s.clientPool[w]? = some (.connected w))
    (hst : (s.phases ph).taskStatus[w]? = some 0) (hcalm : (s.servers w).Calm []) :
    ∃ s', Leads job s s' ∧ s'.ctrl = .await ph w ∧ s'.clientPool = s.clientPool ∧
      s'.phases = s.phases ∧ s'.disk = s.disk ∧ (∀ p, p ≠ w → s'.servers p = s.servers p) ∧
      s'.servers w = { s.servers w with
        inbox := [.isDone ph], sent := (s.servers w).sent ++ [.isDone ph] } := by
  have hup := Leads.master (.goto (.up hc hw hst Nat.zero_ne_one hmade fun _ he => by cases he))
    fun he => by cases he
  have hsend := @Leads.master job (s.goto (.poll ph w)) _
    (.send (.poll rfl) (State.linked_of_client hmade)) fun he => by cases he
  refine ⟨_, hup.trans hsend, rfl, rfl, rfl, rfl, fun p hp => State.deliver_ne _ _ hp, ?_⟩
  simp only [State.deliver_self, Server.receive, State.goto, hcalm.alive, hcalm.inbox, if_true,
    List.nil_append]

/-- The process answers that its task is done. -/
theorem leads_reply {v : Server} (hv : s.servers w = { v with inbox := [.isDone ph] })
    (hdid : v.running = [] ∧ v.completed ph = true) (hc : s.ctrl ≠ .undefined) :
    ∃ s', Leads job s s' ∧ Apart w s s' ∧ s'.disk = s.disk ∧
      s'.servers w = { v with inbox := [], reply := some (ph, true) } := by
  have hlen : (s.servers w).running.length < 2 := by
    rw [hv, hdid.1]
    exact Nat.zero_lt_two
  have hk : (s.servers w).inbox[0]? = some (.isDone ph) := by
    rw [hv]
    rfl
  refine ⟨_, .execute (.reply hlen hk) hc, apart_setServer s w _, rfl, ?_⟩
  rw [State.setServer_self, hv, hdid.2]
  rfl

theorem leads_answer {v : Server} (hv : s.servers w = { v with reply := some (ph, true) })
    (hc : s.ctrl = .await ph w) (hmade : s.clientPool[w]? = some (.connected w)) :
    ∃ s', Leads job s s' ∧ s'.ctrl = .check ph (w + 1) ∧ s'.clientPool = s.clientPool ∧
      (s'.phases ph).taskStatus = (s.phases ph).taskStatus.set w 1 ∧
      (s'.phases ph).nrDone = (s.phases ph).nrDone + 1 ∧ s'.disk = s.disk ∧
      (∀ p, p ≠ w → s'.servers p = s.servers p) ∧ s'.servers w = { v with reply := none } := by
  have hr : (s.servers w).reply = some (ph, true) := by rw [hv]
  have hlead := @Leads.master job s _ (.answer hc (State.linked_of_client hmade) hr)
    fun he => by cases he
  refine ⟨_, hlead, rfl, rfl, ?_, ?_, rfl, fun p hp => State.setServer_ne s _ hp, ?_⟩
  · simp [State.goto, State.credit, State.setPhase, State.setServer]
  · simp [State.goto, State.credit, State.setPhase, State.setServer]
  · simp only [State.goto, State.credit_servers, State.setServer_self, hv]

/-- In a sweep up to a worker all answers have been positive. -/
structure Swept (job : Job) (ph : Phase) (w : ℕ) (d : Disk) (s : State) : Prop where
  scene : Scene job s (.check ph w) d fun p v => v.Did ⟨ph, p⟩
  done : (s.phases ph).nrDone = w
  pending : ∀ v : ℕ, w ≤ v → v < job.count ph → (s.phases ph).taskStatus[v]? = some 0

/-- The worker at which the master is reports its task: it is asked, it answers, and the answer
is noted. -/
theorem Swept.report (h : Swept job ph w d s) (hw : w < job.nrMapper) (hcount : w < job.count ph) :
    ∃ s', Leads job s s' ∧ Swept job ph (w + 1) d s' := by
  obtain ⟨hcalm, hcompleted, hreturned⟩ := h.scene.servers w hw
  obtain ⟨s₁, hlead₁, hc₁, hpool₁, hphases₁, hdisk₁, hrest₁, hv₁⟩ := leads_poll h.scene.place hw
    (h.scene.made w hw) (h.pending w le_rfl hcount) hcalm
  obtain ⟨s₂, hlead₂, hapart₂, hdisk₂, hv₂⟩ := @leads_reply job s₁ ph w
    { s.servers w with sent := (s.servers w).sent ++ [.isDone ph] } hv₁
    ⟨hcalm.running, hcompleted⟩ (by rw [hc₁]; exact fun he => by cases he)
  have hc₂ : s₂.ctrl = .await ph w := hapart₂.ctrl.trans hc₁
  have hpool₂ : s₂.clientPool = s.clientPool := hapart₂.clientPool.trans hpool₁
  obtain ⟨s₃, hlead₃, hc₃, hpool₃, hst₃, hdone₃, hdisk₃, hrest₃, hv₃⟩ := @leads_answer job s₂ ph w
    { s.servers w with inbox := [], sent := (s.servers w).sent ++ [.isDone ph] } hv₂ hc₂
    (by rw [hpool₂]; exact h.scene.made w hw)
  have hphases₂ : s₂.phases = s.phases := hapart₂.phases.trans hphases₁
  refine ⟨s₃, hlead₁.trans (hlead₂.trans hlead₃), ⟨hc₃, ?_, fun p hp => ?_, ?_⟩,
    ?_, fun v hv hlt => ?_⟩
  · rw [hpool₃, hpool₂]
    exact h.scene.made
  -- The process is as it was but for what it has been sent.
  · by_cases hpw : p = w
    · subst hpw
      rw [hv₃]
      exact ⟨⟨hcalm.alive, rfl, hcalm.running⟩, hcompleted, hreturned⟩
    · rw [hrest₃ p hpw, hapart₂.others p hpw, hrest₁ p hpw]
      exact h.scene.servers p hp
  · rw [hdisk₃, hdisk₂, hdisk₁]
    exact h.scene.disk
  · rw [hdone₃, hphases₂, h.done]
  · rw [hst₃, hphases₂, List.getElem?_set_ne (by omega)]
    exact h.pending v (by omega) hlt

/-- A phase is gone through in one sweep, if there is a status for every worker. -/
theorem leads_phase (hcatch : Catching job d₀) (hr : Leads job (.init d₀) s)
    (h : Scene job s (.dispatch ph 0) d fun _ v => v.Calm []) (hcount : job.nrMapper ≤ job.count ph) :
    ∃ s', Leads job s s' ∧ (s'.phases ph).nrDone = job.nrMapper ∧
      Scene job s' (.sweepEnd ph) (job.sequential ph job.nrMapper d) fun p v => v.Did ⟨ph, p⟩ := by
  obtain ⟨s₁, hlead₁, hscene₁⟩ := leads_dispatch h
  obtain ⟨s₂, hlead₂, hscene₂, hst₂, hdone₂⟩ := leads_status hscene₁
  obtain ⟨s₃, hlead₃, hphases₃, hscene₃⟩ := leads_tasks hcatch
    (hr.trans (hlead₁.trans hlead₂)) hscene₂ fun he => by cases he
  -- All tasks are done before the first sweep, so it finds none of them pending.
  have hswept : Swept job ph 0 (job.sequential ph job.nrMapper d) s₃ := by
    refine ⟨hscene₃, by rw [hphases₃, hdone₂], fun v _ hv => ?_⟩
    rw [hphases₃, hst₂, List.getElem?_replicate, if_pos hv]
  obtain ⟨s₄, hlead₄, hswept₄⟩ := Transition.Reaches.iterate
    (I := fun w s => Swept job ph w (job.sequential ph job.nrMapper d) s) (n := job.nrMapper)
    (fun w hw s hs => hs.report hw (hw.trans_le hcount)) hswept
  have hlead₅ := Leads.master (.goto (.swept hswept₄.scene.place le_rfl)) fun he => by cases he
  exact ⟨_, hlead₁.trans (hlead₂.trans (hlead₃.trans (hlead₄.trans hlead₅))), hswept₄.done, rfl,
    hswept₄.scene.made, hswept₄.scene.servers, hswept₄.scene.disk⟩

/-! ### From the start to the end

What is around the two phases: the forks, the clients and their connections before, and the stop
requests behind. -/

/-- The processes of the first workers have been forked and nothing has been sent to them. -/
structure Forked (job : Job) (c : Ctrl) (n : ℕ) (pool : List Client)
    (d : Disk) (s : State) : Prop where
  place : s.ctrl = c
  spawned : s.spawned = n
  globals : s.completed = fun _ => false
  pool : s.clientPool = pool
  servers : ∀ p < n, s.servers p = .fresh p fun _ => false
  disk : s.disk = d

theorem leads_forks (d : Disk) :
    ∃ s, Leads job (.init d) s ∧ Forked job (.connect 0) job.nrMapper [] d s := by
  obtain ⟨s, hlead, hs⟩ := Transition.Reaches.iterate
    (I := fun i s => Forked job (.fork i) i [] d s) (n := job.nrMapper)
    (fun i hi s hs => by
      have hlead := @Leads.master job s _ (.fork hs.place hi) fun he => by cases he
      refine ⟨_, hlead, rfl, ?_, hs.globals, hs.pool, fun p hp => ?_, hs.disk⟩
      · show s.spawned + 1 = i + 1
        rw [hs.spawned]
      · have hspawned := hs.spawned
        rcases Nat.lt_succ_iff_lt_or_eq.mp hp with hp | rfl
        · rw [State.goto, State.spawn_ne s i (by omega)]
          exact hs.servers p hp
        · show (s.spawn p).servers p = _
          rw [← hspawned, State.spawn_self, hs.globals, hspawned])
    (show Forked job (.fork 0) 0 [] d (.init d) from
      ⟨rfl, rfl, rfl, rfl, fun p hp => absurd hp (Nat.not_lt_zero p), rfl⟩)
  have hlead' := Leads.master (.goto (.forked hs.place le_rfl)) fun he => by cases he
  exact ⟨_, hlead.trans hlead', rfl, hs.spawned, hs.globals, hs.pool, hs.servers, hs.disk⟩

theorem leads_clients (h : Forked job (.connect 0) job.nrMapper [] d s) :
    ∃ s', Leads job s s' ∧ Forked job (.dispatch .map 0) job.nrMapper
      (List.replicate job.nrMapper .initial) d s' := by
  obtain ⟨s', hlead, hs⟩ := Transition.Reaches.iterate
    (I := fun i s => Forked job (.connect i) job.nrMapper (List.replicate i .initial) d s)
    (n := job.nrMapper)
    (fun i hi s hs => by
      have hlead := @Leads.master job s _ (.client hs.place hi) fun he => by cases he
      refine ⟨_, hlead, rfl, hs.spawned, hs.globals, ?_, hs.servers, hs.disk⟩
      rw [hs.pool, List.replicate_succ']) h
  have hlead' := Leads.master (.goto (.created hs.place le_rfl)) fun he => by cases he
  exact ⟨_, hlead.trans hlead', rfl, hs.spawned, hs.globals, hs.pool, hs.servers, hs.disk⟩

/-- All connections are made, before the first task is sent. -/
theorem leads_connects (h : Forked job (.dispatch .map 0) job.nrMapper
      (List.replicate job.nrMapper .initial) d s) :
    ∃ s', Leads job s s' ∧ Scene job s' (.dispatch .map 0) d fun _ v => v.Calm [] := by
  obtain ⟨s', hlead, hs⟩ := Transition.Reaches.iterate
    (I := fun i s => Forked job (.dispatch .map 0) job.nrMapper
      ((List.range i).map .connected ++ List.replicate (job.nrMapper - i) .initial) d s)
    (n := job.nrMapper)
    (fun i hi s hs => by
      obtain ⟨k, hk⟩ := Nat.exists_eq_succ_of_ne_zero (Nat.sub_ne_zero_of_lt hi)
      have hinit : s.clientPool[i]? = some .initial := by
        rw [hs.pool, List.getElem?_append_right (by simp), hk]
        simp
      have hfresh := hs.servers i hi
      have hlead := @Leads.connect job s _ i i (.connect hinit (by rw [hfresh]; rfl)
        (by rw [hfresh]; rfl)) (by rw [show _ = _ from hs.place]; exact fun he => by cases he)
      refine ⟨_, hlead, hs.place, hs.spawned, hs.globals, ?_, hs.servers, hs.disk⟩
      rw [hs.pool, List.set_append_right _ _ (by simp), hk, show job.nrMapper - (i + 1) = k by omega,
        List.range_succ]
      simp [List.replicate_succ]) (by simpa using h)
  refine ⟨s', hlead, hs.place, fun w hw => ?_, fun p hp => ?_, hs.disk⟩
  · rw [hs.pool]
    simp [hw]
  · rw [hs.servers p hp]
    exact ⟨rfl, rfl, rfl⟩

/-- All processes are told to stop, and what they have returned stays on record. -/
theorem leads_stops {V : ℕ → Server → Prop} (h : Scene job s (.stop 0) d V) :
    ∃ s', Leads job s s' ∧ s'.ctrl = .returned ∧ s'.disk = d ∧
      ∀ p, (s'.servers p).returned = (s.servers p).returned := by
  obtain ⟨s', hlead, hc, -, hdisk, hret⟩ := Transition.Reaches.iterate
    (I := fun i (s' : State) => s'.ctrl = .stop i ∧ s'.clientPool = s.clientPool ∧ s'.disk = d ∧
      ∀ p, (s'.servers p).returned = (s.servers p).returned) (n := job.nrMapper)
    (fun i hi s₁ hs => by
      obtain ⟨hc, hpool, hdisk, hret⟩ := hs
      have hlinked : s₁.linked i = some i := State.linked_of_client (by rw [hpool]; exact h.made i hi)
      have hlead := Leads.master (.send (.stop hc hi) hlinked) fun he => by cases he
      refine ⟨_, hlead, rfl, hpool, hdisk, fun p => ?_⟩
      rw [← hret p]
      by_cases hp : p = i
      · subst hp
        simp only [State.deliver_self]
        rfl
      · simp only [State.deliver_ne s₁ _ hp]) ⟨h.place, rfl, h.disk, fun _ => rfl⟩
  have hlead' := Leads.master (.goto (.stopped hc le_rfl)) fun he => by cases he
  exact ⟨_, hlead.trans hlead', rfl, hdisk, hret⟩

/-- **A run without crashes can get to its end.** If there are as many reducers as mappers
and no controller of a run without crashes ends its process, then `process` returns in some
such run, all reducers have run, and the disk is that of the sequential run. -/
theorem exists_return (hsquare : job.nrMapper = job.nrReducer) (hcatch : Catching job d) :
    ∃ s, Transition.Reaches (step job) CrashFree (.init d) s ∧ s.ctrl = .returned ∧
      (∀ r < job.nrReducer, ∃ p code, (⟨.reduce, r⟩, code) ∈ (s.servers p).returned) ∧
      s.disk = (job.reducePhase (List.range job.nrReducer)
        (job.mapPhase (List.range job.nrMapper) d).2).2 := by
  obtain ⟨s₁, hlead₁, hforked⟩ := @leads_forks job d
  obtain ⟨s₂, hlead₂, hcreated⟩ := leads_clients hforked
  obtain ⟨s₃, hlead₃, hscene₃⟩ := leads_connects hcreated
  have hr₃ : Leads job (.init d) s₃ := hlead₁.trans (hlead₂.trans hlead₃)
  obtain ⟨s₄, hlead₄, hdone₄, hscene₄⟩ := leads_phase hcatch hr₃ hscene₃ le_rfl
  -- Between the phases the master only moves on; the processes are idle and the connections
  -- made.
  have hlead₅ := Leads.master (.goto (.mapped hscene₄.place hdone₄)) fun he => by cases he
  have hscene₅ : Scene job (s₄.goto (.dispatch .reduce 0)) (.dispatch .reduce 0)
      (job.sequential .map job.nrMapper d) fun _ v => v.Calm [] :=
    ⟨rfl, hscene₄.made, fun p hp => (hscene₄.servers p hp).calm, hscene₄.disk⟩
  have hr₅ := hr₃.trans (hlead₄.trans hlead₅)
  -- The status vector of the reduce phase is long enough, because the counts are equal.
  obtain ⟨s₆, hlead₆, hdone₆, hscene₆⟩ := leads_phase hcatch hr₅ hscene₅ hsquare.le
  have hlead₇ := Leads.master (.goto (.reduced hscene₆.place (hdone₆.trans hsquare)))
    fun he => by cases he
  obtain ⟨s₈, hlead₈, hc, hdisk, hret⟩ := leads_stops
    (⟨rfl, hscene₆.made, hscene₆.servers, hscene₆.disk⟩ :
      Scene job (s₆.goto (.stop 0)) (.stop 0) _ fun p v => v.Did ⟨.reduce, p⟩)
  refine ⟨s₈, ?_, hc, fun r hr => ?_, ?_⟩
  · exact hr₅.trans (hlead₆.trans (hlead₇.trans hlead₈))
  · obtain ⟨code, hcode⟩ := (hscene₆.servers r (hsquare ▸ hr)).returned
    exact ⟨r, code, by rw [hret]; exact hcode⟩
  · rw [hdisk, ← hsquare]
    rfl

end MapReduceCpp
