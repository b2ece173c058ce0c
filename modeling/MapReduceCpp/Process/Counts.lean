import MapReduceCpp.Process.Outputs
import MapReduceCpp.Process.Progress
import MapReduceCpp.Process.WakeUp

/-!
# MapReduceCpp.Process.Counts

Different numbers of mappers and reducers.

The constructor takes two counts, but all loops of `process` run over the workers, of which
there is one for each mapper, and index the vectors of both phases by the worker. With as
many reducers as mappers that does what the two counts promise. With fewer, the reduce task
is sent for ids that are no reducers and the sweep reads behind the status vector; with
more, some reducers are never asked and the sweeps never end
(`countsIndependent_square`).

With equal counts one thing is left that keeps an output file from being written, and it
is no matter of the counts: a reducer whose function throws returns -3 without touching its
file, and one that is ended by an exception never returns. `Smooth` says of the runs
without crashes that neither happens.
-/

namespace MapReduceCpp

open FileProg

variable {job : Job} {s s' : State} {l : Label} {c : Ctrl} {ph : Phase} {w p q : ℕ} {d : Disk}

/-! ### Accesses

The vectors of a phase are as long as its count says, and the sweep runs over the mappers. So
the question of bounds is the comparison of the two counts. -/

/-- The one step out of bounds is the sweep past the end of the status vector, and only in the
reduce phase can it be made. -/
theorem Step.defined (hs : Step job s l s') (hctl : Control job s) (hc : s.ctrl ≠ .undefined) :
    s'.ctrl ≠ .undefined ∨ ∃ w, s.ctrl = .check .reduce w ∧ job.nrReducer ≤ w ∧ w < job.nrMapper := by
  cases hs with
  | @goto c hg =>
    by_cases hundef : c = .undefined
    · subst hundef
      exact .inr (hctl.undefined_of_goto hg)
    · exact .inl hundef
  | send hsend _ =>
    left
    cases hsend with
    | noFuture hc hle => exact absurd (hctl.future hc) (Nat.not_lt.mpr hle)
    | _ => exact fun h => by cases h
  | fork _ _ => exact .inl fun h => by cases h
  | refork _ => exact .inl fun h => by cases h
  | client _ _ => exact .inl fun h => by cases h
  | reclient _ _ => exact .inl fun h => by cases h
  | status _ _ => exact .inl fun h => by cases h
  | answer _ _ _ => exact .inl fun h => by cases h
  | _ => exact .inl hc

/-- With a status for every worker no access is out of bounds. -/
theorem defined_of_reaches {ok : State → Label → Prop} (hcount : job.nrMapper ≤ job.nrReducer)
    (h : Transition.Reaches (step job) ok (.init d) s) : s.ctrl ≠ .undefined := by
  induction h with
  | refl => exact fun hc => by cases hc
  | tail hr _ hstep ih =>
    rcases (step_cases hstep).defined (control_of_reaches hr) ih with hdef | ⟨w, -, hle, hlt⟩
    · exact hdef
    · omega

/-! ### Requests

The dispatch loop sends the task of every worker before it ends, whatever its number. Once one
reduce task has been sent the others will be, and none of these calls has to wait for a
connection. -/

/-- Every future stands for a task that has been sent. -/
def Requested (s : State) : Prop :=
  ∀ ph w, w < (s.phases ph).futurePool.length → ∃ p, .task ⟨ph, w⟩ ∈ (s.servers p).sent

/-- A future is made by a send, and none is ever taken out of its pool. -/
theorem Step.requested (hs : Step job s l s') (hi : Orderly job s) (h : Requested s) :
    Requested s' := by
  -- A request that has been sent stays in its history.
  have hkeep : ∀ ph w, w < (s.phases ph).futurePool.length →
      ∃ p, .task ⟨ph, w⟩ ∈ (s'.servers p).sent := by
    intro ph w hw
    obtain ⟨p, hp⟩ := h ph w hw
    exact ⟨p, hs.sent_subset hi.topology hp⟩
  intro ph w hw
  cases hs with
  | @send pid v req phases c hsend hp =>
    cases hsend with
    | @dispatch ph' _ hc hlt =>
      have hlen : (s.phases ph').futurePool.length = v := by
        rw [hi.control.futures ph', hc]
        simp [Ctrl.dispatched, Ctrl.phase, Ctrl.progress]
      by_cases hph : ph = ph'
      · subst hph
        simp only [Function.update_self, List.length_append, List.length_singleton] at hw
        rcases Nat.lt_succ_iff_lt_or_eq.mp hw with hw | rfl
        · exact hkeep ph w hw
        · -- The task that has just been sent.
          refine ⟨pid, ?_⟩
          rw [hlen]
          simp only [State.deliver_self]
          exact List.mem_append_right _ (List.mem_singleton_self _)
      · simp only [Function.update_of_ne hph] at hw
        exact hkeep ph w hw
    | @resend ph' _ hc hlt =>
      by_cases hph : ph = ph'
      · subst hph
        simp only [Function.update_self, List.length_set] at hw
        exact hkeep ph w hw
      · simp only [Function.update_of_ne hph] at hw
        exact hkeep ph w hw
    | noFuture _ _ => exact hkeep ph w hw
    | poll _ => exact hkeep ph w hw
    | stop _ _ => exact hkeep ph w hw
  | @status ph' i hc hle =>
    refine hkeep ph w ?_
    by_cases hph : ph = ph'
    · subst hph
      simpa [State.goto, State.setPhase] using hw
    · simpa [State.goto, State.setPhase, hph] using hw
  | @answer ph' v pid status hc hp hr =>
    refine hkeep ph w ?_
    cases status with
    | false => exact hw
    | true =>
      by_cases hph : ph = ph'
      · subst hph
        simpa [State.goto, State.credit, State.setPhase, State.setServer] using hw
      · simpa [State.goto, State.credit, State.setPhase, State.setServer, hph] using hw
  | _ => exact hkeep ph w hw

/-- In every state of every run each future stands for such a task. -/
theorem requested_of_reaches {ok : State → Label → Prop}
    (h : Transition.Reaches (step job) ok (.init d) s) : Requested s := by
  induction h with
  | refl => exact fun ph w hw => absurd hw (Nat.not_lt_zero w)
  | tail hr _ hstep ih => exact (step_cases hstep).requested (orderly_of_reaches hr) ih

/-- While the reduce tasks are sent all clients are connected, since every one was used in the
map phase. -/
def Linked (job : Job) (s : State) : Prop :=
  (∃ i, s.ctrl = .dispatch .reduce i) → ∀ w < job.nrMapper, ∃ p, s.linked w = some p

/-- The reduce phase begins at the end of a sweep. -/
theorem Step.to_dispatch {i : ℕ} (hs : Step job s l s') (hc : s'.ctrl = .dispatch .reduce i) :
    (∃ j, s.ctrl = .dispatch .reduce j) ∨ s.ctrl = .sweepEnd .map := by
  cases hs with
  | goto hg =>
    cases hg with
    | mapped hend _ => exact .inr hend
    | _ => cases hc
  | fork _ _ => cases hc
  | refork _ => cases hc
  | client _ _ => cases hc
  | reclient _ _ => cases hc
  | send hsend _ =>
    cases hsend with
    | dispatch hsent _ =>
      obtain ⟨rfl, -⟩ := Ctrl.dispatch.inj hc
      exact .inl ⟨_, hsent⟩
    | _ => cases hc
  | status _ _ => cases hc
  | answer _ _ _ => cases hc
  | _ => exact .inl ⟨i, hc⟩

/-- And it holds throughout the dispatch, as no client is replaced there. -/
theorem linked_of_reaches {ok : State → Label → Prop}
    (h : Transition.Reaches (step job) ok (.init d) s) : Linked job s := by
  induction h with
  | refl =>
    intro hc
    obtain ⟨i, hi⟩ := hc
    cases hi
  | @tail s s' l hr _ hstep ih =>
    intro hc w hw
    obtain ⟨i, hi⟩ := hc
    have hs := step_cases hstep
    have hold : ∃ p, s.linked w = some p := by
      rcases hs.to_dispatch hi with hdispatch | hend
      · exact ih hdispatch w hw
      · exact (topology_of_reaches hr).linked_of_due (control_of_reaches hr) (by rw [hend]; rfl) hw
          (by rw [hend]; rfl)
    obtain ⟨p, hp⟩ := hold
    refine ⟨p, hs.linked_stays (fun _ ph hre => ?_) hp⟩
    rcases hs.to_dispatch hi with ⟨j, hj⟩ | hend
    · cases hre.symm.trans hj
    · cases hre.symm.trans hend

/-! ### Two counts

What two counts would mean if they could be chosen freely, and why one equation between them is
what it takes. -/

/-- Every reducer has been requested and is reported done, which is what the exit test is meant
to find. -/
def AllReported (job : Job) (s : State) : Prop :=
  ∀ r < job.nrReducer, (∃ p, .task ⟨.reduce, r⟩ ∈ (s.servers p).sent) ∧
    (s.phases .reduce).taskStatus[r]? = some 1

/-- What is expected of a master with two counts, in all runs without crashes. -/
structure CountsIndependent (job : Job) (d : Disk) : Prop where
  /-- No vector is accessed out of bounds. -/
  bounds : ∀ s, Transition.Reaches (step job) CrashFree (.init d) s → s.ctrl ≠ .undefined
  /-- The counter says how many reducers are reported done. -/
  counted : ∀ s, Transition.Reaches (step job) CrashFree (.init d) s →
    (s.phases .reduce).nrDone = (s.phases .reduce).taskStatus.count 1
  /-- Reduce tasks are sent for reducers only. -/
  requests : ∀ s, Transition.Reaches (step job) CrashFree (.init d) s →
    ∀ p r, .task ⟨.reduce, r⟩ ∈ (s.servers p).sent → r < job.nrReducer
  /-- The reduce loop is left only when all reducers are done. -/
  left : ∀ s, Transition.Reaches (step job) CrashFree (.init d) s →
    s.ctrl.stopping = true → AllReported job s
  /-- And it is left at the end of the first sweep at which they are. -/
  leaves : ∀ s, Transition.Reaches (step job) CrashFree (.init d) s →
    s.ctrl = .sweepEnd .reduce → AllReported job s → step job s .master = some (s.goto (.stop 0))
  /-- All reducers have returned 0 and written their output files before `process` returns. -/
  written : ∀ s, Transition.Reaches (step job) CrashFree (.init d) s → s.ctrl = .returned →
    ∀ r < job.nrReducer, (∃ p, (⟨.reduce, r⟩, 0) ∈ (s.servers p).returned) ∧
      job.Produced r s.disk
  /-- There is a run in which all of them get there. -/
  reachable : ∃ s, Transition.Reaches (step job) CrashFree (.init d) s ∧
    ∀ r < job.nrReducer, ∃ p, (⟨.reduce, r⟩, 0) ∈ (s.servers p).returned

/-- In the runs without crashes no controller is ended by an exception and every reducer
returns 0: a mapper that is about to read its input will be thrown nothing but an `int` (and
can number its records), and a reducer that is about to read its temp files nothing at all. -/
def Smooth (job : Job) (d : Disk) : Prop :=
  ∀ s l, Transition.Reaches (step job) CrashFree (.init d) s → Begins job job.Clean s l

theorem Smooth.catching (h : Smooth job d) : Catching job d :=
  fun s l hr p k e hl hk hfresh => (h s l hr p k e hl hk hfresh).1

theorem Smooth.reaches (h : Smooth job d)
    (hr : Transition.Reaches (step job) CrashFree (.init d) s) :
    Transition.Reaches (step job) (Begins job job.Clean) (.init d) s :=
  hr.strengthen fun s l hs _ => h s l hs

/-- An entry that is 1 is that of a task which was sent and has returned. -/
theorem reported_of_reaches {ok : State → Label → Prop}
    (hr : Transition.Reaches (step job) ok (.init d) s)
    (hst : (s.phases ph).taskStatus[w]? = some 1) :
    (∃ p, .task ⟨ph, w⟩ ∈ (s.servers p).sent) ∧
      ∃ p code, (⟨ph, w⟩, code) ∈ (s.servers p).returned := by
  obtain ⟨-, p, -, hret⟩ := (credit_of_reaches hr).status ph w hst
  have hreq := Nat.lt_of_lt_of_le hret ((coherent_of_reaches hr p).returns_le ⟨ph, w⟩)
  obtain ⟨code, hcode⟩ := Server.returns_pos.mp hret
  exact ⟨⟨p, List.count_pos_iff.mp hreq⟩, p, code, hcode⟩

theorem lt_of_sent {ok : State → Label → Prop} (hr : Transition.Reaches (step job) ok (.init d) s)
    (hsent : .task ⟨ph, w⟩ ∈ (s.servers p).sent) : w < job.nrMapper := by
  have hi := orderly_of_reaches hr
  have hid : w = (s.servers p).worker := hi.accounting.ids p ⟨ph, w⟩ (List.count_pos_iff.mpr hsent)
  rw [hid]
  refine hi.topology.worker_lt p (hi.topology.lt_of_ne fun hnone => ?_)
  rw [hnone] at hsent
  cases hsent

theorem lt_of_returned {ok : State → Label → Prop} {code : ℤ}
    (hr : Transition.Reaches (step job) ok (.init d) s)
    (hret : (⟨ph, w⟩, code) ∈ (s.servers p).returned) : w < job.nrMapper := by
  have hpos : 0 < (s.servers p).returns ⟨ph, w⟩ := Server.returns_pos.mpr ⟨code, hret⟩
  have hreq := Nat.lt_of_lt_of_le hpos ((coherent_of_reaches hr p).returns_le ⟨ph, w⟩)
  exact lt_of_sent hr (List.count_pos_iff.mp hreq)

/-- When `process` returns all reducers have returned 0 and written their output files: their
entries are 1, and a reducer that is reported done has left its product. -/
theorem written_of_returned (hsmooth : Smooth job d)
    (hr : Transition.Reaches (step job) CrashFree (.init d) s) (hc : s.ctrl = .returned) {r : ℕ}
    (hlt : r < job.nrReducer) :
    (∃ p, (⟨.reduce, r⟩, 0) ∈ (s.servers p).returned) ∧ job.Produced r s.disk := by
  have hst := (control_of_reaches hr).finished .reduce (by rw [hc]; rfl) r hlt
  have houtputs := outputsWritten_of_reaches (hsmooth.reaches hr)
  obtain ⟨-, p, code, hcode⟩ := reported_of_reaches hr hst
  obtain rfl := houtputs.codes p r code hcode
  exact ⟨⟨p, hcode⟩, houtputs.status r hst⟩

/-- With equal counts, and if no controller goes wrong, everything is as expected of two counts. -/
theorem countsIndependent_of_square (hsquare : job.nrMapper = job.nrReducer)
    (hsmooth : Smooth job d) : CountsIndependent job d where
  bounds := fun s hr => defined_of_reaches hsquare.le hr
  counted := fun s hr => (control_of_reaches hr).counted .reduce
  requests := fun s hr p r hsent => by
    rw [← hsquare]
    exact lt_of_sent hr hsent
  left := fun s hr hstop r hlt => by
    have hst := (control_of_reaches hr).finished .reduce hstop r hlt
    exact ⟨(reported_of_reaches hr hst).1, hst⟩
  leaves := fun s hr hc hall => by
    have hctl := control_of_reaches hr
    have hlen : (s.phases .reduce).taskStatus.length = job.nrReducer := by
      rw [hctl.statuses, hc]
      rfl
    -- The counter has reached the number the exit test compares it with.
    have hones : ∀ st ∈ (s.phases .reduce).taskStatus, 1 = st := by
      intro st hmem
      obtain ⟨r, hr⟩ := List.mem_iff_getElem?.mp hmem
      have hlt := (List.getElem?_eq_some_iff.mp hr).1
      exact Option.some.inj ((hall r (hlen ▸ hlt)).2.symm.trans hr)
    have hdone : (s.phases .reduce).nrDone = job.nrReducer := by
      rw [hctl.counted, List.count_eq_length.mpr hones, hlen]
    exact (Goto.reduced hc hdone).enabled fun he => by cases he
  written := fun s hr hc r hlt => written_of_returned hsmooth hr hc hlt
  reachable := by
    obtain ⟨s, hr, hc, -, -⟩ := exists_return hsquare hsmooth.catching
    exact ⟨s, hr, fun r hlt => (written_of_returned hsmooth hr hc hlt).1⟩

/-! ### Unequal counts

The converse takes two arguments. With fewer reducers the request that should not be made is
reached from any state in which one reduce task has been sent; with more, the last reducer is no
worker, and what belongs to no worker does not return. -/

/-- While the tasks are sent the master gets on if all clients are connected. -/
theorem leads_dispatches {i : ℕ} (hc : s.ctrl = .dispatch ph i)
    (hlink : ∀ w < job.nrMapper, ∃ p, s.linked w = some p) {j : ℕ} (hij : i ≤ j)
    (hj : j ≤ job.nrMapper) : ∃ s', Leads job s s' ∧ s'.ctrl = .dispatch ph j := by
  obtain ⟨n, rfl⟩ := Nat.exists_eq_add_of_le hij
  obtain ⟨s', hlead, hc', -⟩ := Transition.Reaches.iterate
    (I := fun k (s' : State) => s'.ctrl = .dispatch ph (i + k) ∧ s'.clientPool = s.clientPool)
    (n := n)
    (fun k hk s₁ hs => by
      obtain ⟨hc₁, hpool⟩ := hs
      obtain ⟨p, hp⟩ := hlink (i + k) (by omega)
      have hp₁ : s₁.linked (i + k) = some p := by
        rw [State.linked, hpool]
        exact hp
      have hlead := @Leads.master job s₁ _ (.send (.dispatch hc₁ (by omega)) hp₁)
        fun he => by cases he
      exact ⟨_, hlead, rfl, hpool⟩) ⟨hc, rfl⟩
  exact ⟨s', hlead, hc'⟩

theorem Ctrl.dispatched_of_reduce {c : Ctrl} {n : ℕ} (hphase : c.phase = .reduce)
    (hc : ∀ i, c ≠ .dispatch .reduce i) : c.dispatched n .reduce = n := by
  rw [Ctrl.dispatched, if_pos hphase]
  cases c with
  | fork _ => cases hphase
  | connect _ => cases hphase
  | dispatch ph i =>
    obtain rfl : ph = .reduce := hphase
    exact absurd rfl (hc i)
  | _ => rfl

/-- When a reduce task has been sent, the tasks of all workers are going to be. -/
theorem exists_requested {r : ℕ} (hr : Transition.Reaches (step job) CrashFree (.init d) s)
    (hsent : .task ⟨.reduce, r⟩ ∈ (s.servers p).sent) (hw : w < job.nrMapper) :
    ∃ s', Transition.Reaches (step job) CrashFree (.init d) s' ∧
      ∃ q, .task ⟨.reduce, w⟩ ∈ (s'.servers q).sent := by
  -- No reduce task is sent before the reduce phase.
  have hphase : s.ctrl.phase = .reduce :=
    (accounting_of_reaches hr).early p r (List.count_pos_iff.mpr hsent)
  -- Enough to reach a state in which that many tasks have been sent.
  have hmany : ∀ s', Transition.Reaches (step job) CrashFree (.init d) s' →
      w < s'.ctrl.dispatched job.nrMapper .reduce →
      ∃ s', Transition.Reaches (step job) CrashFree (.init d) s' ∧
        ∃ q, .task ⟨.reduce, w⟩ ∈ (s'.servers q).sent := by
    intro s' hr' hlt
    rw [← (control_of_reaches hr').futures] at hlt
    exact ⟨s', hr', requested_of_reaches hr' .reduce w hlt⟩
  by_cases hdispatch : ∃ i, s.ctrl = .dispatch .reduce i
  · obtain ⟨i, hc⟩ := hdispatch
    rcases Nat.lt_or_ge w i with hlt | hle
    · refine hmany s hr ?_
      rw [hc]
      exact hlt
    · obtain ⟨s', hlead, hc'⟩ := leads_dispatches hc (linked_of_reaches hr ⟨i, hc⟩)
        (Nat.le_succ_of_le hle) hw
      refine hmany s' (hr.trans hlead) ?_
      rw [hc']
      exact Nat.lt_succ_self w
  · refine hmany s hr ?_
    rw [Ctrl.dispatched_of_reduce hphase fun i hc => hdispatch ⟨i, hc⟩]
    exact hw

/-- Where the counts mean what they should, they are equal. -/
theorem CountsIndependent.square (h : CountsIndependent job d) : job.nrMapper = job.nrReducer := by
  obtain ⟨s, hr, hrun⟩ := h.reachable
  have hpos := job.nrReducer_pos
  obtain ⟨p, hret⟩ := hrun (job.nrReducer - 1) (by omega)
  have hlt := lt_of_returned hr hret
  -- The last reducer has returned, so it is a worker, and there are no fewer mappers than
  -- reducers.
  refine Nat.le_antisymm (Nat.le_of_not_lt fun hfew => ?_) (by omega)
  -- The worker behind the last reducer is sent a reduce task as well.
  have hpos' : 0 < (s.servers p).returns ⟨.reduce, job.nrReducer - 1⟩ :=
    Server.returns_pos.mpr ⟨0, hret⟩
  have hreq := Nat.lt_of_lt_of_le hpos' ((coherent_of_reaches hr p).returns_le _)
  obtain ⟨s', hr', q, hsent⟩ := exists_requested hr (List.count_pos_iff.mp hreq) hfew
  exact absurd (h.requests s' hr' q _ hsent) (Nat.lt_irrefl _)

/-- **The two counts are independent only if they are equal.** If there are as many reducers
as mappers, and in the runs without crashes no controller is ended by an exception and every
reducer returns 0, these runs are as expected of two counts. They never are if the counts
differ. -/
theorem countsIndependent_square (job : Job) (d : Disk) :
    (job.nrMapper = job.nrReducer ∧ Smooth job d → CountsIndependent job d) ∧
      (CountsIndependent job d → job.nrMapper = job.nrReducer) := by
  constructor
  · intro h
    obtain ⟨hsquare, hsmooth⟩ := h
    exact countsIndependent_of_square hsquare hsmooth
  · exact CountsIndependent.square

/-- Functions that never throw make for smooth runs. -/
theorem Job.Returns.smooth {content : Str} (hret : job.Returns) (hd : d job.input = some content)
    (hlen : (InputStream.lines '\n' content).length < 2 ^ 31)
    (hapart : ∀ t : Task, t.id < job.nrMapper → job.input ∉ job.writes t) : Smooth job d :=
  fun _ l hr p k e hl hk hfresh =>
    (begins_succeeds hret hd hlen hapart hr l p k e hl hk hfresh).clean

/-- With more reducers than mappers `process` never returns. -/
theorem not_stopping_of_lt {ok : State → Label → Prop} (hlt : job.nrMapper < job.nrReducer)
    (hr : Transition.Reaches (step job) ok (.init d) s) : s.ctrl.stopping = false := by
  by_contra hne
  have hst := (control_of_reaches hr).finished .reduce (Bool.eq_true_of_not_eq_false hne) _ hlt
  obtain ⟨-, p, code, hcode⟩ := reported_of_reaches hr hst
  exact absurd (lt_of_returned hr hcode) (Nat.lt_irrefl _)

/-- Two workers on three lines. -/
theorem countsIndependent_square_lineNumbers :
    CountsIndependent Job.lineNumbers (Job.sampleDisk "aa\nb\naa\n".toList) := by
  have hret : Job.lineNumbers.Returns := ⟨fun _ _ => rfl, fun _ _ => rfl⟩
  exact (countsIndependent_square Job.lineNumbers (Job.sampleDisk "aa\nb\naa\n".toList)).1
    ⟨rfl, hret.smooth (Job.sampleDisk_input _) (by decide) sampleJob_writes⟩

/-- The application of `Job.oneWorker` with other counts. -/
def unevenJob (m r : ℕ) (hm : 0 < m) (hm' : m < 2 ^ 31) (hr : 0 < r) (hr' : r < 2 ^ 31) : Job where
  inputFileName := "in.txt".toList
  outputResultDirectory := "data".toList
  nrMapper := m
  nrReducer := r
  nrMapper_pos := hm
  nrMapper_lt := hm'
  nrReducer_pos := hr
  nrReducer_lt := hr'
  hashers := Job.oneWorker.hashers
  iface := Job.oneWorker.iface

/-- Two mappers and one reducer. -/
def moreMappers : Job :=
  unevenJob 2 1 Job.two_workers.1 Job.two_workers.2 Job.one_worker.1 Job.one_worker.2

/-- One mapper and two reducers. -/
def moreReducers : Job :=
  unevenJob 1 2 Job.one_worker.1 Job.one_worker.2 Job.two_workers.1 Job.two_workers.2

/-- A run of two mappers up to the sweep of the reduce phase, in which the reducer does not
have to be done. -/
def unevenRun : List Label :=
  [List.replicate 6 .master, [.connect 0 0, .connect 1 1], List.replicate 3 .master,
    [.execute 0 0], List.replicate 4 (.file 0 0), [.execute 1 0], List.replicate 4 (.file 1 0),
    [.master, .master, .execute 0 0], [.master, .master, .master, .execute 1 0],
    List.replicate 8 .master, [.execute 0 1, .master, .master]].flatten

/-- Two mappers and one reducer: the sweep reads behind the status vector. One mapper and
two reducers: the second reducer is never asked, and `process` never returns. -/
theorem counts_depend :
    (¬ CountsIndependent moreMappers (Job.sampleDisk []) ∧
      ∃ s, Transition.Reaches (step moreMappers) CrashFree (.init (Job.sampleDisk [])) s ∧
        s.ctrl = .undefined) ∧
    ¬ CountsIndependent moreReducers (Job.sampleDisk []) ∧
      ∀ s, Transition.Reaches (step moreReducers) CrashFree (.init (Job.sampleDisk [])) s →
        s.ctrl ≠ .returned := by
  refine ⟨⟨fun h => absurd h.square (by decide), ?_⟩, fun h => absurd h.square (by decide),
    fun s hs hc => ?_⟩
  · have hrun : (Transition.run (step moreMappers) unevenRun
        (.init (Job.sampleDisk []))).map State.ctrl = some .undefined := by decide +kernel
    obtain ⟨s, hs, hc⟩ := Option.map_eq_some_iff.mp hrun
    exact ⟨s, Transition.reaches_of_labels
      (fun l hl _ p he => by subst he; simp [unevenRun] at hl) hs, hc⟩
  · have hstop := not_stopping_of_lt (by decide) hs
    rw [hc] at hstop
    cases hstop

end MapReduceCpp
