import MapReduceCpp.Process.Counts
import MapReduceCpp.Process.WakeUp
import Mathlib.Algebra.Order.BigOperators.Group.Finset
import Mathlib.Data.Prod.Lex

/-!
# MapReduceCpp.Process.Ranking

How far a state is from the return of `process`.

The rank of a state is compared lexicographically. In front stands the part of `process`
the master is in, then the number of tasks of the phase that are not reported done, then
the workers without a live process, then the operations the live processes still have to
perform for their tasks. Only when these have nothing left to do, or the master is outside
the sweep, does it count where the master is: a master that sweeps over pending tasks
makes no progress, and no step of its sweep is progress.

A killed process raises the rank and a step of anybody else does not: what the steps of
each kind do to the parts of the rank is stated here, for `Process.Liveness` to put
together.
-/

namespace MapReduceCpp

open FileProg

variable {job : Job} {s s' : State} {l : Label} {c : Ctrl} {ph : Phase} {w p q : ℕ} {t : Task}
  {d : Disk}

/-! ### Work

The operations that are left are counted by running the programs to their end on the disk as it
is. The count is right although others write in between, because nobody writes what a program of
the same phase reads. -/

/-- The operations a request asks for, if it is a task; taking it up and ending it count
as well. -/
def Request.work (job : Job) (d : Disk) : Request → ℕ
  | .task t => (job.program t).length .all d + 2
  | _ => 0

/-- The operations a process still has to perform for the tasks it has been sent. -/
def Server.work (job : Job) (d : Disk) (v : Server) : ℕ :=
  (v.inbox.map (Request.work job d)).sum +
    (v.running.map fun e => e.prog.length .all d + 1).sum

/-- The operations all processes still have to perform. -/
def State.work (job : Job) (s : State) : ℕ :=
  ∑ p ∈ Finset.range s.spawned, (s.servers p).work job s.disk

theorem Server.work_eq_zero {v : Server} :
    v.work job d = 0 ↔ (∀ t, .task t ∉ v.inbox) ∧ v.running = [] := by
  unfold Server.work
  rw [Nat.add_eq_zero_iff, List.sum_eq_zero_iff, List.sum_eq_zero_iff]
  refine and_congr ⟨fun h t ht => ?_, fun h n hn => ?_⟩ ⟨fun h => ?_, fun h => ?_⟩
  · exact absurd (h _ (List.mem_map_of_mem ht)) (Nat.succ_ne_zero _)
  · obtain ⟨req, hreq, rfl⟩ := List.mem_map.mp hn
    cases req with
    | task t => exact absurd hreq (h t)
    | isDone ph => rfl
    | stopServer => rfl
  · cases hr : v.running with
    | nil => rfl
    | cons e es =>
      exact absurd (h _ (List.mem_map_of_mem (hr ▸ List.mem_cons_self))) (Nat.succ_ne_zero _)
  · rw [h]
    intro n hn
    cases hn

theorem Server.work_receive {v : Server} {req : Request} (h : req.work job d = 0) :
    (v.receive req).work job d = v.work job d := by
  unfold Server.receive Server.work
  cases v.alive <;> simp [h]

/-- What is left of a list of numbers when one is taken out. -/
theorem sum_map_eraseIdx {α : Type} {xs : List α} {k : ℕ} {a : α} (h : xs[k]? = some a)
    (f : α → ℕ) : (xs.map f).sum = ((xs.eraseIdx k).map f).sum + f a := by
  obtain ⟨hk, rfl⟩ := List.getElem?_eq_some_iff.mp h
  rw [← ((List.getElem_cons_eraseIdx_perm hk).map f).sum_eq, List.map_cons, List.sum_cons,
    Nat.add_comm]

theorem sum_map_set {α : Type} {xs : List α} {k : ℕ} {a : α} (h : xs[k]? = some a) (b : α)
    (f : α → ℕ) : (xs.map f).sum + f b = ((xs.set k b).map f).sum + f a := by
  have hset : (xs.set k b)[k]? = some b := by
    rw [List.getElem?_set_self (List.getElem?_eq_some_iff.mp h).1]
  rw [sum_map_eraseIdx h f, sum_map_eraseIdx hset f, List.eraseIdx_set_eq]
  omega

/-- The work of all processes follows that of the one that changes. -/
theorem State.work_le (hspawned : s'.spawned = s.spawned) (hdisk : ∀ q, q ≠ p →
      (s'.servers q).work job s'.disk = (s.servers q).work job s.disk)
    (hp : (s'.servers p).work job s'.disk ≤ (s.servers p).work job s.disk) :
    s'.work job ≤ s.work job := by
  unfold State.work
  rw [hspawned]
  refine Finset.sum_le_sum fun q _ => ?_
  by_cases hq : q = p
  · rw [hq]
    exact hp
  · exact (hdisk q hq).le

theorem State.work_lt (hspawned : s'.spawned = s.spawned) (hlt : p < s.spawned)
    (hdisk : ∀ q, q ≠ p → (s'.servers q).work job s'.disk = (s.servers q).work job s.disk)
    (hp : (s'.servers p).work job s'.disk < (s.servers p).work job s.disk) :
    s'.work job < s.work job := by
  unfold State.work
  rw [hspawned]
  refine Finset.sum_lt_sum (fun q _ => ?_) ⟨p, Finset.mem_range.mpr hlt, hp⟩
  by_cases hq : q = p
  · rw [hq]
    exact hp.le
  · exact (hdisk q hq).le

theorem State.work_congr (hspawned : s'.spawned = s.spawned)
    (h : ∀ q, (s'.servers q).work job s'.disk = (s.servers q).work job s.disk) :
    s'.work job = s.work job := by
  unfold State.work
  rw [hspawned]
  exact Finset.sum_congr rfl fun q _ => h q

theorem State.exists_work (h : s.work job ≠ 0) :
    ∃ p < s.spawned, (s.servers p).work job s.disk ≠ 0 := by
  by_contra hno
  push Not at hno
  exact h (Finset.sum_eq_zero fun p hp => hno p (Finset.mem_range.mp hp))

/-- A file operation of one task is no work for another one of the same phase: what that one
reads it does not change. -/
theorem length_stays (hb : job.Sound) (hi : Orderly job s) (hcr : Credit s)
    (hconf : Confined job s) {k : ℕ} {e : Exec} {prog prog' : FileProg Path Char TaskResult}
    (hk : (s.servers p).running[k]? = some e) (hop : e.prog.step .all s.disk = some (prog, d))
    (hph : t.phase = s.ctrl.phase) (hid : t.id < job.nrMapper)
    (hwithin : prog'.Within (job.reads t) (job.writes t)) :
    prog'.length .all d = prog'.length .all s.disk := by
  have he := List.mem_of_getElem? hk
  have htask := (hcr.running hi he).1
  refine length_congr hwithin (fun x hx => hb.reads_apart rfl hid hx) fun x hx => ?_
  refine ((hconf p e he).1.step hop).2 x (hb.reads_apart (by rw [hph, htask]) ?_ hx)
  rw [htask]
  exact hi.topology.worker_lt p (hi.topology.lt_of_alive (hi.running he).1)

/-- A file operation leaves the work of the other processes as it is, both what waits there and
what runs. -/
theorem work_stays (hb : job.Sound) (hi : Orderly job s) (hcr : Credit s) (hconf : Confined job s)
    {k : ℕ} {e : Exec} {prog : FileProg Path Char TaskResult}
    (hk : (s.servers p).running[k]? = some e) (hop : e.prog.step .all s.disk = some (prog, d)) :
    (∀ req ∈ (s.servers q).inbox, req.work job d = req.work job s.disk) ∧
      ∀ e' ∈ (s.servers q).running, e'.prog.length .all d = e'.prog.length .all s.disk := by
  refine ⟨fun req hreq => ?_, fun e' he' => ?_⟩
  · cases req with
    | task t =>
      obtain ⟨hlive, hwait, hpos⟩ := hi.waiting hreq
      have hcons := (hi.coherent q).conserved hlive t
      obtain ⟨rfl, -⟩ := hcr.pending hi hlive hpos (by omega)
      have hid := hi.topology.worker_lt q (hi.topology.lt_of_alive hlive)
      simp only [Request.work]
      rw [length_stays hb hi hcr hconf hk hop rfl hid (Job.program_within _)]
    | isDone ph => rfl
    | stopServer => rfl
  · have htask := (hcr.running hi he').1
    refine length_stays hb hi hcr hconf hk hop (by rw [htask]) ?_ (hconf q e' he').1
    rw [htask]
    exact hi.topology.worker_lt q (hi.topology.lt_of_alive (hi.running he').1)

/-! ### The rank

The order of the parts is the argument. A task that is reported done outweighs everything the
sweep may do afterwards, a restart outweighs the work that it puts back to the beginning, and
work outweighs the place of the master. That a killed process makes the number of restarts grow
is the reason why deaths have to come to an end. -/

namespace Ctrl

/-- The part of `process` the master is in, counted from the end. A loop that ends after a
number of passes counts them; the heart-beat loops do not, and count once. -/
def stage (n : ℕ) : Ctrl → ℕ
  | fork i => 4 * n + 7 + (n - i)
  | connect i => 3 * n + 6 + (n - i)
  | dispatch .map i => 2 * n + 5 + (n - i)
  | dispatch .reduce i => n + 3 + (n - i)
  | stop i => 1 + (n - i)
  | returned | undefined => 0
  | c => match c.phase with
    | .map => 2 * n + 4
    | .reduce => n + 2

/-- The master is in a sweep and does not replace a worker. -/
def resting : Ctrl → Bool
  | check _ _ | poll _ _ | await _ _ | sweepEnd _ => true
  | _ => false

end Ctrl

namespace State

variable (job)

/-- The tasks of the phase that are not reported done. -/
def undone (s : State) : ℕ := job.count s.ctrl.phase - (s.phases s.ctrl.phase).nrDone

/-- The workers without a live process. -/
def vacant (s : State) : Finset ℕ :=
  (Finset.range job.nrMapper).filter fun w =>
    ∀ p < s.spawned, (s.servers p).alive = true → (s.servers p).worker ≠ w

/-- The steps that are left to replace the vacant workers. A restart under way has its own steps
to go when its worker is vacant no more. -/
def restarts (s : State) : ℕ :=
  match s.ctrl with
  | .refork _ _ => 4 * (s.vacant job).card - 1
  | .reconnect _ _ => 4 * (s.vacant job).card + 2
  | .resend _ _ => 4 * (s.vacant job).card + 1
  | .stop _ | .returned | .undefined => 0
  | _ => 4 * (s.vacant job).card

variable {job}

/-- A task that is not reported done is ahead in the sweep, so that the master will come to it
without going round. -/
def ahead (s : State) (ph : Phase) (w : ℕ) : Bool := ((s.phases ph).taskStatus.drop w).any (· != 1)

/-- The client of a worker has not found out yet that the process behind it is gone. -/
def unnoticed (s : State) (w : ℕ) : Bool :=
  match s.clientPool[w]? with
  | some (.connected p) => !(s.servers p).alive
  | _ => false

/-- The process of a worker has answered. -/
def answer (s : State) (w : ℕ) : Option (Phase × Bool) :=
  (s.linked w).bind fun p => (s.servers p).reply

/-- The answer on its way to the master is negative. -/
def stale (s : State) : ℕ :=
  match s.ctrl with
  | .await _ w => if (s.answer w).any (fun a => !a.2) then 1 else 0
  | _ => 0

variable (job)

/-- How far the master is from the next worker whose task is not reported done; outside the
sweep, whether it waits for a connection. A sweep with nothing ahead has to go round once more,
which the bonus pays for. -/
def position (s : State) : ℕ :=
  match s.ctrl with
  | .check ph w =>
    6 * (job.nrMapper - w) + (if s.ahead ph w then 0 else 6 * job.nrMapper + 8) + 5 +
      (if s.unnoticed w then 1 else 0)
  | .poll _ w => 6 * (job.nrMapper - w) + 4
  | .await _ w => 6 * (job.nrMapper - w) + (if (s.answer w).isSome then 2 else 3)
  | .sweepEnd _ => 6 * job.nrMapper + 7
  | c => if c.calls.any (fun w => s.clientPool[w]? = some .initial) then 1 else 0

/-- The master sweeps over tasks that are still being worked on. Where it is in the sweep does
not matter then. -/
def Working (s : State) : Prop := s.ctrl.resting = true ∧ s.work job ≠ 0

instance (s : State) : Decidable (s.Working job) := inferInstanceAs (Decidable (_ ∧ _))

/-- What counts when nothing in front of it does: whether the answer under way was given too
early, and the position. -/
def place (s : State) : ℕ ×ₗ ℕ :=
  if s.Working job then toLex (0, 0) else toLex (s.stale, s.position job)

/-- How far `process` is from its return. -/
def rank (s : State) : ℕ ×ₗ ℕ ×ₗ ℕ ×ₗ ℕ ×ₗ ℕ ×ₗ ℕ :=
  toLex (s.ctrl.stage job.nrMapper, toLex (s.undone job, toLex (s.restarts job,
    toLex (s.work job, s.place job))))

end State

/-- Lexicographic comparison with what is known not to grow in front. -/
theorem toLex_lt_of_le {α : Type} [Preorder α] {m n : ℕ} {a b : α} (h : m ≤ n) (hab : a < b) :
    toLex (m, a) < toLex (n, b) := by
  rcases Nat.lt_or_eq_of_le h with hlt | rfl
  · exact Prod.Lex.toLex_lt_toLex.mpr (.inl hlt)
  · exact Prod.Lex.toLex_lt_toLex.mpr (.inr ⟨rfl, hab⟩)

theorem toLex_lt_of_lt {α : Type} [Preorder α] {m n : ℕ} {a b : α} (h : m < n) :
    toLex (m, a) < toLex (n, b) := Prod.Lex.toLex_lt_toLex.mpr (.inl h)

theorem rank_lt_of_stage (h : s'.ctrl.stage job.nrMapper < s.ctrl.stage job.nrMapper) :
    s'.rank job < s.rank job := toLex_lt_of_lt h

/-- The part of `process` and the phase stay as they are, or the tasks get fewer. -/
structure NoLater (job : Job) (s s' : State) : Prop where
  stage : s'.ctrl.stage job.nrMapper ≤ s.ctrl.stage job.nrMapper
  undone : s'.undone job ≤ s.undone job

theorem rank_lt_of_undone (hstage : s'.ctrl.stage job.nrMapper ≤ s.ctrl.stage job.nrMapper)
    (h : s'.undone job < s.undone job) : s'.rank job < s.rank job :=
  toLex_lt_of_le hstage (toLex_lt_of_lt h)

theorem rank_lt_of_restarts (hn : NoLater job s s') (h : s'.restarts job < s.restarts job) :
    s'.rank job < s.rank job :=
  toLex_lt_of_le hn.stage (toLex_lt_of_le hn.undone (toLex_lt_of_lt h))

theorem rank_lt_of_work (hn : NoLater job s s') (hr : s'.restarts job ≤ s.restarts job)
    (h : s'.work job < s.work job) : s'.rank job < s.rank job :=
  toLex_lt_of_le hn.stage (toLex_lt_of_le hn.undone (toLex_lt_of_le hr (toLex_lt_of_lt h)))

theorem rank_lt_of_place (hn : NoLater job s s') (hr : s'.restarts job ≤ s.restarts job)
    (hw : s'.work job ≤ s.work job) (h : s'.place job < s.place job) : s'.rank job < s.rank job :=
  toLex_lt_of_le hn.stage (toLex_lt_of_le hn.undone (toLex_lt_of_le hr (toLex_lt_of_le hw h)))

/-- While the master is free, its place counts. -/
theorem place_of_not_working (h : ¬ s.Working job) :
    s.place job = toLex (s.stale, s.position job) := if_neg h

theorem place_of_working (h : s.Working job) : s.place job = toLex (0, 0) := if_pos h

/-! ### What helps to tell the rank

That handlers end without a fault, that a flag is set behind every call, and what else is known
of a timely run, in one record, so that a step has to be looked at in one context. -/

/-- The user functions throw nothing but `int`s, and the lines of the input can be
numbered. -/
structure Job.Tolerant (job : Job) (d : Disk) : Prop where
  map : ∀ k v fault, (job.iface.mapFn k v).2 = some fault → ∃ n, fault = .int n
  reduce : ∀ k vs fault, (job.iface.reduceFn k vs).2 = some fault → ∃ n, fault = .int n
  lines : ∀ content, d job.input = some content →
    (InputStream.lines '\n' content).length < 2 ^ 31

/-- In the map phase nobody has written over the input file, as only mappers run. -/
theorem input_of_reaches {ok : State → Label → Prop} (hb : job.Sound)
    (h : Transition.Reaches (step job) ok (.init d) s) (hphase : s.ctrl.phase = .map) :
    s.disk job.input = d job.input := by
  induction h with
  | refl => rfl
  | @tail s s' l hr hok hstep ih =>
    have hi := orderly_of_reaches hr
    have hs := step_cases hstep
    have hold : s.ctrl.phase = .map := by
      cases hold : s.ctrl.phase with
      | map => rfl
      | reduce => rw [hs.phase_reduce hi.control hold] at hphase; cases hphase
    rcases hs.files with ⟨p, k, e, prog, d', -, hk, hop, rfl⟩ | ⟨hdisk, -⟩
    · have he := List.mem_of_getElem? hk
      have htask := ((credit_of_reaches hr).running hi he).1
      rw [← ih hold]
      refine ((confined_of_reaches hr p e he).1.step hop).2 _ (hb.input_apart ?_ ?_)
      · rw [htask, hold]
      · rw [htask]
        exact hi.topology.worker_lt p (hi.topology.lt_of_alive (hi.running he).1)
    · rw [hdisk, ih hold]

/-- Whatever is thrown at a controller of any run is caught. -/
def Job.Catches (job : Job) (d : Disk) : Prop :=
  ∀ s l, Transition.Reaches (step job) (fun _ _ => True) (.init d) s → Begins job job.Caught s l

/-- Functions that throw nothing but `int`s are caught in every run. -/
theorem Job.Tolerant.catches (hb : job.Sound) (htol : job.Tolerant d) : job.Catches d := by
  intro s l h p k e _ hk _
  have hphase := ((credit_of_reaches h).running (orderly_of_reaches h) (List.mem_of_getElem? hk)).1
  obtain ⟨⟨ph, idx⟩, prog, opened⟩ := e
  cases ph with
  | map =>
    intro content hd
    rw [input_of_reaches hb h (congrArg Task.phase hphase).symm] at hd
    refine ⟨fun fault hfault => ?_, fun _ => htol.lines content hd⟩
    obtain ⟨line, -, hline⟩ := List.exists_of_findSome?_eq_some hfault
    unfold Job.thrown at hline
    split at hline
    · exact htol.map _ _ fault hline
    · cases hline
  | reduce =>
    intro fault hfault
    obtain ⟨e, -, he⟩ := List.exists_of_findSome?_eq_some hfault
    exact htol.reduce _ _ fault he

/-- A flag is set when the task has returned. -/
theorem Move.flagged {v v' : Server} (hm : Move job v v')
    (h : ∀ t, 0 < v.returns t → v.completed t.phase = true) (ht : 0 < v'.returns t) :
    v'.completed t.phase = true := by
  cases hm with
  | @finish k e code hk =>
    by_cases hph : t.phase = e.task.phase
    · rw [hph]
      exact Function.update_self ..
    · have hne : e.task ≠ t := fun he => hph (congrArg Task.phase he).symm
      simp only [Function.update_of_ne hph]
      refine h t ?_
      simpa [Server.returns, List.count_append, List.count_singleton, hne] using ht
  | _ => exact h t ht

theorem flagged_of_reaches {ok : State → Label → Prop}
    (h : Transition.Reaches (step job) ok (.init d) s) (ht : 0 < (s.servers p).returns t) :
    (s.servers p).completed t.phase = true := by
  induction h generalizing p t with
  | refl => cases ht
  | tail _ _ hstep ih =>
    rcases (step_cases hstep).server p with hsame | hmove | ⟨-, w, hfresh⟩
    · rw [hsame] at ht ⊢
      exact ih ht
    · exact hmove.flagged (fun _ => ih) ht
    · rw [hfresh] at ht
      cases ht

/-- What is known of the states of a timely run of a job that catches what is thrown. -/
structure Fit (job : Job) (s : State) : Prop where
  sound : job.Sound
  orderly : Orderly job s
  credit : Credit s
  confined : Confined job s
  polls : Polls s
  awake : Awake job s
  delivered : ∀ p, ∀ req ∈ (s.servers p).inbox, req ∈ (s.servers p).sent
  /-- No controller ends its process. -/
  ends : ∀ p, ∀ e ∈ (s.servers p).running, ∀ res, e.prog = .done res →
    ∃ code, res.outcome = .ok code
  flagged : ∀ p t, 0 < (s.servers p).returns t → (s.servers p).completed t.phase = true
  defined : s.ctrl ≠ .undefined

/-- All this holds in every state of a timely run. -/
theorem fit_of_reaches (hb : job.Sound) (hcatch : job.Catches d)
    (h : Transition.Reaches (step job) Timely (.init d) s) : Fit job s where
  sound := hb
  orderly := orderly_of_reaches h
  credit := credit_of_reaches h
  confined := confined_of_reaches h
  polls := polls_of_reaches h
  awake := awake_of_reaches h
  delivered := delivered_of_reaches h
  ends := by
    intro p e he res hprog
    have hbegins : Transition.Reaches (step job) (Begins job job.Caught) (.init d) s :=
      h.strengthen fun _ l hr _ => hcatch _ l hr.any
    rcases (ends_of_reaches (P := fun out => ∃ code, out = .ok code)
      (fun _ _ ht => Job.Caught.outcome ht) (fun _ _ hb => hb) hbegins).1 p e he with
      hfresh | hsettled
    · exact absurd (hfresh.symm.trans hprog) (Job.program_ne_done _ _)
    · exact hsettled.outcome hprog
  flagged := fun _ _ => flagged_of_reaches h
  defined := defined_of_reaches hb.square.le h

/-! ### What steps do to the rank

The parts in front change in few steps: a worker is vacant from a death to a fork, and the work
grows only when a task is sent. A step inside a sweep is then a matter of the place alone
(`rank_sweep`). -/

/-- Outside the last loop nobody ends, since handlers end without a fault and nobody has been
told to stop. -/
theorem Fit.alive (h : Fit job s) (hs : Step job s l s') (hl : CrashFree s l)
    (hstop : s.ctrl.stopping = false) (hp : (s.servers p).alive = true) :
    (s'.servers p).alive = true := by
  rcases hs.dies hp with hlive | hexit | hkill | ⟨k, e, res, fault, -, hk, hprog, hres⟩
  · exact hlive
  · rw [h.orderly.accounting.stops p (h.delivered p _ hexit)] at hstop
    cases hstop
  · exact absurd hkill (hl p)
  · obtain ⟨code, hcode⟩ := h.ends p e (List.mem_of_getElem? hk) res hprog
    rw [hres] at hcode
    cases hcode

/-- No fork, no change of the vacant workers, as long as nobody ends. -/
theorem Fit.vacant_eq (h : Fit job s) (hs : Step job s l s') (hl : CrashFree s l)
    (hstop : s.ctrl.stopping = false) (hspawned : s'.spawned = s.spawned) :
    s'.vacant job = s.vacant job := by
  unfold State.vacant
  rw [hspawned]
  refine Finset.filter_congr fun w _ => forall₂_congr fun p hp => ?_
  have hserver : ((s'.servers p).alive = true → (s.servers p).alive = true) ∧
      (s'.servers p).worker = (s.servers p).worker := by
    rcases hs.server p with hsame | hmove | ⟨rfl, -⟩
    · rw [hsame]
      exact ⟨id, rfl⟩
    · exact ⟨hmove.alive, hmove.worker⟩
    · exact absurd hp (Nat.lt_irrefl _)
  rw [hserver.2]
  exact ⟨fun hv hlive => hv (h.alive hs hl hstop hlive), fun hv hlive => hv (hserver.1 hlive)⟩

/-- A fork fills the place of a worker. -/
theorem State.vacant_spawn (hw : w ∈ s.vacant job) :
    ((s.spawn w).vacant job).card + 1 = (s.vacant job).card := by
  have herase : (s.spawn w).vacant job = (s.vacant job).erase w := by
    ext w'
    simp only [State.vacant, Finset.mem_erase, Finset.mem_filter, Finset.mem_range]
    constructor
    · rintro ⟨hlt, hv⟩
      refine ⟨fun he => ?_, hlt, fun p hp hlive => ?_⟩
      · exact hv s.spawned (Nat.lt_succ_self _) (by rw [State.spawn_self]; rfl)
          (by rw [State.spawn_self, he]; rfl)
      · have hne := Nat.ne_of_lt hp
        have hkeep := hv p (Nat.lt_succ_of_lt hp)
        rw [State.spawn_ne s w hne] at hkeep
        exact hkeep hlive
    · rintro ⟨hne, hlt, hv⟩
      refine ⟨hlt, fun p hp hlive => ?_⟩
      by_cases hq : p = s.spawned
      · rw [hq, State.spawn_self]
        exact fun he => hne he.symm
      · rw [State.spawn_ne s w hq] at hlive ⊢
        exact hv p (Nat.lt_of_le_of_ne (Nat.lt_succ_iff.mp hp) hq) hlive
  rw [herase, Finset.card_erase_of_mem hw]
  exact Nat.sub_add_cancel (Finset.card_pos.mpr ⟨w, hw⟩)

/-- The worker behind a connection that is gone is vacant: the live process of a worker is the
one its client leads to. -/
theorem Fit.vacant_of_gone (h : Fit job s) (hlt : w < job.nrMapper)
    (hcl : s.clientPool[w]? = some (.disconnected p)) (hc : ∀ ph, s.ctrl ≠ .reconnect ph w) :
    w ∈ s.vacant job := by
  refine Finset.mem_filter.mpr ⟨Finset.mem_range.mpr hlt, fun q _ hlive hq => ?_⟩
  have hlink : s.linked w = some p := State.linked_of_client hcl
  rcases h.orderly.topology.superseded w p q hlink hlive hq with rfl | ⟨ph, hre⟩
  · rw [h.orderly.topology.gone w q hcl] at hlive
    cases hlive
  · exact hc ph hre

/-- A poll and a stop are no work. -/
theorem State.work_deliver {req : Request} (h : req.work job s.disk = 0) :
    (s.deliver p req).work job = s.work job := by
  refine State.work_congr rfl fun q => ?_
  by_cases hq : q = p
  · subst hq
    rw [State.deliver_self]
    exact Server.work_receive h
  · rw [State.deliver_ne s req hq]
    rfl

/-- Two states of one part of `process` that differ in nothing that counts. -/
theorem rank_eq (hstage : s'.ctrl.stage job.nrMapper = s.ctrl.stage job.nrMapper)
    (hundone : s'.undone job = s.undone job) (hrestarts : s'.restarts job = s.restarts job)
    (hwork : s'.work job = s.work job) (hplace : s'.place job = s.place job) :
    s'.rank job = s.rank job := by
  unfold State.rank
  rw [hstage, hundone, hrestarts, hwork, hplace]

theorem Ctrl.stage_of_resting {c c' : Ctrl} (n : ℕ) (h : c.resting = true)
    (h' : c'.resting = true) (hphase : c'.phase = c.phase) : c'.stage n = c.stage n := by
  have key : ∀ {c : Ctrl}, c.resting = true → c.stage n = match c.phase with
      | .map => 2 * n + 4
      | .reduce => n + 2 := by
    intro c hc
    cases c <;> first | rfl | cases hc
  rw [key h, key h', hphase]

theorem State.restarts_of_resting (h : s.ctrl.resting = true) :
    s.restarts job = 4 * (s.vacant job).card := by
  unfold State.restarts
  cases hc : s.ctrl <;> first | rfl | (rw [hc] at h; cases h)

/-- A step inside a sweep: the place of the master gets lower, or it does not count, because
others are at work. -/
theorem rank_sweep (hrest : s.ctrl.resting = true) (hrest' : s'.ctrl.resting = true)
    (hphase : s'.ctrl.phase = s.ctrl.phase) (hundone : s'.undone job = s.undone job)
    (hvacant : s'.vacant job = s.vacant job) (hwork : s'.work job = s.work job)
    (hplace : s.work job = 0 →
      toLex (s'.stale, s'.position job) < toLex (s.stale, s.position job)) :
    s'.rank job < s.rank job ∨ s'.rank job = s.rank job ∧ s.Working job := by
  have hstage := Ctrl.stage_of_resting job.nrMapper hrest hrest' hphase
  have hrestarts : s'.restarts job = s.restarts job := by
    rw [State.restarts_of_resting hrest, State.restarts_of_resting hrest', hvacant]
  by_cases hzero : s.work job = 0
  · left
    refine rank_lt_of_place ⟨hstage.le, hundone.le⟩ hrestarts.le hwork.le ?_
    rw [place_of_not_working fun hw => hw.2 hzero,
      place_of_not_working fun hw => hw.2 (hwork.trans hzero)]
    exact hplace hzero
  · have hw : s.Working job := ⟨hrest, hzero⟩
    refine .inr ⟨rank_eq hstage hundone hrestarts hwork ?_, hw⟩
    rw [place_of_working hw, place_of_working ⟨hrest', hwork ▸ hzero⟩]

/-! ### Where the next pending task is

Going on over an entry that is 1 leaves the next pending one where it is, and behind the last
entry there is none. -/

/-- An entry that is not 1 is ahead of every place before it. -/
theorem State.ahead_of {v st : ℕ} (hwv : w ≤ v) (hst : (s.phases ph).taskStatus[v]? = some st)
    (hne : st ≠ 1) : s.ahead ph w = true := by
  refine List.any_eq_true.mpr ⟨st, ?_, by simpa using hne⟩
  refine List.mem_iff_getElem?.mpr ⟨v - w, ?_⟩
  rw [List.getElem?_drop, Nat.add_sub_cancel' hwv, hst]

theorem State.ahead_succ (hst : (s.phases ph).taskStatus[w]? = some 1) :
    s.ahead ph (w + 1) = s.ahead ph w := by
  obtain ⟨hlt, hone⟩ := List.getElem?_eq_some_iff.mp hst
  unfold State.ahead
  rw [List.drop_eq_getElem_cons hlt, hone]
  rfl

theorem State.ahead_length (hle : (s.phases ph).taskStatus.length ≤ w) : s.ahead ph w = false := by
  unfold State.ahead
  rw [List.drop_eq_nil_iff.mpr hle]
  rfl

/-- In the loop of a phase a count that is not full leaves a task to be reported. -/
theorem Control.ahead_zero (h : Control job s) (hstarted : s.ctrl.started ph = true)
    (hdone : (s.phases ph).nrDone ≠ job.count ph) : s.ahead ph 0 = true := by
  have hlen : (s.phases ph).taskStatus.length = job.count ph := by
    rw [h.statuses, if_pos hstarted]
  by_contra hno
  have hall : ∀ st ∈ (s.phases ph).taskStatus, 1 = st := by
    intro st hst
    by_contra hne
    obtain ⟨v, hv⟩ := List.mem_iff_getElem?.mp hst
    exact hno (State.ahead_of (Nat.zero_le v) hv (Ne.symm hne))
  exact hdone (by rw [h.counted, List.count_eq_length.mpr hall, hlen])

end MapReduceCpp
