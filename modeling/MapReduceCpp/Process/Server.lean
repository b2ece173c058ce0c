import MapReduceCpp.Process.Step

/-!
# MapReduceCpp.Process.Server

A worker process on its own.

Whatever the master and the other workers do, a step of the system is for one
process a `Move`, or nothing, or its fork (`Step.server`). So what is invariant
under moves holds of every process: `Server.Coherent` says that a live process
accounts for each task sent to it (as waiting, in progress or returned, with
multiplicity), and that a done flag, and an answer that reports it, stand for a
controller call that has returned in this process.
-/

namespace MapReduceCpp

variable {job : Job} {s s' : State} {l : Label} {v v' : Server} {t : Task}

/-- What can happen to a process. The guards are those that speak of the process itself; that a
request has a sender, for one, is not among them. -/
inductive Move (job : Job) (v : Server) : Server → Prop
  | receive (req : Request) : Move job v (v.receive req)
  | taken : Move job v { v with reply := none }
  | start {k : ℕ} {t : Task} : v.inbox[k]? = some (.task t) →
      Move job v
        { v with
          inbox := v.inbox.eraseIdx k
          running := v.running ++ [⟨t, job.program t, []⟩] }
  | reply {k : ℕ} {ph : Phase} : v.inbox[k]? = some (.isDone ph) →
      Move job v { v with inbox := v.inbox.eraseIdx k, reply := some (ph, v.completed ph) }
  | op {k : ℕ} {e : Exec} {prog : FileProg Path Char TaskResult} {opened : List Path} :
      v.running[k]? = some e → Move job v { v with running := v.running.set k ⟨e.task, prog, opened⟩ }
  | finish {k : ℕ} {e : Exec} {code : ℤ} : v.running[k]? = some e →
      Move job v
        { v with
          running := v.running.eraseIdx k
          completed := Function.update v.completed e.task.phase true
          returned := v.returned ++ [(e.task, code)] }
  | terminate : Move job v v.terminate

namespace State

@[simp] theorem setServer_self (s : State) (pid : ℕ) (v : Server) :
    (s.setServer pid v).servers pid = v := Function.update_self _ _ _

theorem setServer_ne (s : State) {pid q : ℕ} (v : Server) (h : q ≠ pid) :
    (s.setServer pid v).servers q = s.servers q := Function.update_of_ne h _ _

@[simp] theorem spawn_self (s : State) (w : ℕ) :
    (s.spawn w).servers s.spawned = .fresh w s.completed := Function.update_self _ _ _

theorem spawn_ne (s : State) (w : ℕ) {q : ℕ} (h : q ≠ s.spawned) :
    (s.spawn w).servers q = s.servers q := Function.update_of_ne h _ _

/-- What holds of every process still does when one is replaced, if it holds of the new one. -/
theorem forall_setServer {P : ℕ → Server → Prop} {pid : ℕ} {v : Server} (hv : P pid v)
    (hrest : ∀ q, P q (s.servers q)) (q : ℕ) : P q ((s.setServer pid v).servers q) := by
  by_cases hq : q = pid
  · subst hq
    rwa [setServer_self]
  · rw [setServer_ne s v hq]
    exact hrest q

/-- And when one is forked, if it holds of a process that has just begun. -/
theorem forall_spawn {P : ℕ → Server → Prop} (w : ℕ) (hv : P s.spawned (.fresh w s.completed))
    (hrest : ∀ q, P q (s.servers q)) (q : ℕ) : P q ((s.spawn w).servers q) :=
  forall_setServer hv hrest q

@[simp] theorem deliver_self (s : State) (pid : ℕ) (req : Request) :
    (s.deliver pid req).servers pid = (s.servers pid).receive req := Function.update_self _ _ _

theorem deliver_ne (s : State) {pid q : ℕ} (req : Request) (h : q ≠ pid) :
    (s.deliver pid req).servers q = s.servers q := Function.update_of_ne h _ _

@[simp] theorem credit_servers (s : State) (ph : Phase) (w : ℕ) (status : Bool) :
    (s.credit ph w status).servers = s.servers := by
  cases status <;> rfl

end State

/-- A process makes a move, stays as it is, or is new. Whatever is said of all processes is
shown by this and by cases on `Move`. -/
theorem Step.server (h : Step job s l s') (q : ℕ) :
    s'.servers q = s.servers q ∨ Move job (s.servers q) (s'.servers q) ∨
      q = s.spawned ∧ ∃ w, s'.servers q = .fresh w s.completed := by
  have hset : ∀ {pid : ℕ} {v : Server}, Move job (s.servers pid) v →
      (s.setServer pid v).servers q = s.servers q ∨
        Move job (s.servers q) ((s.setServer pid v).servers q) ∨
          q = s.spawned ∧ ∃ w, (s.setServer pid v).servers q = .fresh w s.completed :=
    fun hv => State.forall_setServer
      (P := fun q v => v = s.servers q ∨ Move job (s.servers q) v ∨
        q = s.spawned ∧ ∃ w, v = .fresh w s.completed) (.inr (.inl hv)) (fun _ => .inl rfl) q
  have hspawn : ∀ w : ℕ, (s.spawn w).servers q = s.servers q ∨
      Move job (s.servers q) ((s.spawn w).servers q) ∨
        q = s.spawned ∧ ∃ w', (s.spawn w).servers q = .fresh w' s.completed :=
    fun w => State.forall_spawn
      (P := fun q v => v = s.servers q ∨ Move job (s.servers q) v ∨
        q = s.spawned ∧ ∃ w', v = .fresh w' s.completed) w (.inr (.inr ⟨rfl, w, rfl⟩))
      (fun _ => .inl rfl) q
  -- Each step names at most one process; of the others nothing has to be looked at.
  cases h with
  | goto _ => exact .inl rfl
  | fork _ _ => exact hspawn _
  | refork _ => exact hspawn _
  | client _ _ => exact .inl rfl
  | reclient _ _ => exact .inl rfl
  | send _ _ => exact hset (.receive _)
  | status _ _ => exact .inl rfl
  | answer _ _ _ =>
    simp only [State.goto, State.credit_servers]
    exact hset .taken
  | connect _ _ _ => exact .inl rfl
  | disconnect _ _ => exact .inl rfl
  | start _ hk => exact hset (.start hk)
  | reply _ hk => exact hset (.reply hk)
  | exit _ _ => exact hset .terminate
  | op hk _ => exact hset (.op hk)
  | finish hk _ _ => exact hset (.finish hk)
  | fault _ _ _ => exact hset .terminate
  | kill _ => exact hset .terminate

/-! ### What moves keep

The histories only grow, the worker of a process is its own for good, and nobody comes back to
life. -/

theorem Move.worker (h : Move job v v') : v'.worker = v.worker := by cases h <;> rfl

theorem Move.alive (h : Move job v v') (ha : v'.alive = true) : v.alive = true := by
  cases h <;> first | exact ha | cases ha

theorem Move.sent (h : Move job v v') {req : Request} (hreq : req ∈ v.sent) : req ∈ v'.sent := by
  cases h with
  | receive req' => exact List.mem_append_left _ hreq
  | _ => exact hreq

theorem Move.returned (h : Move job v v') {r : Task × ℤ} (hr : r ∈ v.returned) :
    r ∈ v'.returned := by
  cases h with
  | finish _ => exact List.mem_append_left _ hr
  | _ => exact hr

theorem Server.not_alive_terminate (v : Server) : ¬ v.terminate.alive = true := by
  intro h
  cases h

/-! ### Accounting for tasks

A task that was sent to a process is in one of three places there. The counts keep multiplicity,
as the master may well send a task twice, to different processes, and must not be believed to
have done so to one. -/

namespace Server

/-- How often a task has been sent to a process, whether it arrived or not. -/
def requested (v : Server) (t : Task) : ℕ := v.sent.count (.task t)

/-- How often a task waits for a thread. -/
def waiting (v : Server) (t : Task) : ℕ := v.inbox.count (.task t)

/-- How often a task is being run. -/
def inProgress (v : Server) (t : Task) : ℕ := (v.running.map Exec.task).count t

/-- How often a task has returned. -/
def returns (v : Server) (t : Task) : ℕ := (v.returned.map Prod.fst).count t

theorem returns_pos {v : Server} {t : Task} :
    0 < v.returns t ↔ ∃ code, (t, code) ∈ v.returned := by
  rw [returns, List.count_pos_iff, List.mem_map]
  constructor
  · intro h
    obtain ⟨⟨t', code⟩, hmem, rfl⟩ := h
    exact ⟨code, hmem⟩
  · intro h
    obtain ⟨code, hmem⟩ := h
    exact ⟨(t, code), hmem, rfl⟩

theorem inProgress_pos {v : Server} {t : Task} :
    0 < v.inProgress t ↔ ∃ e ∈ v.running, e.task = t := by
  rw [inProgress, List.count_pos_iff, List.mem_map]

/-- A process is coherent if it accounts for what was sent to it and its flags
tell the truth. -/
structure Coherent (v : Server) : Prop where
  /-- While the process lives no task is lost or doubled. -/
  conserved : v.alive = true → ∀ t, v.requested t = v.waiting t + v.inProgress t + v.returns t
  /-- What has returned was sent. -/
  returns_le : ∀ t, v.returns t ≤ v.requested t
  /-- A done flag stands for a call that has returned. The flag does not say of which task, as
  there is one for each phase. -/
  completed : ∀ ph, v.completed ph = true → ∃ idx, 0 < v.returns ⟨ph, idx⟩
  /-- So does an answer that reports it, which may still be under way when the process is dead. -/
  reply : ∀ ph, v.reply = some (ph, true) → ∃ idx, 0 < v.returns ⟨ph, idx⟩
  /-- A dead process does nothing. -/
  dead : v.alive = false → v.inbox = [] ∧ v.running = []

theorem coherent_none : Server.none.Coherent where
  conserved := by intro h; cases h
  returns_le := fun _ => le_rfl
  completed := by intro _ h; cases h
  reply := by intro _ h; cases h
  dead := fun _ => ⟨rfl, rfl⟩

/-- A process that is forked has the flags of the master, which are false. -/
theorem coherent_fresh (w : ℕ) : (Server.fresh w fun _ => false).Coherent where
  conserved := fun _ _ => rfl
  returns_le := fun _ => le_rfl
  completed := by intro _ h; cases h
  reply := by intro _ h; cases h
  dead := by intro h; cases h

end Server

/-- Taking an element out of a list takes one off its count. The inbox and the handlers both
lose elements from the middle. -/
theorem count_of_getElem? {α : Type} [DecidableEq α] {xs : List α} {k : ℕ} {a : α}
    (h : xs[k]? = some a) (b : α) :
    xs.count b = (xs.eraseIdx k).count b + if a = b then 1 else 0 := by
  obtain ⟨hk, rfl⟩ := List.getElem?_eq_some_iff.mp h
  rw [← (List.getElem_cons_eraseIdx_perm hk).count_eq b, List.count_cons]
  simp

/-- Replacing the rest of a controller keeps the list of tasks, so that an operation moves no
task. -/
theorem map_task_set {running : List Exec} {k : ℕ} {e : Exec} (h : running[k]? = some e)
    (prog : FileProg Path Char TaskResult) (opened : List Path) :
    (running.set k ⟨e.task, prog, opened⟩).map Exec.task = running.map Exec.task := by
  obtain ⟨hk, rfl⟩ := List.getElem?_eq_some_iff.mp h
  have hk' : k < (running.map Exec.task).length := by simpa using hk
  have htask : running[k].task = (running.map Exec.task)[k] := by rw [List.getElem_map]
  rw [List.map_set, htask, List.set_getElem_self]

/-- A move keeps a process coherent: each task that leaves one of the three places turns up in
the next. -/
theorem Move.coherent (h : Move job v v') (hv : v.Coherent) : v'.Coherent := by
  cases h with
  | receive req =>
    refine ⟨fun ha t => ?_, fun t => ?_, hv.completed, hv.reply, fun ha => ?_⟩
    · have hcons := hv.conserved ha t
      have ha' : v.alive = true := ha
      simp only [Server.requested, Server.waiting, Server.inProgress, Server.returns,
        Server.receive, ha', if_true, List.count_append] at hcons ⊢
      omega
    · have hle := hv.returns_le t
      simp only [Server.requested, Server.returns, Server.receive, List.count_append] at hle ⊢
      omega
    · -- A request to a dead process is lost.
      have hdead := hv.dead ha
      have ha' : v.alive = false := ha
      simp only [Server.receive, ha', Bool.false_eq_true, if_false]
      exact hdead
  | taken =>
    refine ⟨hv.conserved, hv.returns_le, hv.completed, fun ph h => ?_, hv.dead⟩
    cases h
  -- One task goes from those that wait to those in progress.
  | start hk =>
    rename_i k t
    refine ⟨fun ha t' => ?_, hv.returns_le, hv.completed, hv.reply, fun ha => ?_⟩
    · have hcons := hv.conserved ha t'
      have hcount := count_of_getElem? hk (.task t')
      simp only [Server.requested, Server.waiting, Server.inProgress, Server.returns,
        List.map_append, List.count_append, List.map_cons, List.map_nil, List.count_singleton,
        Request.task.injEq, beq_iff_eq] at hcons hcount ⊢
      omega
    · rw [(hv.dead ha).1] at hk
      cases hk
  | reply hk =>
    rename_i k ph
    refine ⟨fun ha t => ?_, hv.returns_le, hv.completed, fun ph' h => ?_, fun ha => ?_⟩
    · have hcons := hv.conserved ha t
      have hcount := count_of_getElem? hk (.task t)
      simp only [Server.requested, Server.waiting, Server.inProgress, Server.returns,
        reduceCtorEq, if_false] at hcons hcount ⊢
      omega
    · obtain ⟨rfl, hph⟩ := Prod.mk.inj (Option.some.inj h)
      exact hv.completed _ hph
    · rw [(hv.dead ha).1] at hk
      cases hk
  -- The disk changes, and what is left of the controller; the accounts do not see either.
  | op hk =>
    refine ⟨fun ha t => ?_, hv.returns_le, hv.completed, hv.reply, fun ha => ?_⟩
    · have hcons := hv.conserved ha t
      simp only [Server.requested, Server.waiting, Server.inProgress, Server.returns] at hcons ⊢
      rw [map_task_set hk, hcons]
    · rw [(hv.dead ha).2] at hk
      cases hk
  -- And here one goes from those in progress to those that have returned.
  | finish hk =>
    rename_i k e code
    -- The handler sets the flag and makes the history longer by the same call.
    have hret : ∀ t, Server.returns
        { v with
          running := v.running.eraseIdx k
          completed := Function.update v.completed e.task.phase true
          returned := v.returned ++ [(e.task, code)] } t =
        v.returns t + if e.task = t then 1 else 0 := by
      intro t
      simp [Server.returns, List.count_append, List.count_singleton]
    have hle : ∀ t, v.returns t ≤ v.returns t + if e.task = t then 1 else 0 :=
      fun t => Nat.le_add_right _ _
    have hdone : ∀ t, v.inProgress t =
        ((v.running.eraseIdx k).map Exec.task).count t + if e.task = t then 1 else 0 := by
      intro t
      have hk' : (v.running.map Exec.task)[k]? = some e.task := by rw [List.getElem?_map, hk]; rfl
      rw [Server.inProgress, count_of_getElem? hk' t, List.eraseIdx_map]
    have halive : v.alive = true := by
      by_contra hdead
      rw [(hv.dead (Bool.eq_false_iff.mpr hdead)).2] at hk
      cases hk
    have hcons := hv.conserved halive
    refine ⟨fun _ t => ?_, fun t => ?_, fun ph h => ?_, fun ph h => ?_, fun ha => ?_⟩
    · rw [hret t]
      have h1 := hcons t
      rw [hdone t] at h1
      simp only [Server.requested, Server.waiting, Server.inProgress] at h1 ⊢
      omega
    · rw [hret t]
      have h1 := hcons t
      rw [hdone t] at h1
      simp only [Server.requested] at h1 ⊢
      omega
    · by_cases hph : ph = e.task.phase
      · subst hph
        exact ⟨e.task.id, by rw [hret, if_pos rfl]; omega⟩
      · obtain ⟨idx, hidx⟩ := hv.completed ph (by simpa [hph] using h)
        exact ⟨idx, by rw [hret]; omega⟩
    · obtain ⟨idx, hidx⟩ := hv.reply ph h
      exact ⟨idx, by rw [hret]; omega⟩
    · exact absurd halive (by simpa using ha)
  | terminate =>
    refine ⟨fun ha => ?_, hv.returns_le, hv.completed, hv.reply, fun _ => ⟨rfl, rfl⟩⟩
    cases ha

end MapReduceCpp
