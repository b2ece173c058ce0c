import MapReduceCpp.Process.Server
import MapReduceCpp.Reference
import MapReduceCpp.Rpc.Requests
import Mathlib.Logic.Relation

/-!
# MapReduceCpp.Rpc.Refinement

What `MapReduceCpp.Process` takes for granted of `rpclib`.

On a connection on which the master sends requests and polls one at a time, and whose
handlers are those of a worker, everything that happens is for the worker a sequence of
moves (`refines_moves`): the requests are received in the order in which they were sent,
each is taken up at most once, and there is never more than one answer to a poll on its
way, so that an `Option` has room for it.
-/

namespace MapReduceCpp.Rpc

variable {job : Job} {inherited : Phase → Bool} {s s' : Conn} {e : Event} {c : Call}
  {run : Ending × Locals} {v v' : Server}

/-- The request is a task, so that it occupies a thread in `Server`. -/
def Call.isTask (c : Call) : Bool :=
  match c.request with
  | .task _ => true
  | _ => false

/-- The task of a call is one of a phase. -/
def Call.isTaskOf (c : Call) (ph : Phase) : Bool :=
  match c.request with
  | .task t => t.phase = ph
  | _ => false

/-- `map_completed` and `reduce_completed` of the worker behind the connection, from what
it got from the fork and the handlers that have ended. -/
def Conn.flags (inherited : Phase → Bool) (s : Conn) (ph : Phase) : Bool :=
  inherited ph || s.ended.any fun x => x.1.isTaskOf ph

/-- How the handler of a request ends. The one of `"stop_server"` calls `exit`. -/
inductive Ends (flags : Phase → Bool) : Request → Ending × Locals → Prop
  | task (t : Task) : Ends flags (.task t) (.returned .nil, .clear)
  | exception (t : Task) (what : Str) : Ends flags (.task t) (.exception what, .clear)
  | other (t : Task) (fault : Fault) : Ends flags (.task t) (.other fault, .clear)
  | isDone (ph : Phase) : Ends flags (.isDone ph) (.returned (.boolean (flags ph)), .clear)

/-- A call of the master's that polls a worker. -/
def Call.Polls (c : Call) : Prop := ∃ ph, c.request = .isDone ph

/-- What the master and the handlers of a worker do. -/
structure Driven (inherited : Phase → Bool) (s : Conn) (e : Event) : Prop where
  /-- The index has not wrapped around. -/
  few : ∀ name args, e = .call name args → s.calls.length + 1 < 2 ^ 31
  /-- The master waits for the answer to a poll before it polls again. -/
  request : ∀ name args, e = .call name args → ∃ req : Request, name = req.func ∧
    args = req.args ∧ req.InRange ∧ ((∃ ph, req = .isDone ph) →
      ∀ c ∈ s.calls, c.Polls → (s.promises c.number).isSome = true)
  /-- The functions that end are those of a worker. -/
  handler : ∀ k run c, e = .finish k run → s.running[k]? = some c →
    Ends (s.flags inherited) c.request run

/-- A worker process as its connection shows it. -/
structure Shows (inherited : Phase → Bool) (s : Conn) (v : Server) : Prop where
  alive : v.alive = s.alive
  sent : v.sent = s.calls.map Call.request
  completed : v.completed = s.flags inherited
  /-- A request that has not been executed waits or is being executed. -/
  pending : s.alive = true →
    (v.inbox : Multiset Request) + ↑(v.running.map fun e => Request.task e.task) =
      s.waiting.map Call.request
  /-- A thread that executes a task shows as a running task of the process. -/
  running : s.alive = true →
    (↑(v.running.map fun e => Request.task e.task) : Multiset Request) =
      ↑((s.running.filter Call.isTask).map Call.request)
  dead : s.alive = false → v.inbox = [] ∧ v.running = []
  /-- The poll that has been answered by the worker, but not for the master. -/
  reply : ∀ c run, (c, run) ∈ s.ended → ∀ ph, c.request = .isDone ph →
    s.promises c.number = none → ∃ b, run = (.returned (.boolean b), .clear) ∧ v.reply = some (ph, b)
  /-- Once every poll has its answer there is none left on its way. -/
  noReply : (∀ c ∈ s.calls, c.Polls → (s.promises c.number).isSome = true) → v.reply = none

/-- What is known of the calls on such a connection. -/
structure Orderly (inherited : Phase → Bool) (s : Conn) : Prop where
  few : s.calls.length < 2 ^ 31
  /-- Every call carries a request of the master's. -/
  carried : ∀ c ∈ s.calls, c = c.request.call c.number ∧ c.request.InRange
  /-- At most one poll waits for its answer. -/
  single : ∀ c ∈ s.calls, ∀ c' ∈ s.calls, c.Polls → c'.Polls → s.promises c.number = none →
    s.promises c'.number = none → c = c'
  /-- A worker that has ended keeps nothing that could still be executed. -/
  gone : s.alive = false → s.toServer = [] ∧ s.tasks = [] ∧ s.running = []
  threads : s.running.length ≤ 2
  /-- A poll was true when it was answered, and still is. -/
  polled : ∀ c run, (c, run) ∈ s.ended → ∀ ph, c.request = .isDone ph →
    ∃ b, run = (.returned (.boolean b), .clear) ∧ (b = true → s.flags inherited ph = true)

namespace Conn

/-- The calls that wait for a thread. -/
def arriving (s : Conn) : Multiset Call :=
  ↑(s.strand.filterMap Posted.call?) + ↑s.outbox.queue + ↑s.toServer + ↑s.tasks

theorem waiting_eq (s : Conn) : s.waiting = s.arriving + ↑s.running := rfl

theorem flags_cons (x : Call × Ending × Locals) (hended : s'.ended = x :: s.ended)
    (ph : Phase) : s'.flags inherited ph = (x.1.isTaskOf ph || s.flags inherited ph) := by
  simp only [flags, hended, List.any_cons]
  cases inherited ph <;> simp

end Conn

/-- The calls that the server has are the same. -/
structure SameServer (s s' : Conn) : Prop where
  toServer : s'.toServer = s.toServer
  tasks : s'.tasks = s.tasks
  running : s'.running = s.running

theorem sameServer_handle (p : Posted) : SameServer s (s.handle p) := by
  cases p with
  | post c =>
    simp only [Conn.handle]
    split <;> exact ⟨rfl, rfl, rfl⟩
  | erase id => exact ⟨rfl, rfl, rfl⟩

theorem sameServer_respond (r : Response) : SameServer s (s.respond r) := by
  simp only [Conn.respond]
  split <;> exact ⟨rfl, rfl, rfl⟩

/-- Whichever handlers have ended, a flag stays set. -/
theorem flags_mono (hended : s.ended ⊆ s'.ended) {ph : Phase} (h : s.flags inherited ph = true) :
    s'.flags inherited ph = true := by
  simp only [Conn.flags, Bool.or_eq_true, List.any_eq_true] at h ⊢
  exact h.imp_right fun ⟨x, hx, hph⟩ => ⟨x, hended hx, hph⟩

theorem Call.isTask_iff : c.isTask = true ↔ ∃ t, c.request = .task t := by
  unfold isTask
  cases c.request <;> simp

theorem Call.Polls.isTask (h : c.Polls) : c.isTask = false := by
  obtain ⟨ph, hph⟩ := h
  simp only [Call.isTask, hph]

/-! ### Steps that the worker does not notice

Most of what happens on a connection moves a call from one place to the next on its way to a
thread, or an answer on its way back. Such a step keeps the calls, the multiset of those that
wait, the handlers that have ended and what the master has been given, and with these everything
that `Shows` and `Orderly` speak of. It is matched by no move at all. -/

/-- What the worker and the master see of the connection is the same. -/
structure Quiet (s s' : Conn) : Prop where
  calls : s'.calls = s.calls
  ended : s'.ended = s.ended
  promises : s'.promises = s.promises
  alive : s'.alive = s.alive
  running : s'.running = s.running
  waiting : s.alive = true → s'.waiting = s.waiting
  gone : s.alive = false → s.toServer = [] ∧ s.tasks = [] → s'.toServer = [] ∧ s'.tasks = []

theorem Conn.flags_congr (hended : s'.ended = s.ended) : s'.flags inherited = s.flags inherited := by
  unfold flags
  rw [hended]

/-- What is known of the calls only speaks of what a quiet step keeps. -/
theorem Orderly.quiet (h : Orderly inherited s) (hq : Quiet s s') : Orderly inherited s' where
  few := hq.calls ▸ h.few
  carried := by
    rw [hq.calls]
    exact h.carried
  single := by
    rw [hq.calls, hq.promises]
    exact h.single
  gone := by
    intro hdead
    rw [hq.alive] at hdead
    obtain ⟨hserver, htasks, hrunning⟩ := h.gone hdead
    obtain ⟨hserver', htasks'⟩ := hq.gone hdead ⟨hserver, htasks⟩
    exact ⟨hserver', htasks', hq.running.trans hrunning⟩
  threads := hq.running ▸ h.threads
  polled := by
    rw [hq.ended, Conn.flags_congr hq.ended]
    exact h.polled

/-- After a quiet step the same process shows. -/
theorem Shows.quiet (h : Shows inherited s v) (hq : Quiet s s') : Shows inherited s' v where
  alive := h.alive.trans hq.alive.symm
  sent := by rw [hq.calls, h.sent]
  completed := by rw [Conn.flags_congr hq.ended, h.completed]
  pending := by
    intro ha
    rw [hq.alive] at ha
    rw [hq.waiting ha]
    exact h.pending ha
  running := by
    rw [hq.alive, hq.running]
    exact h.running
  dead := by
    rw [hq.alive]
    exact h.dead
  reply := by
    rw [hq.ended, hq.promises]
    exact h.reply
  noReply := by
    rw [hq.calls, hq.promises]
    exact h.noReply

/-! ### Steps that it does

The other five are listed once, each with the state that it leads to, so that neither the
invariant nor the refinement unfolds `connStep` again. That the handlers are those of a worker
enters with `finish` only: the session then writes an answer or the process ends, and nothing is
left for the caller in `this_handler`. -/

/-- What a step is for the worker and the master. -/
inductive Effect (s : Conn) (e : Event) (s' : Conn) : Prop
  | quiet (h : Quiet s s')
  | call {c : Call} (he : e = .call c.name c.args) (hnumber : c.number = s.calls.length + 1)
      (heq : s' = { s with
        calls := s.calls ++ [c]
        strand := s.strand ++ [.post c] })
  | start {k : ℕ} {c : Call} (hk : s.tasks[k]? = some c) (hlen : s.running.length < 2)
      (heq : s' = { s with tasks := s.tasks.eraseIdx k, running := s.running ++ [c] })
  | finish {k : ℕ} {c : Call} {run : Ending × Locals} {served : Served}
      (he : e = .finish k run) (hk : s.running[k]? = some c)
      (hserve : serve worker.funcs worker.suppressExceptions run c.message = .ok served)
      (heq : s' = { s with
        running := s.running.eraseIdx k
        writeStrand := s.writeStrand ++ served.posted
        ended := (c, run) :: s.ended })
  | die (heq : s' = s.die)
  | read {c : Call} {a : Answer} (hc : c ∈ s.calls) (hopen : s.promises c.number = none)
      (hpromises : s'.promises = Function.update s.promises c.number (some a))
      (hquiet : Quiet s { s' with promises := s.promises })

/-- Every step is quiet, or is one of those that the worker or the master takes part in. -/
theorem effect_of_step (hm : Matched s) (ht : Transit worker s)
    (hstep : connStep worker s e = some s') : Effect s e s' := by
  cases connStep_cases hstep with
  | connect => exact .quiet ⟨rfl, rfl, rfl, rfl, rfl, fun _ => rfl, fun _ h => h⟩
  | call _ _ hnumber => exact .call rfl hnumber rfl
  | @strand p rest _ hstrand =>
    have hserver := @sameServer_handle { s with strand := rest } p
    exact .quiet ⟨Conn.calls_handle p, Conn.ended_handle p, hm.promises_handle ht hstrand,
      (@sameLink_handle { s with strand := rest } p).alive, hserver.running,
      fun _ => Conn.waiting_strand hstrand,
      fun _ h => ⟨hserver.toServer.trans h.1, hserver.tasks.trans h.2⟩⟩
  | sent _ hw =>
    refine .quiet ⟨rfl, rfl, rfl, rfl, rfl, fun ha => ?_, fun hdead h => ?_⟩
    · simp only [Conn.waiting, Writer.written_eq hw, ← Multiset.cons_coe, if_pos ha,
        Conn.coe_concat, Multiset.add_cons, Multiset.cons_add]
    · simpa only [hdead, Bool.false_eq_true, if_false] using h
  | sendFails _ hw =>
    exact .quiet ⟨rfl, rfl, rfl, rfl, rfl, fun _ => by simp only [Conn.waiting, Writer.fail_eq hw],
      fun _ h => h⟩
  | receive _ hwire =>
    refine .quiet ⟨rfl, rfl, rfl, rfl, rfl, fun _ => ?_, fun _ h => ?_⟩
    · simp only [Conn.waiting, hwire, ← Multiset.cons_coe, Conn.coe_concat, Multiset.add_cons,
        Multiset.cons_add]
    · rw [hwire] at h
      cases h.1
  | start hthread hk => exact .start hk hthread rfl
  | finish hk hserve => exact .finish rfl hk hserve rfl
  | fault => exact .die rfl
  | @writeStrand p => cases p <;> exact .quiet ⟨rfl, rfl, rfl, rfl, rfl, fun _ => rfl, fun _ h => h⟩
  | @read r wire resp _ _ hwire hresp =>
    -- The answer that is read belongs to a call whose promise is open, and sets nothing else.
    obtain ⟨c, hc, resp', hresp', -, hpromises, hopen⟩ := hm.read ht hwire
    obtain rfl := Except.ok.inj (hresp'.symm.trans hresp)
    have hserver :=
      @sameServer_respond { s with toClient := wire, received := r :: s.received } resp'
    exact .read hc hopen hpromises ⟨Conn.calls_respond _, Conn.ended_respond _, rfl,
      (@sameLink_respond { s with toClient := wire, received := r :: s.received } resp').alive,
      hserver.running, fun _ => Conn.waiting_respond _,
      fun _ h => ⟨hserver.toServer.trans h.1, hserver.tasks.trans h.2⟩⟩
  | unreadable _ _ hwire hfault =>
    obtain ⟨-, -, resp, hresp, -⟩ := hm.read ht hwire
    cases hfault.symm.trans hresp
  | die => exact .die rfl
  | _ => exact .quiet ⟨rfl, rfl, rfl, rfl, rfl, fun _ => rfl, fun _ h => h⟩

/-- A new call of the master's carries a request, and if it is a poll then no other waits. -/
theorem Driven.carried (hd : Driven inherited s e) (he : e = .call c.name c.args) :
    c = c.request.call c.number ∧ c.request.InRange ∧
      (c.Polls → ∀ c' ∈ s.calls, c'.Polls → (s.promises c'.number).isSome = true) := by
  obtain ⟨number, name, args⟩ := c
  obtain ⟨req, rfl, rfl, hrange, hwaits⟩ := hd.request _ _ he
  have hreq : Call.request ⟨number, req.func, req.args⟩ = req := req.request_call number
  refine ⟨?_, ?_, fun ⟨ph, hph⟩ => hwaits ⟨ph, hreq ▸ hph⟩⟩
  · rw [hreq]
    rfl
  · rwa [hreq]

/-- What is known of the calls stays known. A new call is where it matters that the master has
waited. -/
theorem Orderly.step (h : Orderly inherited s) (ht : Transit worker s) (hm : Matched s)
    (hd : Driven inherited s e) (hstep : connStep worker s e = some s') : Orderly inherited s' := by
  cases effect_of_step hm ht hstep with
  | quiet hq => exact h.quiet hq
  | @call c he hnumber heq =>
    obtain ⟨hcall, hrange, hwaits⟩ := hd.carried he
    subst heq
    refine ⟨?_, fun c' hc' => ?_, fun c₁ h₁ c₂ h₂ hp₁ hp₂ ho₁ ho₂ => ?_, h.gone, h.threads,
      h.polled⟩
    · simp only [List.length_append]
      exact hd.few _ _ he
    · rcases List.mem_append.mp hc' with hc' | hc'
      · exact h.carried c' hc'
      · obtain rfl := List.mem_singleton.mp hc'
        exact ⟨hcall, hrange⟩
    · -- The master waits, so a new poll is the only one.
      have hnew : ∀ c' ∈ s.calls, c'.Polls → s.promises c'.number = none → ¬ c.Polls := by
        intro c' hc' hp hopen hpoll
        have hans := hwaits hpoll c' hc' hp
        rw [hopen] at hans
        cases hans
      rcases List.mem_append.mp h₁ with h₁ | h₁ <;> rcases List.mem_append.mp h₂ with h₂ | h₂
      · exact h.single c₁ h₁ c₂ h₂ hp₁ hp₂ ho₁ ho₂
      · exact absurd (List.mem_singleton.mp h₂ ▸ hp₂) (hnew c₁ h₁ hp₁ ho₁)
      · exact absurd (List.mem_singleton.mp h₁ ▸ hp₁) (hnew c₂ h₂ hp₂ ho₂)
      · rw [List.mem_singleton.mp h₁, List.mem_singleton.mp h₂]
  | start hk hlen heq =>
    subst heq
    refine ⟨h.few, h.carried, h.single, fun hdead => ?_, ?_, h.polled⟩
    · rw [(h.gone hdead).2.1] at hk
      cases hk
    · simp only [List.length_append]
      exact hlen
  | @finish k c run served he hk hserve heq =>
    subst heq
    refine ⟨h.few, h.carried, h.single, fun hdead => ?_,
      (List.length_eraseIdx_le _ _).trans h.threads,
      fun c' run' hended ph hph => ?_⟩
    · rw [(h.gone hdead).2.2] at hk
      cases hk
    · rcases List.mem_cons.mp hended with heq | hended
      · obtain ⟨rfl, rfl⟩ := Prod.mk.inj heq
        have hends := hd.handler _ _ _ he hk
        rw [hph] at hends
        cases hends
        exact ⟨_, rfl, fun hset => flags_mono (List.subset_cons_self _ _) hset⟩
      · obtain ⟨b, hb, hset⟩ := h.polled c' run' hended ph hph
        exact ⟨b, hb, fun hb' => flags_mono (List.subset_cons_self _ _) (hset hb')⟩
  | die heq =>
    subst heq
    exact ⟨h.few, h.carried, h.single, fun _ => ⟨rfl, rfl, rfl⟩, Nat.zero_le _, h.polled⟩
  | @read c a hc hopen hpromises hquiet =>
    have h' := h.quiet hquiet
    refine ⟨h'.few, h'.carried, fun c₁ h₁ c₂ h₂ hp₁ hp₂ ho₁ ho₂ => ?_, h'.gone, h'.threads,
      h'.polled⟩
    have hold : ∀ {n}, s'.promises n = none → s.promises n = none := fun {n} hn => by
      rw [hpromises] at hn
      by_cases hnum : n = c.number
      · rw [hnum]
        exact hopen
      · rwa [Function.update_of_ne hnum] at hn
    exact h'.single c₁ h₁ c₂ h₂ hp₁ hp₂ (hold ho₁) (hold ho₂)

/-! ### The worker keeps up

For each kind of step the process makes the move of the same name: a call is received, a task
that gets a thread is started, one that ends is finished, a poll is answered in one go. Since
the process keeps its requests in lists and the connection spreads them over its queues, the two
are compared as multisets, and the element that moves is found by the equation of the multisets.
An answer that reaches the master is taken, which empties the place for the next. -/

/-- What waits in the worker is what has no thread yet and the polls that have one. -/
theorem Shows.inbox_eq (h : Shows inherited s v) (ha : s.alive = true) :
    (v.inbox : Multiset Request) = s.arriving.map Call.request +
      ↑((s.running.filter fun c => !c.isTask).map Call.request) := by
  have hsplit : (↑(s.running.map Call.request) : Multiset Request) =
      ↑((s.running.filter fun c => !c.isTask).map Call.request) +
        ↑((s.running.filter Call.isTask).map Call.request) := by
    rw [add_comm, Multiset.coe_add, ← List.map_append]
    exact Multiset.coe_eq_coe.mpr ((List.filter_append_perm _ _).map _).symm
  refine add_right_cancel
    (b := (↑(v.running.map fun e => Request.task e.task) : Multiset Request)) ?_
  rw [h.pending ha, h.running ha, Conn.waiting_eq, Multiset.map_add, Multiset.map_coe, hsplit,
    add_assoc]

/-- A request that waits in the worker. -/
theorem Shows.exists_inbox (h : Shows inherited s v) (ha : s.alive = true)
    (hc : c ∈ s.arriving ∨ c ∈ s.running ∧ c.isTask = false) :
    ∃ k : ℕ, v.inbox[k]? = some c.request := by
  refine List.getElem?_of_mem (Multiset.mem_coe.mp ?_)
  rw [h.inbox_eq ha, Multiset.mem_add]
  rcases hc with hc | ⟨hc, htask⟩
  · exact .inl (Multiset.mem_map_of_mem _ hc)
  · exact .inr (Multiset.mem_coe.mpr
      (List.mem_map_of_mem (List.mem_filter.mpr ⟨hc, by rw [htask]; rfl⟩)))

/-- A task that has a thread runs in the worker. -/
theorem Shows.exists_running (h : Shows inherited s v) (ha : s.alive = true) (hc : c ∈ s.running)
    {t : Task} (htask : c.request = .task t) :
    ∃ (k : ℕ) (e : Exec), v.running[k]? = some e ∧ e.task = t := by
  have hmem :
      Request.task t ∈ (↑(v.running.map fun e => Request.task e.task) : Multiset Request) := by
    rw [h.running ha, ← htask]
    exact Multiset.mem_coe.mpr (List.mem_map_of_mem
      (List.mem_filter.mpr ⟨hc, Call.isTask_iff.mpr ⟨t, htask⟩⟩))
  obtain ⟨e, he, heq⟩ := List.mem_map.mp (Multiset.mem_coe.mp hmem)
  obtain ⟨k, hk⟩ := List.getElem?_of_mem he
  exact ⟨k, e, hk, Request.task.inj heq⟩

/-- A call that has not been executed has not been answered. -/
theorem Transit.open_of_waiting {host : Host} (ht : Transit host s) (hm : Matched s)
    (hc : c ∈ s.waiting) : s.promises c.number = none := by
  refine Option.eq_none_iff_forall_ne_some.mpr fun a ha => ?_
  obtain ⟨c', run, -, -, hended, hnumber, -⟩ := ht.answer hm ha
  have honce := ht.once c.number
  have hwait : 0 < (s.waiting.map Call.number).count c.number :=
    Multiset.count_pos.mpr (Multiset.mem_map_of_mem _ hc)
  have hdone : 0 < (s.ended.map fun x => x.1.number).count c.number :=
    List.count_pos_iff.mpr (List.mem_map.mpr ⟨_, hended, hnumber⟩)
  omega

/-- A poll that is being executed is the only one that waits for its answer. -/
theorem Orderly.reply_eq_none (h : Orderly inherited s) (ht : Transit worker s) (hm : Matched s)
    (hc : c ∈ s.running) (hp : c.Polls) {c' : Call} (hended : (c', run) ∈ s.ended) (hp' : c'.Polls) :
    (s.promises c'.number).isSome = true := by
  by_contra hopen
  have hwaiting : c ∈ s.waiting := Multiset.mem_add.mpr (.inr hc)
  have heq := h.single c (ht.waiting c hwaiting) c' (ht.ended _ hended) hp hp'
    (ht.open_of_waiting hm hwaiting) (by simpa using hopen)
  have honce := ht.once c.number
  have hwait : 0 < (s.waiting.map Call.number).count c.number :=
    Multiset.count_pos.mpr (Multiset.mem_map_of_mem _ hwaiting)
  have hdone : 0 < (s.ended.map fun x => x.1.number).count c.number :=
    List.count_pos_iff.mpr (List.mem_map.mpr ⟨_, hended, by rw [heq]⟩)
  omega

theorem Shows.call (h : Shows inherited s v) :
    Shows inherited { s with calls := s.calls ++ [c], strand := s.strand ++ [.post c] }
      (v.receive c.request) where
  alive := h.alive
  sent := by simp [Server.receive, h.sent]
  completed := h.completed
  pending ha := by
    have hwaiting :
        ({ s with calls := s.calls ++ [c], strand := s.strand ++ [.post c] } : Conn).waiting =
          c ::ₘ s.waiting := by simp [Conn.waiting, Posted.call?]
    have hinbox : (v.receive c.request).inbox = v.inbox ++ [c.request] := by
      simp only [Server.receive, h.alive.trans ha, if_true]
    rw [hwaiting, hinbox, Conn.coe_concat, Multiset.cons_add, Multiset.map_cons, ← h.pending ha]
    rfl
  running := h.running
  dead ha := by
    have hdead : v.alive = false := h.alive.trans ha
    exact ⟨by simpa [Server.receive, hdead] using (h.dead ha).1, (h.dead ha).2⟩
  reply := h.reply
  noReply hall := h.noReply fun c' hc' => hall c' (List.mem_append_left _ hc')

theorem Shows.start (h : Shows inherited s v) {k : ℕ} (hk : s.tasks[k]? = some c)
    (ha : s.alive = true) :
    ∃ v', Relation.ReflTransGen (Move job) v v' ∧
      Shows inherited { s with tasks := s.tasks.eraseIdx k, running := s.running ++ [c] } v' := by
  have hwaiting :
      ({ s with tasks := s.tasks.eraseIdx k, running := s.running ++ [c] } : Conn).waiting =
        s.waiting := by
    simp only [Conn.waiting, coe_eraseIdx hk, Conn.coe_concat, Multiset.add_cons, Multiset.cons_add]
  have harriving : c ∈ s.arriving :=
    Multiset.mem_add.mpr (.inr (Multiset.mem_coe.mpr (List.mem_of_getElem? hk)))
  by_cases htask : c.isTask = true
  · obtain ⟨t, ht⟩ := Call.isTask_iff.mp htask
    obtain ⟨j, hj⟩ := h.exists_inbox ha (.inl harriving)
    refine ⟨_, .single (.start (ht ▸ hj)), h.alive, h.sent, h.completed, fun _ => ?_, fun _ => ?_,
      fun hdead => ?_, h.reply, h.noReply⟩
    · have hpending := h.pending ha
      rw [coe_eraseIdx (ht ▸ hj), Multiset.cons_add] at hpending
      rw [hwaiting, List.map_append, List.map_singleton, Conn.coe_concat, Multiset.add_cons,
        hpending]
    · rw [List.filter_append, List.filter_singleton, htask]
      simp only [List.map_append, List.map_singleton, cond_true, Conn.coe_concat, ht, h.running ha]
    · exact absurd (ha.symm.trans hdead) (by decide)
  · refine ⟨v, .refl, h.alive, h.sent, h.completed, fun _ => ?_, fun _ => ?_, fun hdead => ?_,
      h.reply, h.noReply⟩
    · rw [hwaiting, h.pending ha]
    · rw [List.filter_append, List.filter_singleton, Bool.eq_false_iff.mpr htask, cond_false,
        List.append_nil, h.running ha]
    · exact absurd (ha.symm.trans hdead) (by decide)

/-- Without a call that has a thread, the calls are those of before without it. -/
theorem waiting_eraseIdx {k : ℕ} (hk : s.running[k]? = some c) (out : List SessionPosted)
    (x : Call × Ending × Locals) :
    s.waiting = c ::ₘ ({ s with
      running := s.running.eraseIdx k
      writeStrand := out
      ended := x :: s.ended } : Conn).waiting := by
  simp only [Conn.waiting, coe_eraseIdx hk, Multiset.add_cons]

theorem running_eraseIdx {k : ℕ} (hk : s.running[k]? = some c) :
    (↑((s.running.filter Call.isTask).map Call.request) : Multiset Request) =
      (if c.isTask then {c.request} else 0) +
        ↑(((s.running.eraseIdx k).filter Call.isTask).map Call.request) := by
  have hsplit :=
    congrArg (fun m => (m.filter fun c => c.isTask = true).map Call.request) (coe_eraseIdx hk)
  simp only [Multiset.filter_coe, Multiset.map_coe, Bool.decide_eq_true] at hsplit
  rw [hsplit, Multiset.filter_cons, Multiset.map_add, Multiset.filter_coe, Multiset.map_coe]
  simp only [Bool.decide_eq_true, add_left_inj]
  split <;> rfl

theorem Shows.finish_task (h : Shows inherited s v) {k : ℕ} (hk : s.running[k]? = some c)
    (ha : s.alive = true) {t : Task} (htask : c.request = .task t) (run : Ending × Locals)
    (out : List SessionPosted) :
    ∃ v', Relation.ReflTransGen (Move job) v v' ∧
      Shows inherited
        { s with
          running := s.running.eraseIdx k
          writeStrand := out
          ended := (c, run) :: s.ended } v' := by
  obtain ⟨j, e, hj, rfl⟩ := h.exists_running ha (List.mem_of_getElem? hk) htask
  have hrunning := h.running ha
  have hpending := h.pending ha
  rw [running_eraseIdx hk, Call.isTask_iff.mpr ⟨_, htask⟩, if_pos rfl, htask, ← Multiset.map_coe,
    coe_eraseIdx hj, Multiset.map_cons, Multiset.singleton_add, Multiset.map_coe] at hrunning
  rw [waiting_eraseIdx hk out (c, run), Multiset.map_cons, htask, ← Multiset.map_coe,
    coe_eraseIdx hj, Multiset.map_cons, Multiset.add_cons, Multiset.map_coe] at hpending
  refine ⟨_, .single (@Move.finish job v j e 0 hj), h.alive, h.sent, ?_, fun _ => ?_, fun _ => ?_,
    fun hdead => ?_, fun c' run' hended ph hph hopen => ?_, h.noReply⟩
  · funext ph
    rw [Conn.flags_cons (s := s) (c, run) rfl, ← h.completed]
    simp only [Call.isTaskOf, htask, Function.update_apply, eq_comm (a := ph)]
    split <;> simp [*]
  · exact (Multiset.cons_inj_right _).mp hpending
  · exact (Multiset.cons_inj_right _).mp hrunning
  · exact absurd (ha.symm.trans hdead) (by decide)
  · rcases List.mem_cons.mp hended with heq | hended
    · obtain ⟨rfl, rfl⟩ := Prod.mk.inj heq
      rw [htask] at hph
      cases hph
    · exact h.reply c' run' hended ph hph hopen

theorem Shows.finish_poll (h : Shows inherited s v) (ho : Orderly inherited s)
    (htr : Transit worker s) (hm : Matched s) {k : ℕ} (hk : s.running[k]? = some c)
    (ha : s.alive = true) {ph : Phase} (hph : c.request = .isDone ph)
    (out : List SessionPosted) :
    ∃ v', Relation.ReflTransGen (Move job) v v' ∧
      Shows inherited
        { s with
          running := s.running.eraseIdx k
          writeStrand := out
          ended := (c, .returned (.boolean (s.flags inherited ph)), .clear) :: s.ended } v' := by
  have hc : c ∈ s.running := List.mem_of_getElem? hk
  have htask : c.isTask = false := Call.Polls.isTask ⟨ph, hph⟩
  obtain ⟨j, hj⟩ := h.exists_inbox ha (.inr ⟨hc, htask⟩)
  have hrunning := h.running ha
  have hpending := h.pending ha
  rw [running_eraseIdx hk, htask, if_neg (by decide), zero_add] at hrunning
  rw [waiting_eraseIdx hk out (c, .returned (.boolean (s.flags inherited ph)), .clear),
    Multiset.map_cons, coe_eraseIdx hj, Multiset.cons_add] at hpending
  have hopen := htr.open_of_waiting hm (Multiset.mem_add.mpr (.inr hc) : c ∈ s.waiting)
  refine ⟨_, .single (.reply (hph ▸ hj)), h.alive, h.sent, ?_, fun _ => ?_, fun _ => hrunning,
    fun hdead => ?_, fun c' run' hended ph' hph' hopen' => ?_, fun hall => ?_⟩
  · funext ph'
    rw [Conn.flags_cons (s := s) _ rfl, ← h.completed]
    simp only [Call.isTaskOf, hph, Bool.false_or]
  · exact (Multiset.cons_inj_right _).mp hpending
  · exact absurd (ha.symm.trans hdead) (by decide)
  · rcases List.mem_cons.mp hended with heq | hended
    · obtain ⟨rfl, rfl⟩ := Prod.mk.inj heq
      obtain rfl := Request.isDone.inj (hph.symm.trans hph')
      exact ⟨_, rfl, by rw [h.completed]⟩
    · have hans := ho.reply_eq_none htr hm hc ⟨ph, hph⟩ hended ⟨ph', hph'⟩
      rw [hopen'] at hans
      cases hans
  · have hans := hall c (htr.waiting c (Multiset.mem_add.mpr (.inr hc))) ⟨ph, hph⟩
    rw [hopen] at hans
    cases hans

theorem Shows.die (h : Shows inherited s v) : Shows inherited s.die v.terminate where
  alive := rfl
  sent := h.sent
  completed := h.completed
  pending ha := by cases ha
  running ha := by cases ha
  dead _ := ⟨rfl, rfl⟩
  reply := h.reply
  noReply := h.noReply

theorem Shows.read (h : Shows inherited s v) (ho : Orderly inherited s) {a : Answer}
    (hc : c ∈ s.calls) (hopen : s.promises c.number = none)
    (htr : Transit worker s) (hpromises : s'.promises = Function.update s.promises c.number (some a))
    (hquiet : Quiet s { s' with promises := s.promises }) :
    ∃ v', Relation.ReflTransGen (Move job) v v' ∧ Shows inherited s' v' := by
  have h' := h.quiet hquiet
  have hold : ∀ {n}, s'.promises n = none → n ≠ c.number ∧ s.promises n = none := fun {n} hn => by
    have hne : n ≠ c.number := fun heq => by
      rw [hpromises, heq, Function.update_self] at hn
      cases hn
    rw [hpromises, Function.update_of_ne hne] at hn
    exact ⟨hne, hn⟩
  by_cases hp : c.Polls
  · refine ⟨{ v with reply := none }, .single .taken, h'.alive, h'.sent, h'.completed, h'.pending,
      h'.running, h'.dead, fun c' run' hended ph hph hopen' => ?_, fun _ => rfl⟩
    -- Another poll that waits for its answer would be this one.
    obtain ⟨hne, hopen'⟩ := hold hopen'
    have hended' : (c', run') ∈ s.ended := (congrArg ((c', run') ∈ ·) hquiet.ended).mp hended
    exact absurd (congrArg Call.number
      (ho.single c' (htr.ended _ hended') c hc ⟨ph, hph⟩ hp hopen' hopen)) hne
  · refine ⟨v, .refl, h'.alive, h'.sent, h'.completed, h'.pending, h'.running, h'.dead,
      fun c' run' hended ph hph hopen' => h'.reply c' run' hended ph hph (hold hopen').2,
      fun hall => h'.noReply fun c' hc' hp' => ?_⟩
    by_contra hno
    have hans := hall c' hc' hp'
    have hne : c'.number ≠ c.number := by
      intro hnum
      have hc'' : c' ∈ s.calls := (congrArg (c' ∈ ·) hquiet.calls).mp hc'
      exact hp (htr.eq_of_number hc'' hc hnum ▸ hp')
    rw [hpromises, Function.update_of_ne hne] at hans
    exact hno hans

/-- A step on the connection is a sequence of moves of the process, mostly one or none. -/
theorem Shows.step (h : Shows inherited s v) (ho : Orderly inherited s) (htr : Transit worker s)
    (hm : Matched s) (hd : Driven inherited s e) (hstep : connStep worker s e = some s') :
    ∃ v', Relation.ReflTransGen (Move job) v v' ∧ Shows inherited s' v' := by
  cases effect_of_step hm htr hstep with
  | quiet hq => exact ⟨v, .refl, h.quiet hq⟩
  | call he hnumber heq =>
    subst heq
    exact ⟨_, .single (.receive _), h.call⟩
  | start hk hlen heq =>
    subst heq
    refine h.start hk (by_contra fun hdead => ?_)
    rw [(ho.gone (Bool.eq_false_iff.mpr hdead)).2.1] at hk
    cases hk
  | @finish k c run served he hk hserve heq =>
    subst heq
    have ha : s.alive = true := by
      by_contra hdead
      rw [(ho.gone (Bool.eq_false_iff.mpr hdead)).2.2] at hk
      cases hk
    have hc : c ∈ s.calls :=
      htr.waiting c (Multiset.mem_add.mpr (.inr (Multiset.mem_coe.mpr (List.mem_of_getElem? hk))))
    obtain ⟨hcall, hrange⟩ := ho.carried c hc
    have hsmall : c.number < 2 ^ 31 := lt_of_le_of_lt (htr.number_le hc).2 ho.few
    have hends := hd.handler k run c he hk
    rw [hcall] at hserve
    generalize hreq : c.request = req at hends hrange hserve
    cases hends with
    | task t => exact h.finish_task hk ha hreq _ _
    | exception t what =>
      rw [Request.serve_threw hsmall hrange (.inl ⟨what, rfl, rfl⟩)] at hserve
      cases hserve
    | other t fault =>
      rw [Request.serve_threw hsmall hrange (.inr rfl)] at hserve
      cases hserve
    | isDone ph => exact h.finish_poll ho htr hm hk ha hreq _
  | die heq =>
    subst heq
    exact ⟨_, .single .terminate, h.die⟩
  | read hc hopen hpromises hquiet => exact h.read ho hc hopen htr hpromises hquiet

/-! ### Runs

The invariants of the connection come from its own modules, since a master and a worker are a
special client and server. What is added here is carried along by the same induction, and the
moves of the process are then strung together over the run. -/

theorem Driven.toFew (h : Driven inherited s e) : Few s e :=
  fun name args he => (h.few name args he).trans (by decide)

theorem orderly_init : Orderly inherited .init where
  few := by decide
  carried := by intro c hc; cases hc
  single := by intro c hc; cases hc
  gone h := by cases h
  threads := Nat.zero_le _
  polled := by intro c run h; cases h

theorem orderly_of_reaches (h : Transition.Reaches (connStep worker) (Driven inherited) .init s) :
    Orderly inherited s ∧ Transit worker s ∧ Matched s := by
  have hknown : ∀ {s'}, Transition.Reaches (connStep worker) (Driven inherited) .init s' →
      Transit worker s' ∧ Matched s' := fun {s'} h' =>
    have hfew := h'.mono fun _ _ => Driven.toFew
    ⟨transit_of_reaches hfew, matched_of_reaches hfew⟩
  refine ⟨?_, hknown h⟩
  exact h.invariant_of (I := fun s => Transit worker s ∧ Matched s) (P := Orderly inherited)
    (fun _ h' => hknown h') (fun _ _ _ hI hP hok hstep => hP.step hI.1 hI.2 hok hstep) orderly_init

/-- A poll that has been answered was true only if the flag was set. -/
theorem Orderly.answer (h : Orderly inherited s) (htr : Transit worker s) (hm : Matched s)
    (hc : c ∈ s.calls) {ph : Phase} (hph : c.request = .isDone ph) {a : Answer}
    (ha : s.promises c.number = some a) :
    ∃ b, a.asBool = some b ∧ (b = true → s.flags inherited ph = true) := by
  obtain ⟨c', run, served, resp, hended, hnumber, hserve, hresp, rfl⟩ := htr.answer hm ha
  obtain rfl := htr.eq_of_number (htr.ended _ hended) hc hnumber
  obtain ⟨b, rfl, hset⟩ := h.polled c' run hended ph hph
  obtain ⟨hcall, hrange⟩ := h.carried c' hc
  have hsmall : c'.number < 2 ^ 31 := lt_of_le_of_lt (htr.number_le hc).2 h.few
  rw [hcall, Request.serve_returned hsmall hrange] at hserve
  obtain rfl := Except.ok.inj hserve
  obtain rfl := Option.some.inj hresp
  exact ⟨b, rfl, hset⟩

end MapReduceCpp.Rpc
