import MapReduceCpp.Process.Outcomes

/-!
# MapReduceCpp.Process.Survival

Which workers live on when nobody kills them.

The only exceptions a controller catches are `int`s. As long as no other kind is thrown,
no process ends before it is told to, so the master never finds a connection gone, forks
no replacement and sends every task once (`workers_survive`). Any other exception ends
the process, and the master takes that for a crash and has the same record tried again
(`exception_kills`).
-/

namespace MapReduceCpp

open FileProg InputStream

variable {job : Job} {s s' : State} {l : Label} {ph : Phase} {w p q : ℕ} {t : Task}
  {content : Str} {d : Disk} {iface : MapReduceInterface}

/-! ### Calls that throw

A throw is not lost inside a controller: the loops end with the code of the handler that caught
it, and that code is not 0. It is lost behind the controller, where the code is dropped. -/

/-- Some call of a user function that a controller has made threw. -/
def TaskResult.Threw (iface : MapReduceInterface) (res : TaskResult) : Prop :=
  (∃ kv ∈ res.object.mapCalls, (iface.mapFn kv.1 kv.2).2 ≠ none) ∨
    ∃ e ∈ res.object.reduceCalls, (iface.reduceFn e.1 e.2).2 ≠ none

/-- What a mapper's object holds after a loop that has run to its end: no call of that loop has
thrown, as the first throw ends it. -/
theorem calls_of_mapRecords {H : Hashers} {M m : ℕ} {ls : List Str} {n : ℤ}
    {obj obj' : MapReduceObject} (h : mapRecords (mapRecord H iface M m) ls n obj = (none, obj')) :
    (∀ kv ∈ obj'.mapCalls, kv ∈ obj.mapCalls ∨ (iface.mapFn kv.1 kv.2).2 = none) ∧
      obj'.reduceCalls = obj.reduceCalls := by
  induction ls generalizing n obj with
  | nil =>
    obtain rfl := (Prod.mk.inj h).2
    exact ⟨fun kv hkv => .inl hkv, rfl⟩
  | cons str ls ih =>
    rw [mapRecords] at h
    split at h
    · cases h
    · cases h
    · -- The call for this line has returned, if there was one.
      rename_i hnone
      cases hadd : intAdd n 1 with
      | error fault =>
        rw [hadd] at h
        cases h
      | ok next =>
        rw [hadd] at h
        obtain ⟨hmap, hred⟩ := ih h
        unfold mapRecord at hnone hmap hred
        split at hnone
        · rename_i howner
          rw [if_pos howner] at hmap hred
          refine ⟨fun kv hkv => ?_, hred⟩
          rcases hmap kv hkv with hin | hret
          · rcases List.mem_append.mp hin with hin | hin
            · exact .inl hin
            · obtain rfl := List.mem_singleton.mp hin
              exact .inr hnone
          · exact .inr hret
        · rename_i howner
          rw [if_neg howner] at hmap hred
          exact ⟨hmap, hred⟩

/-- A throw shows: a controller that returns 0 has made no call that threw. This is about all
results the program can have, on any disk. -/
theorem Job.program_truthful (t : Task) :
    (job.program t).Results fun res => res.Threw job.iface → res.outcome ≠ .ok 0 := by
  obtain ⟨ph, idx⟩ := t
  cases ph with
  | map =>
    obtain ⟨k, hk, hnone, hcontent⟩ := @mapControllerModule_read job.hashers job.iface
      job.nrMapper idx job.nrReducer job.inputFileName job.outputResultDirectory
      job.nrReducer_pos job.nrReducer_lt
    rw [show job.program ⟨.map, idx⟩ = job.mapTask idx from rfl, Job.mapTask, hk]
    intro input
    cases input with
    | none =>
      rw [hnone]
      intro _ h
      exact absurd (Except.ok.inj h) (by omega)
    | some content =>
      have hne := @mapRecords_ne_ok_zero (mapRecord job.hashers job.iface job.nrMapper idx)
        (lines '\n' content) 0 {}
      rcases hkv : mapRecords (mapRecord job.hashers job.iface job.nrMapper idx)
        (lines '\n' content) 0 {} with ⟨_ | outcome, obj⟩
      · refine ((hcontent content).2 obj hkv).imp fun res hres hthrew => ?_
        obtain ⟨hmap, hred⟩ := calls_of_mapRecords hkv
        subst hres
        rcases hthrew with ⟨kv, hmem, hthrow⟩ | ⟨e, hmem, -⟩
        · rcases hmap kv hmem with hin | hret
          · cases hin
          · exact absurd hret hthrow
        · have hmem' : e ∈ obj.reduceCalls := hmem
          rw [hred] at hmem'
          cases hmem'
      · rw [(hcontent content).1 outcome obj hkv]
        rw [hkv] at hne
        exact fun _ h => hne (congrArg some h)
  | reduce =>
    rw [show job.program ⟨.reduce, idx⟩ = job.reduceTask idx from rfl, Job.reduceTask,
      reduceControllerModule]
    refine (Results.trivial _).bind fun res _ => ?_
    cases res with
    | error outcome =>
      intro hthrew
      rcases hthrew with ⟨kv, hmem, -⟩ | ⟨e, hmem, -⟩
      · cases hmem
      · cases hmem
    | ok keyValueAcc =>
      have hne := @reduceKeys_ne_ok_zero job.iface keyValueAcc.toList {}
      simp only
      rcases hkv : reduceKeys job.iface keyValueAcc.toList {} with ⟨_ | outcome, obj⟩
      · refine (Results.trivial _).bind fun _ _ hthrew => ?_
        have hret := returns_of_reduceKeys (congrArg Prod.fst hkv)
        rw [reduceKeys_of_returns hret] at hkv
        obtain rfl := (Prod.mk.inj hkv).2
        rcases hthrew with ⟨kv, hmem, -⟩ | ⟨e, hmem, hthrow⟩
        · cases hmem
        · exact absurd (hret e hmem) hthrow
      · rw [hkv] at hne
        exact fun _ h => hne (congrArg some h)

/-! ### Steps that end a process

There are three: it takes up a stop request, it is killed, and an exception leaves one of its
controllers. Only the first is meant. -/

/-- What has arrived at a process was sent to it. -/
theorem Move.delivered {v v' : Server} (h : Move job v v')
    (hv : ∀ req ∈ v.inbox, req ∈ v.sent) : ∀ req ∈ v'.inbox, req ∈ v'.sent := by
  intro req hreq
  cases h with
  | receive req' =>
    simp only [Server.receive] at hreq ⊢
    split at hreq
    · rcases List.mem_append.mp hreq with hreq | hreq
      · exact List.mem_append_left _ (hv req hreq)
      · exact List.mem_append_right _ hreq
    · exact List.mem_append_left _ (hv req hreq)
  | start _ => exact hv req (List.mem_of_mem_eraseIdx hreq)
  | reply _ => exact hv req (List.mem_of_mem_eraseIdx hreq)
  | terminate => cases hreq
  | _ => exact hv req hreq

/-- So has every request in every inbox of a run. -/
theorem delivered_of_reaches {ok : State → Label → Prop}
    (h : Transition.Reaches (step job) ok (.init d) s) :
    ∀ p, ∀ req ∈ (s.servers p).inbox, req ∈ (s.servers p).sent := by
  induction h with
  | refl =>
    intro p req hreq
    cases hreq
  | tail _ _ hstep ih =>
    intro p
    rcases (step_cases hstep).server p with he | hmove | ⟨-, w, hfresh⟩
    · rw [he]
      exact ih p
    · exact hmove.delivered (ih p)
    · rw [hfresh]
      intro req hreq
      cases hreq

/-- The step kills a process, or an exception leaves one of its controllers. -/
def Fatal (s : State) (l : Label) (p : ℕ) : Prop :=
  l = .kill p ∨ ∃ k e res fault, l = .file p k ∧ (s.servers p).running[k]? = some e ∧
    e.prog = .done res ∧ res.outcome = .error fault

/-- A process ends by being stopped or in a fatal step. -/
theorem Step.dies (hs : Step job s l s') (hp : (s.servers p).alive = true) :
    (s'.servers p).alive = true ∨ .stopServer ∈ (s.servers p).inbox ∨ Fatal s l p := by
  have hset : ∀ {pid : ℕ} {v : Server}, (p = pid → v.alive = true) →
      ((s.setServer pid v).servers p).alive = true :=
    fun hv => State.forall_setServer (P := fun q v => p = q → v.alive = true) hv
      (fun _ hq => hq ▸ hp) p rfl
  have hend : ∀ {pid : ℕ} {X : Prop}, (p = pid → X) →
      ((s.setServer pid (s.servers pid).terminate).servers p).alive = true ∨ X := by
    intro pid X hX
    by_cases hq : p = pid
    · exact .inr (hX hq)
    · exact .inl (by rwa [State.setServer_ne s _ hq])
  have hspawn : ∀ w, ((s.spawn w).servers p).alive = true :=
    fun w => State.forall_spawn (P := fun q v => p = q → v.alive = true) w (fun _ => rfl)
      (fun _ hq => hq ▸ hp) p rfl
  cases hs with
  | fork _ _ => exact .inl (hspawn _)
  | refork _ => exact .inl (hspawn _)
  | send _ _ => exact .inl (hset fun hq => hq ▸ hp)
  | answer _ _ _ =>
    left
    simp only [State.goto, State.credit_servers]
    exact hset fun hq => hq ▸ hp
  | start _ _ => exact .inl (hset fun hq => hq ▸ hp)
  | reply _ _ => exact .inl (hset fun hq => hq ▸ hp)
  | exit _ hk => exact hend fun hq => .inl (hq ▸ List.mem_of_getElem? hk)
  | op _ _ => exact .inl (hset fun hq => hq ▸ hp)
  | finish _ _ _ => exact .inl (hset fun hq => hq ▸ hp)
  | fault hk hprog hres =>
    exact hend fun hq => .inr (.inr ⟨_, _, _, _, hq ▸ rfl, hq ▸ hk, hprog, hres⟩)
  | kill _ => exact hend fun hq => .inr (.inl (hq ▸ rfl))
  | _ => exact .inl hp

/-- The master is replacing a worker. -/
def Ctrl.replacing : Ctrl → Bool
  | refork _ _ | reconnect _ _ | resend _ _ => true
  | _ => false

/-- The master starts to replace a worker whose connection is gone. -/
theorem Step.replacing (hs : Step job s l s') (h : s'.ctrl.replacing = true) :
    s.ctrl.replacing = true ∨
      ∃ ph w pid, s.ctrl = .check ph w ∧ s.clientPool[w]? = some (.disconnected pid) := by
  cases hs with
  | goto hg =>
    cases hg with
    | down hc _ _ _ hcl => exact .inr ⟨_, _, _, hc, hcl⟩
    | _ => cases h
  | refork hc => exact .inl (by rw [hc]; rfl)
  | reclient hc _ => exact .inl (by rw [hc]; rfl)
  | send hsend _ =>
    cases hsend with
    | _ => cases h
  | fork _ _ => cases h
  | client _ _ => cases h
  | status _ _ => cases h
  | answer _ _ _ => cases h
  | _ => exact .inl h

/-- A process is forked in the first loop or to replace a worker; no other step changes how many
there are. -/
theorem Step.spawns (hs : Step job s l s') :
    (s'.spawned = s.spawned ∧ ((∃ i, s'.ctrl = .fork i) → s'.ctrl = s.ctrl)) ∨
      (∃ i, s.ctrl = .fork i ∧ i < job.nrMapper ∧ s' = (s.spawn i).goto (.fork (i + 1))) ∨
        s.ctrl.replacing = true := by
  cases hs with
  | goto hg =>
    refine .inl ⟨rfl, fun hfork => ?_⟩
    obtain ⟨i, hi⟩ := hfork
    cases hg <;> cases hi
  | fork hc hi => exact .inr (.inl ⟨_, hc, hi, rfl⟩)
  | refork hc => exact .inr (.inr (by rw [hc]; rfl))
  | client _ _ => exact .inl ⟨rfl, fun h => (by obtain ⟨i, hi⟩ := h; cases hi)⟩
  | reclient hc _ => exact .inr (.inr (by rw [hc]; rfl))
  | send hsend _ =>
    refine .inl ⟨rfl, fun hfork => ?_⟩
    obtain ⟨i, hi⟩ := hfork
    cases hsend <;> cases hi
  | status _ _ => exact .inl ⟨rfl, fun h => (by obtain ⟨i, hi⟩ := h; cases hi)⟩
  | @answer ph w pid status _ _ _ =>
    exact .inl ⟨by cases status <;> rfl, fun h => (by obtain ⟨i, hi⟩ := h; cases hi)⟩
  | _ => exact .inl ⟨rfl, fun _ => rfl⟩

/-! ### Runs without crashes

Nobody is killed and nobody throws what is not caught, so a process that has ended has been told
to. But then the heart-beat loops are over, and the master looks at no connection any more. -/

/-- No process has ended but those that have been told to, and each is the first and only
one of its worker. -/
structure Unharmed (job : Job) (s : State) : Prop where
  alive : ∀ p < s.spawned, (s.servers p).alive = true ∨ .stopServer ∈ (s.servers p).sent
  identity : ∀ p < s.spawned, (s.servers p).worker = p
  forked : s.spawned ≤ job.nrMapper ∧ ∀ i, s.ctrl = .fork i → s.spawned = i
  /-- The master replaces nobody. -/
  place : s.ctrl.replacing = false
  /-- Nobody is sent a task twice. -/
  once : ∀ p t, (s.servers p).requested t ≤ 1

theorem unharmed_init (d : Disk) : Unharmed job (.init d) where
  alive := fun _ hp => absurd hp (Nat.not_lt_zero _)
  identity := fun _ hp => absurd hp (Nat.not_lt_zero _)
  forked := ⟨Nat.zero_le _, fun _ h => Ctrl.fork.inj h⟩
  place := rfl
  once := fun _ _ => Nat.zero_le _

/-- While nobody is replaced a task is sent once. -/
theorem Unharmed.requested_le (h : Unharmed job s) (hi : Orderly job s) (hs : Step job s l s')
    (p : ℕ) (t : Task) : (s'.servers p).requested t ≤ 1 := by
  rcases hs.sent hi.topology with hsame | ⟨q, w, req, phases, c, hsend, hq, rfl⟩
  · rw [Server.requested_of_sent (hsame p)]
    exact h.once p t
  · by_cases hp : p = q
    · subst hp
      have hle := h.once p t
      simp only [State.deliver_self, Server.requested_receive]
      split
      · rename_i hreq
        subst hreq
        have hdue := hi.accounting.due w p hq
        have hplace := h.place
        generalize hr : Request.task t = req at hsend
        cases hsend with
        -- The task was still due, so it had not been sent to this process.
        | dispatch hc _ =>
          obtain rfl := Request.task.inj hr
          rw [hc] at hdue
          simp only [Ctrl.phase, Ctrl.due, Nat.lt_irrefl, decide_false, Bool.false_eq_true,
            if_false] at hdue
          omega
        | resend hc _ => rw [hc] at hplace; cases hplace
        | noFuture hc _ => rw [hc] at hplace; cases hplace
        | poll _ => cases hr
        | stop _ _ => cases hr
      · exact hle
    · simp only [State.deliver_ne s req hp]
      exact h.once p t

/-- Such a step harms nobody, if it is fatal to nobody. -/
theorem Unharmed.step (h : Unharmed job s) (hi : Orderly job s)
    (hdel : ∀ p, ∀ req ∈ (s.servers p).inbox, req ∈ (s.servers p).sent) (hs : Step job s l s')
    (hfatal : ∀ p, ¬ Fatal s l p) : Unharmed job s' := by
  -- A process that is alive stays so, unless it has been told to stop.
  have halive : ∀ p < s.spawned, (s'.servers p).alive = true ∨ .stopServer ∈ (s'.servers p).sent := by
    intro p hp
    rcases h.alive p hp with hlive | hstop
    · rcases hs.dies hlive with hlive' | hstop | hf
      · exact .inl hlive'
      · exact .inr (hs.sent_subset hi.topology (hdel p _ hstop))
      · exact absurd hf (hfatal p)
    · exact .inr (hs.sent_subset hi.topology hstop)
  have hworker : ∀ p < s.spawned, (s'.servers p).worker = p := by
    intro p hp
    rcases hs.server p with he | hmove | ⟨rfl, -⟩
    · rw [he, h.identity p hp]
    · rw [hmove.worker, h.identity p hp]
    · exact absurd hp (Nat.lt_irrefl _)
  have hplace : s'.ctrl.replacing = false := by
    by_contra hne
    rcases hs.replacing (Bool.eq_true_of_not_eq_false hne) with hold | ⟨ph, w, pid, hc, hcl⟩
    · rw [h.place] at hold
      cases hold
    · -- The process behind a connection that is gone has ended, so it has been told to.
      have hlink : s.linked w = some pid := State.linked_of_client hcl
      have hdead := hi.topology.gone w pid hcl
      rcases h.alive pid (hi.topology.linked w pid hlink).1 with hlive | hstop
      · rw [hdead] at hlive
        cases hlive
      · have hstopping := hi.accounting.stops pid hstop
        rw [hc] at hstopping
        cases hstopping
  rcases hs.spawns with ⟨hspawned, hfork⟩ | ⟨i, hc, hlt, rfl⟩ | hrep
  · refine ⟨?_, ?_, ?_, hplace, h.requested_le hi hs⟩
    · rwa [hspawned]
    · rwa [hspawned]
    · rw [hspawned]
      refine ⟨h.forked.1, fun i hi' => h.forked.2 i ?_⟩
      rw [← hfork ⟨i, hi'⟩, hi']
  · have hpid := h.forked.2 i hc
    refine ⟨fun p hp => ?_, fun p hp => ?_, ⟨?_, fun j hj => ?_⟩, hplace,
      h.requested_le hi hs⟩
    · rcases Nat.lt_succ_iff_lt_or_eq.mp hp with hp | rfl
      · exact halive p hp
      · exact .inl (by rw [State.goto, State.spawn_self]; rfl)
    · rcases Nat.lt_succ_iff_lt_or_eq.mp hp with hp | rfl
      · exact hworker p hp
      · rw [State.goto, State.spawn_self, hpid]
        rfl
    · show s.spawned + 1 ≤ job.nrMapper
      omega
    · obtain rfl := Ctrl.fork.inj hj
      show s.spawned + 1 = i + 1
      omega
  · rw [h.place] at hrep
    cases hrep

/-- In a run without crashes in which nothing but `int`s is thrown, no process ends before
it is told to. -/
theorem unharmed_of_reaches
    (h : Transition.Reaches (step job) (fun s l => CrashFree s l ∧ Begins job job.Caught s l)
      (.init d) s) : Unharmed job s := by
  induction h with
  | refl => exact unharmed_init d
  | tail hr hl hstep ih =>
    refine ih.step (orderly_of_reaches hr) (delivered_of_reaches hr) (step_cases hstep)
      fun p hfatal => ?_
    rcases hfatal with hkill | ⟨k, e, res, fault, -, hk, hprog, hres⟩
    · exact hl.1 p hkill
    · have hends := (ends_of_reaches (P := fun out => ∃ code, out = .ok code)
        (fun t d ht => Job.Caught.outcome ht) (fun _ _ hb => hb.2) hr).1
      rcases hends p e (List.mem_of_getElem? hk) with hfresh | hsettled
      · exact absurd (hfresh.symm.trans hprog) (Job.program_ne_done _ _)
      · obtain ⟨code, hcode⟩ := hsettled.outcome hprog
        rw [hres] at hcode
        cases hcode

/-! ### What throwing functions do to the workers

What is left is to read the invariant while the workers are at work, and to see that the one
hypothesis about exceptions cannot be spared. -/

/-- No process has ended, none has been forked as a replacement, every task has been
started at most once, and a controller whose functions have thrown is about to return
another code than 0. -/
structure WorkersSurvive (job : Job) (s : State) : Prop where
  alive : ∀ p < s.spawned, (s.servers p).alive = true
  first : s.spawned ≤ job.nrMapper ∧ ∀ p < s.spawned, (s.servers p).worker = p
  once : ∀ p t, .task t ∈ (s.servers p).sent →
    p = t.id ∧ (s.servers p).sent.count (.task t) = 1 ∧
      (s.servers p).inProgress t + (s.servers p).returns t ≤ 1
  shows : ∀ p, ∀ e ∈ (s.servers p).running, ∀ res, e.prog = .done res →
    ∃ code, res.outcome = .ok code ∧ (res.Threw job.iface → code ≠ 0)

/-- **Throwing functions do not take their workers down as long as they throw `int`s.** In
every run without crashes in which, whenever a controller begins, the first exception its
calls are going to throw is an `int` if there is one (and the lines of the input can be
numbered if there is none), and up to the first stop request, no process has ended and
none has been replaced, every task has been sent and started at most once, and exceptions
show as codes. -/
theorem workers_survive
    (h : Transition.Reaches (step job) (fun s l => CrashFree s l ∧ Begins job job.Caught s l)
      (.init d) s) (hstop : ∀ p, .stopServer ∉ (s.servers p).sent) : WorkersSurvive job s := by
  have hun := unharmed_of_reaches h
  have hi := orderly_of_reaches h
  have halive : ∀ p < s.spawned, (s.servers p).alive = true :=
    fun p hp => (hun.alive p hp).resolve_right (hstop p)
  refine ⟨halive, ⟨hun.forked.1, hun.identity⟩, fun p t ht => ?_, fun p e he res hprog => ?_⟩
  · have hpos : 0 < (s.servers p).requested t := List.count_pos_iff.mpr ht
    have hp : p < s.spawned := hi.topology.lt_of_ne fun hnone => by
      rw [hnone] at ht
      cases ht
    have hone := hun.once p t
    have hcons := (hi.coherent p).conserved (halive p hp) t
    refine ⟨?_, ?_, by omega⟩
    · rw [hi.accounting.ids p t hpos, hun.identity p hp]
    · show (s.servers p).requested t = 1
      omega
  · have hends := (ends_of_reaches (P := fun out => ∃ code, out = .ok code)
      (fun t d ht => Job.Caught.outcome ht) (fun _ _ hb => hb.2) h).1
    have htruth := results_of_reaches Job.program_truthful h p e he
    rw [hprog] at htruth
    rcases hends p e he with hfresh | hsettled
    · exact absurd (hfresh.symm.trans hprog) (Job.program_ne_done _ _)
    · -- The outcome was settled when the controller began, and a throw shows in it.
      obtain ⟨code, hcode⟩ := hsettled.outcome hprog
      refine ⟨code, hcode, fun hthrew hzero => htruth hthrew ?_⟩
      rw [hcode, hzero]

/-- One worker whose `map_fn` throws for every line. -/
def throwingJob (fault : Fault) : Job :=
  Job.sampleJob Job.lineNumbers.hashers ⟨fun _ _ => ([], some fault), fun k vs => ([(k, vs)], none)⟩
    1 Job.one_worker

/-- A thrown `int` shows as code -2 of a live process. -/
theorem workers_survive_throwingJob :
    ∃ s, Transition.run (step (throwingJob (.int 1))) (oneWorkerRun.take 10)
        (.init (Job.sampleDisk "a".toList)) = some s ∧
      (s.servers 0).returned = [(⟨.map, 0⟩, -2)] ∧ WorkersSurvive (throwingJob (.int 1)) s := by
  have hrun : (Transition.run (step (throwingJob (.int 1))) (oneWorkerRun.take 10)
      (.init (Job.sampleDisk "a".toList))).map (fun s => (s.ctrl, (s.servers 0).returned)) =
      some (.check .map 0, [(⟨.map, 0⟩, -2)]) := by decide +kernel
  obtain ⟨s, hs, heq⟩ := Option.map_eq_some_iff.mp hrun
  obtain ⟨hc, hret⟩ := Prod.mk.inj heq
  have hfree : Transition.Reaches (step (throwingJob (.int 1))) CrashFree
      (.init (Job.sampleDisk "a".toList)) s :=
    Transition.reaches_of_labels
      (fun l hl _ p he => by subst he; simp [oneWorkerRun, oneWorkerSteps] at hl) hs
  have hint : ∀ (content : Str) (idx : ℕ) (fault : Fault),
      (throwingJob (.int 1)).mapFault content idx = some fault → ∃ n, fault = .int n := by
    intro content idx fault h
    obtain ⟨line, -, -, -, hthrown⟩ := Job.exists_of_mapFault h
    exact ⟨1, (Option.some.inj hthrown).symm⟩
  refine ⟨s, hs, hret, workers_survive (hfree.strengthen fun s l hs hl => ⟨hl, fun p k e _ _ _ => ?_⟩)
    fun p hp => ?_⟩
  · obtain ⟨⟨ph, idx⟩, prog, opened⟩ := e
    cases ph with
    | map =>
      intro content hd
      have hframe : s.disk (throwingJob (.int 1)).input =
          Job.sampleDisk "a".toList (throwingJob (.int 1)).input :=
        frame_of_reaches sampleJob_writes hs
      rw [hframe, show (throwingJob (.int 1)).input = Job.oneWorker.input from rfl,
        Job.oneWorker, Job.sampleDisk_input] at hd
      obtain rfl := Option.some.inj hd
      exact ⟨hint _ idx, fun _ => by decide⟩
    | reduce =>
      intro fault hfault
      obtain ⟨e, -, hthrown⟩ := List.exists_of_findSome?_eq_some hfault
      cases hthrown
  · have hstopping := (orderly_of_reaches hfree).accounting.stops p hp
    rw [hc] at hstopping
    cases hstopping

/-- An exception of another type ends the process, and the master forks a new one. -/
theorem exception_kills :
    ¬ ∀ s, Transition.Reaches (step (throwingJob (.exception "invalid_argument".toList))) CrashFree
        (.init (Job.sampleDisk "a".toList)) s → (∀ p, .stopServer ∉ (s.servers p).sent) →
      WorkersSurvive (throwingJob (.exception "invalid_argument".toList)) s := by
  intro hall
  have hrun : (Transition.run (step (throwingJob (.exception "invalid_argument".toList)))
      (oneWorkerRun.take 10 ++ [.disconnect 0, .master, .master])
      (.init (Job.sampleDisk "a".toList))).map (fun s => (s.ctrl, s.spawned)) =
      some (.reconnect .map 0, 2) := by decide +kernel
  obtain ⟨s, hs, heq⟩ := Option.map_eq_some_iff.mp hrun
  obtain ⟨hc, hspawned⟩ := Prod.mk.inj heq
  have hfree : Transition.Reaches (step (throwingJob (.exception "invalid_argument".toList)))
      CrashFree (.init (Job.sampleDisk "a".toList)) s :=
    Transition.reaches_of_labels
      (fun l hl _ p he => by subst he; simp [oneWorkerRun, oneWorkerSteps] at hl) hs
  have hsurvive := hall s hfree fun p hp => by
    have hstopping := (orderly_of_reaches hfree).accounting.stops p hp
    rw [hc] at hstopping
    cases hstopping
  have hle := hsurvive.first.1
  rw [hspawned] at hle
  exact absurd hle (by decide)

end MapReduceCpp
