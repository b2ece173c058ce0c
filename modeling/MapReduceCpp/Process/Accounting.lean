import MapReduceCpp.Process.Topology

/-!
# MapReduceCpp.Process.Accounting

Which tasks have been sent to which process.

The task of a worker is sent from four places: the two dispatch loops and the two
restarts. `Accounting` says that together they get it right: the process behind a
client has been sent the task of the current phase once if that is due and never if
it is not, nothing but tasks of its own worker is ever sent to a process, and no
reduce task before the reduce phase. With what a process accounts for by itself
(`Server.Coherent`) this settles what a live process can still be doing.
-/

namespace MapReduceCpp

variable {job : Job} {s s' : State} {l : Label} {c : Ctrl} {ph : Phase} {w p q : ℕ} {t : Task}

/-- The tasks of a state are where they belong. `due` is the one that counts: sent once if it is
due through the client, and otherwise not at all. -/
structure Accounting (s : State) : Prop where
  /-- A worker is sent its own tasks only: the index in the request is that of its port. -/
  ids : ∀ p t, 0 < (s.servers p).requested t → t.id = (s.servers p).worker
  due : ∀ w p, s.linked w = some p →
    (s.servers p).requested ⟨s.ctrl.phase, w⟩ = if s.ctrl.due w then 1 else 0
  /-- No reduce task is sent in the map phase. -/
  early : ∀ p idx, 0 < (s.servers p).requested ⟨.reduce, idx⟩ → s.ctrl.phase = .reduce
  stops : ∀ p, .stopServer ∈ (s.servers p).sent → s.ctrl.stopping = true

theorem accounting_init (d : Disk) : Accounting (.init d) where
  ids := by intro p t h; cases h
  due := by intro w p h; cases h
  early := by intro p idx h; cases h
  stops := by intro p h; cases h

@[simp] theorem Server.requested_receive (v : Server) (req : Request) (t : Task) :
    (v.receive req).requested t = v.requested t + if req = .task t then 1 else 0 := by
  simp [Server.requested, Server.receive, List.count_append, List.count_singleton]

theorem Server.requested_of_sent {v v' : Server} (h : v'.sent = v.sent) (t : Task) :
    v'.requested t = v.requested t := by
  rw [Server.requested, h]
  rfl

/-- A step that is no send leaves all histories of requests alone. For a fork this takes that
nothing was ever sent to a number that is not in use. -/
theorem Step.sent (ht : Topology job s) (h : Step job s l s') :
    (∀ q, (s'.servers q).sent = (s.servers q).sent) ∨
      ∃ p w req phases c, Sends job s p w req phases c ∧ s.linked w = some p ∧
        s' = { s.deliver p req with phases := phases, ctrl := c } := by
  have hset : ∀ {pid : ℕ} {v : Server}, v.sent = (s.servers pid).sent → ∀ q,
      ((s.setServer pid v).servers q).sent = (s.servers q).sent :=
    fun hv => State.forall_setServer (P := fun q v => v.sent = (s.servers q).sent) hv fun _ => rfl
  have hspawn : ∀ w q, ((s.spawn w).servers q).sent = (s.servers q).sent := by
    refine fun w => State.forall_spawn (P := fun q v => v.sent = (s.servers q).sent) w ?_ fun _ => rfl
    rw [ht.unspawned _ le_rfl]
    rfl
  cases h with
  | send hs hp => exact .inr ⟨_, _, _, _, _, hs, hp, rfl⟩
  | fork _ _ => exact .inl (hspawn _)
  | refork _ => exact .inl (hspawn _)
  | answer _ _ _ =>
    left
    simp only [State.goto, State.credit_servers]
    exact hset rfl
  | start _ _ => exact .inl (hset rfl)
  | reply _ _ => exact .inl (hset rfl)
  | exit _ _ => exact .inl (hset rfl)
  | op _ _ => exact .inl (hset rfl)
  | finish _ _ _ => exact .inl (hset rfl)
  | fault _ _ _ => exact .inl (hset rfl)
  | kill _ => exact .inl (hset rfl)
  | _ => exact .inl fun _ => rfl

/-- A process keeps its worker, or has not existed. -/
theorem Step.worker (ht : Topology job s) (h : Step job s l s') (q : ℕ) :
    (s'.servers q).worker = (s.servers q).worker ∨ (s.servers q).sent = [] := by
  rcases h.server q with he | hmove | ⟨rfl, -⟩
  · exact .inl (by rw [he])
  · exact .inl hmove.worker
  · exact .inr (by rw [ht.unspawned _ le_rfl]; rfl)

theorem Sends.phase {req : Request} {phases : Phase → PhaseState}
    (h : Sends job s p w req phases c) (hctl : Control job s) : c.phase = s.ctrl.phase := by
  cases h with
  | dispatch hc _ => rw [hc]; rfl
  | resend hc _ => rw [hc]; rfl
  | noFuture hc hle => exact absurd (hctl.future hc) (Nat.not_lt.mpr hle)
  | poll hc => rw [hc]; rfl
  | stop hc _ => rw [hc]; rfl

/-- The phase changes once, at the end of a sweep of the map phase. -/
theorem Step.phase (h : Step job s l s') (hctl : Control job s) :
    s'.ctrl.phase = s.ctrl.phase ∨ s.ctrl = .sweepEnd .map ∧ s' = s.goto (.dispatch .reduce 0) := by
  cases h with
  | goto hg =>
    rcases hg.due hctl with ⟨hphase, -, -⟩ | ⟨hc, rfl⟩
    · exact .inl hphase
    · exact .inr ⟨hc, rfl⟩
  | fork hc _ => exact .inl (by rw [hc]; rfl)
  | refork hc => exact .inl (by rw [hc]; rfl)
  | client hc _ => exact .inl (by rw [hc]; rfl)
  | reclient hc _ => exact .inl (by rw [hc]; rfl)
  | send hs _ => exact .inl (hs.phase hctl)
  | status hc _ => exact .inl (by rw [hc]; rfl)
  | answer hc _ _ => exact .inl (by rw [hc]; rfl)
  | _ => exact .inl rfl

theorem Step.phase_reduce (h : Step job s l s') (hctl : Control job s)
    (hphase : s.ctrl.phase = .reduce) : s'.ctrl.phase = .reduce := by
  rcases h.phase hctl with hsame | ⟨-, rfl⟩
  · rw [hsame, hphase]
  · rfl

/-- Sending what is due keeps the accounts. The four places that send a task have in common what
`key` asks for. -/
theorem Accounting.send {req : Request} {phases : Phase → PhaseState} (h : Accounting s)
    (ht : Topology job s) (hctl : Control job s) (hs : Sends job s p w req phases c)
    (hp : s.linked w = some p) :
    Accounting { s.deliver p req with phases := phases, ctrl := c } := by
  obtain ⟨hlt, hpw⟩ := ht.linked w p hp
  have hother : ∀ q, q ≠ p → (s.deliver p req).servers q = s.servers q :=
    fun q hq => State.deliver_ne s req hq
  have hreq : ∀ q t, ((s.deliver p req).servers q).requested t =
      (s.servers q).requested t + if q = p ∧ req = .task t then 1 else 0 := by
    intro q t
    by_cases hq : q = p
    · subst hq
      simp
    · simp [hother q hq, hq]
  -- What the request, its place and the next place have to do with each other.
  have key : c.phase = s.ctrl.phase →
      (∀ t, req = .task t → t.id = w ∧ t.phase = s.ctrl.phase) →
      (req = .task ⟨s.ctrl.phase, w⟩ ∧ s.ctrl.due w = false ∧ c.due w = true ∨
        (∀ t, req ≠ .task t) ∧ c.due w = s.ctrl.due w) →
      (∀ w', w' ≠ w → c.due w' = s.ctrl.due w') →
      (s.ctrl.stopping = true ∨ req = .stopServer → c.stopping = true) →
      Accounting { s.deliver p req with phases := phases, ctrl := c } := by
    intro hph htask hdue hrest hstop
    refine ⟨fun q t hq => ?_, fun w' q hq => ?_, fun q idx hq => ?_, fun q hq => ?_⟩
    · simp only [hreq] at hq
      have hworker : ((s.deliver p req).servers q).worker = (s.servers q).worker := by
        by_cases he : q = p
        · subst he
          rw [State.deliver_self]
          rfl
        · rw [hother q he]
      simp only [hworker]
      split at hq
      · rename_i hcond
        rw [(htask t hcond.2).1, hcond.1, hpw]
      · exact h.ids q t hq
    -- Behind the client of the worker the count goes from 0 to 1, or a poll leaves it; no other
    -- client leads to that process.
    · have hold : s.linked w' = some q := hq
      simp only [hreq, hph]
      by_cases he : w' = w
      · subst he
        rw [hp] at hold
        obtain rfl := Option.some.inj hold
        rw [h.due w' p hp]
        rcases hdue with ⟨hr, hfalse, htrue⟩ | ⟨hr, hsame⟩
        · simp [hr, hfalse, htrue]
        · simp [hr, hsame]
      · have hqp : q ≠ p := by
          intro hqp
          rw [hqp] at hold
          exact he ((ht.linked w' p hold).2.symm.trans hpw)
        rw [if_neg fun hcond => hqp hcond.1, Nat.add_zero, h.due w' q hold, hrest w' he]
    · simp only [hreq] at hq
      split at hq
      · rename_i hcond
        rw [hph, ← (htask _ hcond.2).2]
      · rw [hph]
        exact h.early q idx hq
    · by_cases he : q = p
      · subst he
        have hmem : Request.stopServer ∈ (s.servers q).sent ++ [req] := by
          have hsent : ((s.deliver q req).servers q).sent = (s.servers q).sent ++ [req] := by
            rw [State.deliver_self]
            rfl
          rw [← hsent]
          exact hq
        rcases List.mem_append.mp hmem with hmem | hmem
        · exact hstop (.inl (h.stops q hmem))
        · exact hstop (.inr (List.mem_singleton.mp hmem).symm)
      · refine hstop (.inl (h.stops q ?_))
        rw [← hother q he]
        exact hq
  cases hs with
  | dispatch hc hi =>
    refine key (by rw [hc]; rfl) (fun t ht => ?_) (.inl ⟨by rw [hc]; rfl, ?_, ?_⟩) (fun w' hne => ?_)
      fun hstop => ?_
    · obtain rfl := Request.task.inj ht
      exact ⟨rfl, by rw [hc]; rfl⟩
    · simp [hc, Ctrl.due]
    · simp [Ctrl.due]
    · simp only [hc, Ctrl.due, decide_eq_decide]
      omega
    · rw [hc] at hstop
      rcases hstop with hstop | hstop <;> cases hstop
  -- The new process has been sent nothing, and the others are not affected.
  | resend hc hlt =>
    refine key (by rw [hc]; rfl) (fun t ht => ?_) (.inl ⟨by rw [hc]; rfl, ?_, rfl⟩)
      (fun w' hne => ?_) fun hstop => ?_
    · obtain rfl := Request.task.inj ht
      exact ⟨rfl, by rw [hc]; rfl⟩
    · simp [hc, Ctrl.due]
    · simp [hc, Ctrl.due, hne]
    · rw [hc] at hstop
      rcases hstop with hstop | hstop <;> cases hstop
  | noFuture hc hle => exact absurd (hctl.future hc) (Nat.not_lt.mpr hle)
  | poll hc =>
    refine key (by rw [hc]; rfl) (fun t ht => by cases ht)
      (.inr ⟨fun t ht => (by cases ht), by rw [hc]; rfl⟩) (fun w' hne => by rw [hc]; rfl)
      fun hstop => ?_
    rw [hc] at hstop
    rcases hstop with hstop | hstop <;> cases hstop
  | stop hc hi =>
    exact key (by rw [hc]; rfl) (fun t ht => by cases ht)
      (.inr ⟨fun t ht => (by cases ht), by rw [hc]; rfl⟩) (fun w' hne => by rw [hc]; rfl)
      fun hstop => rfl

/-- Steps that send nothing keep the accounts, if what is due stays due behind every client
there is now. -/
theorem Accounting.calm (h : Accounting s) (ht : Topology job s) (hs : Step job s l s')
    (hsent : ∀ q, (s'.servers q).sent = (s.servers q).sent)
    (hphase : s.ctrl.phase = .reduce → s'.ctrl.phase = .reduce)
    (hstop : s.ctrl.stopping = true → s'.ctrl.stopping = true)
    (hdue : ∀ w p, s'.linked w = some p →
      (s.servers p).requested ⟨s'.ctrl.phase, w⟩ = if s'.ctrl.due w then 1 else 0) :
    Accounting s' := by
  have hreq : ∀ q t, (s'.servers q).requested t = (s.servers q).requested t :=
    fun q t => Server.requested_of_sent (hsent q) t
  refine ⟨fun q t hq => ?_, fun w p hp => ?_, fun q idx hq => ?_, fun q hq => ?_⟩
  · rw [hreq] at hq
    rcases hs.worker ht q with hw | hnil
    · rw [hw]
      exact h.ids q t hq
    · rw [Server.requested, hnil] at hq
      cases hq
  · rw [hreq]
    exact hdue w p hp
  · rw [hreq] at hq
    exact hphase (h.early q idx hq)
  · rw [hsent] at hq
    exact hstop (h.stops q hq)

/-- A step keeps the accounts. Apart from the sends two steps matter: the phase can change, when
all is due anew, and a client can lead somewhere else. -/
theorem Accounting.step (h : Accounting s) (ht : Topology job s) (hctl : Control job s)
    (hs : Step job s l s') : Accounting s' := by
  rcases hs.sent ht with hsent | ⟨p, w, req, phases, c, hsend, hp, rfl⟩
  swap
  · exact h.send ht hctl hsend hp
  -- Moves that keep the phase and what is due at every place a client leads to.
  have key : s'.ctrl.phase = s.ctrl.phase → (s.ctrl.stopping = true → s'.ctrl.stopping = true) →
      (∀ w p, s'.linked w = some p → s.linked w = some p ∧ s'.ctrl.due w = s.ctrl.due w) →
      Accounting s' := by
    intro hphase hstop hdue
    refine h.calm ht hs hsent (fun hr => hphase.trans hr) hstop fun w p hp => ?_
    obtain ⟨hold, hsame⟩ := hdue w p hp
    rw [hphase, hsame]
    exact h.due w p hold
  have hsame : s'.ctrl = s.ctrl → s'.clientPool = s.clientPool → Accounting s' := by
    intro hc hpool
    refine key (by rw [hc]) (by rw [hc]; exact id) fun w p hp => ⟨?_, by rw [hc]⟩
    rw [State.linked, hpool] at hp
    exact hp
  cases hs with
  | goto hg =>
    rcases hg.due hctl with ⟨hphase, hdue, hstop⟩ | ⟨hc, rfl⟩
    · exact key hphase hstop fun w p hp => ⟨hp, hdue w⟩
    · refine h.calm ht (.goto hg) hsent (fun _ => rfl) (fun hstop => ?_) fun w p hp => ?_
      · rw [hc] at hstop
        cases hstop
      · -- No reduce task has been sent so far.
        have hzero : (s.servers p).requested ⟨.reduce, w⟩ = 0 := by
          by_contra hne
          have hphase := h.early p w (Nat.pos_of_ne_zero hne)
          rw [hc] at hphase
          cases hphase
        rw [show (s.goto (.dispatch .reduce 0)).ctrl.phase = .reduce from rfl, hzero]
        simp [State.goto, Ctrl.due]
  | fork hc hi =>
    exact key (by rw [hc]; rfl) (by rw [hc]; exact id) fun w p hp => ⟨hp, by rw [hc]; rfl⟩
  | refork hc =>
    exact key (by rw [hc]; rfl) (by rw [hc]; exact id) fun w p hp => ⟨hp, by rw [hc]; rfl⟩
  | client hc hi =>
    exact key (by rw [hc]; rfl) (by rw [hc]; exact id) fun w p hp =>
      ⟨State.linked_append w ▸ hp, by rw [hc]; rfl⟩
  -- The client leads nowhere, and its task is the one that is not due.
  | reclient hc hw =>
    refine key (by rw [hc]; rfl) (by rw [hc]; exact id) fun w' p hp => ?_
    rw [State.linked_set hw] at hp
    split at hp
    · cases hp
    · rename_i hne
      exact ⟨hp, by rw [hc]; simp [Ctrl.due, hne]⟩
  | send hsend hp => exact h.send ht hctl hsend hp
  -- The dispatch loop is over, so the index is behind every worker.
  | status hc hi =>
    refine key (by rw [hc]; rfl) (by rw [hc]; exact id) fun w p hp => ⟨hp, ?_⟩
    obtain ⟨hlt, hpw⟩ := ht.linked w p hp
    have hw := ht.worker_lt p hlt
    rw [hc]
    simp only [State.goto, Ctrl.due, Bool.true_eq, decide_eq_true_eq]
    omega
  | @answer ph w p status hc _ _ =>
    refine key (by rw [hc]; rfl) (by rw [hc]; exact id) fun w' p' hp' => ⟨?_, by rw [hc]; rfl⟩
    cases status <;> exact hp'
  | @connect w pid hw hlive hpw =>
    refine h.calm ht (.connect hw hlive hpw) hsent id id fun w' p hp => ?_
    rw [@State.linked_set s w (.connected pid) s.ctrl (List.getElem?_eq_some_iff.mp hw).1] at hp
    split at hp
    · rename_i he
      obtain rfl := Option.some.inj hp
      -- The process behind a new connection has been sent nothing.
      have hnil : (s.servers pid).sent = [] := by
        refine ht.unlinked pid hlive ?_
        rw [hpw, State.linked_of_client hw]
        exact Option.some_ne_none pid |>.symm
      rw [Server.requested, hnil, he, ht.initial w hw]
      rfl
    · exact h.due w' p hp
  | disconnect hw _ =>
    exact key rfl id fun w p hp => ⟨State.linked_disconnect hw w ▸ hp, rfl⟩
  | _ => exact hsame rfl rfl

/-- The accounts are in order in every state of every run. -/
theorem accounting_of_reaches {ok : State → Label → Prop} {d : Disk}
    (h : Transition.Reaches (MapReduceCpp.step job) ok (.init d) s) : Accounting s :=
  h.invariant_of (fun _ hr => (⟨topology_of_reaches hr, control_of_reaches hr⟩ : _ ∧ _))
    (fun _ _ _ hI hP _ hstep => hP.step hI.1 hI.2 (step_cases hstep)) (accounting_init d)

/-- Every process accounts for its tasks in every state of every run. -/
theorem coherent_of_reaches {ok : State → Label → Prop} {d : Disk}
    (h : Transition.Reaches (MapReduceCpp.step job) ok (.init d) s) (q : ℕ) :
    (s.servers q).Coherent := by
  suffices hall : ∀ q, (s.servers q).Coherent from hall q
  refine h.invariant_of (P := fun s => ∀ q, (s.servers q).Coherent)
    (fun _ hr => topology_of_reaches hr) (fun s l s' ht hP _ hstep q => ?_)
    fun _ => Server.coherent_none
  rcases (step_cases hstep).server q with he | hmove | ⟨-, w, hfresh⟩
  · rw [he]
    exact hP q
  · exact hmove.coherent (hP q)
  · rw [hfresh, ht.globals]
    exact Server.coherent_fresh w

end MapReduceCpp
