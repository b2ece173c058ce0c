import MapReduceCpp.Process

/-!
# MapReduceCpp.Process.Step

The steps of the system as a relation, one constructor for each way the state can
change.

`Step job s l s'` says of `step` what it can do and under which guards, so that an
invariant is proved by cases on it and never by unfolding `step`. Every case is a
step, unless it is an access out of bounds (`Step.enabled`), so that a run is
exhibited by its cases. The moves of the master that change nothing but its program
counter are one constructor over `Goto`, its sends one over `Sends`. What a step
means for a single process is `Move`, and `Step.server` says that every process
makes a `Move`, is new or stays as it is.
-/

namespace MapReduceCpp

variable {job : Job} {s s' : State} {l : Label} {c : Ctrl}

/-- The moves of the master that change only where it is, with the tests that lead there. -/
inductive Goto (job : Job) (s : State) : Ctrl → Prop
  | forked {i : ℕ} : s.ctrl = .fork i → job.nrMapper ≤ i → Goto job s (.connect 0)
  | created {i : ℕ} : s.ctrl = .connect i → job.nrMapper ≤ i → Goto job s (.dispatch .map 0)
  -- In the sweep, at a worker whose entry is 1.
  | skip {ph : Phase} {w : ℕ} : s.ctrl = .check ph w → w < job.nrMapper →
      (s.phases ph).taskStatus[w]? = some 1 → Goto job s (.check ph (w + 1))
  -- At a worker whose entry is not 1, with the answer of `is_server_down`.
  | down {ph : Phase} {w st pid : ℕ} : s.ctrl = .check ph w → w < job.nrMapper →
      (s.phases ph).taskStatus[w]? = some st → st ≠ 1 →
      s.clientPool[w]? = some (.disconnected pid) → Goto job s (.refork ph w)
  | up {ph : Phase} {w st : ℕ} {client : Client} : s.ctrl = .check ph w → w < job.nrMapper →
      (s.phases ph).taskStatus[w]? = some st → st ≠ 1 →
      s.clientPool[w]? = some client → (∀ pid, client ≠ .disconnected pid) →
      Goto job s (.poll ph w)
  | swept {ph : Phase} {w : ℕ} : s.ctrl = .check ph w → job.nrMapper ≤ w →
      Goto job s (.sweepEnd ph)
  | mapped : s.ctrl = .sweepEnd .map → (s.phases .map).nrDone = job.nrMapper →
      Goto job s (.dispatch .reduce 0)
  | reduced : s.ctrl = .sweepEnd .reduce → (s.phases .reduce).nrDone = job.nrReducer →
      Goto job s (.stop 0)
  | again {ph : Phase} : s.ctrl = .sweepEnd ph → (s.phases ph).nrDone ≠ job.count ph →
      Goto job s (.check ph 0)
  | stopped {i : ℕ} : s.ctrl = .stop i → job.nrMapper ≤ i → Goto job s .returned
  -- The two accesses out of bounds, one of which never happens (`Control.noClient`).
  | noStatus {ph : Phase} {w : ℕ} : s.ctrl = .check ph w → w < job.nrMapper →
      (s.phases ph).taskStatus[w]? = none → Goto job s .undefined
  | noClient {w : ℕ} :
      (∃ ph, s.ctrl = .dispatch ph w ∧ w < job.nrMapper ∨ s.ctrl = .check ph w ∧ w < job.nrMapper ∨
        s.ctrl = .reconnect ph w ∨ s.ctrl = .resend ph w ∨ s.ctrl = .poll ph w ∨
        s.ctrl = .stop w ∧ w < job.nrMapper) →
      s.clientPool[w]? = none → Goto job s .undefined

/-- What the master can send to the process behind a client, the phase variables it leaves and
where it goes on. That the process is dead makes no difference here. -/
inductive Sends (job : Job) (s : State) (pid : ℕ) :
    ℕ → Request → (Phase → PhaseState) → Ctrl → Prop
  | dispatch {ph : Phase} {i : ℕ} : s.ctrl = .dispatch ph i → i < job.nrMapper →
      Sends job s pid i (.task ⟨ph, i⟩)
        (Function.update s.phases ph
          { s.phases ph with futurePool := (s.phases ph).futurePool ++ [pid] })
        (.dispatch ph (i + 1))
  | resend {ph : Phase} {w : ℕ} : s.ctrl = .resend ph w → w < (s.phases ph).futurePool.length →
      Sends job s pid w (.task ⟨ph, w⟩)
        (Function.update s.phases ph
          { s.phases ph with futurePool := (s.phases ph).futurePool.set w pid })
        (.check ph (w + 1))
  | noFuture {ph : Phase} {w : ℕ} : s.ctrl = .resend ph w →
      (s.phases ph).futurePool.length ≤ w →
      Sends job s pid w (.task ⟨ph, w⟩) s.phases .undefined
  | poll {ph : Phase} {w : ℕ} : s.ctrl = .poll ph w →
      Sends job s pid w (.isDone ph) s.phases (.await ph w)
  | stop {i : ℕ} : s.ctrl = .stop i → i < job.nrMapper →
      Sends job s pid i .stopServer s.phases (.stop (i + 1))

/-- One step of the system. The successor is written out, so that `cases` leaves an invariant
with the state it has to be shown of. -/
inductive Step (job : Job) (s : State) : Label → State → Prop
  | goto {c : Ctrl} : Goto job s c → Step job s .master (s.goto c)
  -- The master, where it changes more than its place.
  | fork {i : ℕ} : s.ctrl = .fork i → i < job.nrMapper →
      Step job s .master ((s.spawn i).goto (.fork (i + 1)))
  | refork {ph : Phase} {w : ℕ} : s.ctrl = .refork ph w →
      Step job s .master ((s.spawn w).goto (.reconnect ph w))
  | client {i : ℕ} : s.ctrl = .connect i → i < job.nrMapper →
      Step job s .master
        { s with clientPool := s.clientPool ++ [.initial], ctrl := .connect (i + 1) }
  | reclient {ph : Phase} {w : ℕ} : s.ctrl = .reconnect ph w → w < s.clientPool.length →
      Step job s .master { s with clientPool := s.clientPool.set w .initial, ctrl := .resend ph w }
  | send {pid w : ℕ} {req : Request} {phases : Phase → PhaseState} {c : Ctrl} :
      Sends job s pid w req phases c → s.linked w = some pid →
      Step job s .master { s.deliver pid req with phases := phases, ctrl := c }
  | status {ph : Phase} {i : ℕ} : s.ctrl = .dispatch ph i → job.nrMapper ≤ i →
      Step job s .master ((s.setPhase ph
        { s.phases ph with taskStatus := List.replicate (job.count ph) 0, nrDone := 0 }).goto
          (.check ph 0))
  | answer {ph : Phase} {w pid : ℕ} {status : Bool} : s.ctrl = .await ph w →
      s.linked w = some pid → (s.servers pid).reply = some (ph, status) →
      Step job s .master
        (((s.setServer pid { s.servers pid with reply := none }).credit ph w status).goto
          (.check ph (w + 1)))
  -- The connections.
  | connect {w pid : ℕ} : s.clientPool[w]? = some .initial → (s.servers pid).alive = true →
      (s.servers pid).worker = w →
      Step job s (.connect w pid) { s with clientPool := s.clientPool.set w (.connected pid) }
  | disconnect {w pid : ℕ} : s.clientPool[w]? = some (.connected pid) →
      (s.servers pid).alive = false →
      Step job s (.disconnect w) { s with clientPool := s.clientPool.set w (.disconnected pid) }
  -- A worker takes up a request.
  | start {pid k : ℕ} {t : Task} : (s.servers pid).running.length < 2 →
      (s.servers pid).inbox[k]? = some (.task t) →
      Step job s (.execute pid k) (s.setServer pid
        { s.servers pid with
          inbox := (s.servers pid).inbox.eraseIdx k
          running := (s.servers pid).running ++ [⟨t, job.program t, []⟩] })
  | reply {pid k : ℕ} {ph : Phase} : (s.servers pid).running.length < 2 →
      (s.servers pid).inbox[k]? = some (.isDone ph) →
      Step job s (.execute pid k) (s.setServer pid
        { s.servers pid with
          inbox := (s.servers pid).inbox.eraseIdx k
          reply := some (ph, (s.servers pid).completed ph) })
  | exit {pid k : ℕ} : (s.servers pid).running.length < 2 →
      (s.servers pid).inbox[k]? = some .stopServer →
      Step job s (.execute pid k) (s.setServer pid (s.servers pid).terminate)
  -- A worker goes on with a controller.
  | op {pid k : ℕ} {e : Exec} {prog : FileProg Path Char TaskResult} {d : Disk} :
      (s.servers pid).running[k]? = some e → e.prog.step .all s.disk = some (prog, d) →
      Step job s (.file pid k)
        { s.setServer pid
            { s.servers pid with
              running :=
                (s.servers pid).running.set k ⟨e.task, prog, openedAfter e.prog e.opened⟩ } with
          disk := d }
  | finish {pid k : ℕ} {e : Exec} {res : TaskResult} {code : ℤ} :
      (s.servers pid).running[k]? = some e → e.prog = .done res → res.outcome = .ok code →
      Step job s (.file pid k) (s.setServer pid
        { s.servers pid with
          running := (s.servers pid).running.eraseIdx k
          completed := Function.update (s.servers pid).completed e.task.phase true
          returned := (s.servers pid).returned ++ [(e.task, code)] })
  | fault {pid k : ℕ} {e : Exec} {res : TaskResult} {fault : Fault} :
      (s.servers pid).running[k]? = some e → e.prog = .done res → res.outcome = .error fault →
      Step job s (.file pid k) (s.setServer pid (s.servers pid).terminate)
  | kill {pid : ℕ} : (s.servers pid).alive = true →
      Step job s (.kill pid) (s.setServer pid (s.servers pid).terminate)

/-- Calling through a client either finds no client, or sends. -/
theorem asyncCall_eq_some {w : ℕ} {req : Request} {next : ℕ → State → State}
    (h : s.asyncCall w req next = some s') :
    s.clientPool[w]? = none ∧ s' = s.goto .undefined ∨
      ∃ pid, s.linked w = some pid ∧ s' = next pid (s.deliver pid req) := by
  unfold State.asyncCall at h
  split at h
  · rename_i hnone
    exact .inl ⟨hnone, (Option.some.inj h).symm⟩
  · rename_i client hclient
    obtain ⟨pid, hpid, hs'⟩ := Option.map_eq_some_iff.mp h
    exact .inr ⟨pid, by rw [State.linked, hclient]; exact hpid, hs'.symm⟩

/-- One case for each place of the master, in the order of `masterStep`; within it the tests of
the source decide. -/
theorem masterStep_cases (h : masterStep job s = some s') : Step job s .master s' := by
  unfold masterStep at h
  cases hc : s.ctrl with
  | fork i =>
    simp only [hc] at h
    split at h <;> obtain rfl := Option.some.inj h
    · exact .fork hc ‹_›
    · exact .goto (.forked hc (Nat.le_of_not_lt ‹_›))
  | connect i =>
    simp only [hc] at h
    split at h <;> obtain rfl := Option.some.inj h
    · exact .client hc ‹_›
    · exact .goto (.created hc (Nat.le_of_not_lt ‹_›))
  | dispatch ph i =>
    simp only [hc] at h
    split at h
    · rename_i hi
      rcases asyncCall_eq_some h with ⟨hnone, rfl⟩ | ⟨pid, hpid, rfl⟩
      · exact .goto (.noClient ⟨ph, .inl ⟨hc, hi⟩⟩ hnone)
      · exact .send (.dispatch hc hi) hpid
    · obtain rfl := Option.some.inj h
      exact .status hc (Nat.le_of_not_lt ‹_›)
  | check ph w =>
    simp only [hc] at h
    split at h
    · rename_i hw
      split at h
      · obtain rfl := Option.some.inj h
        exact .goto (.noStatus hc hw ‹_›)
      · obtain rfl := Option.some.inj h
        exact .goto (.skip hc hw ‹_›)
      -- A status that is not 1: only now is the connection looked at.
      · rename_i st hne hst
        split at h <;> obtain rfl := Option.some.inj h
        · exact .goto (.noClient ⟨ph, .inr (.inl ⟨hc, hw⟩)⟩ ‹_›)
        · exact .goto (.down hc hw hst hne ‹_›)
        · rename_i client hnd hclient
          exact .goto (.up hc hw hst hne hclient hnd)
    · obtain rfl := Option.some.inj h
      exact .goto (.swept hc (Nat.le_of_not_lt ‹_›))
  | refork ph w =>
    simp only [hc] at h
    obtain rfl := Option.some.inj h
    exact .refork hc
  | reconnect ph w =>
    simp only [hc] at h
    split at h <;> obtain rfl := Option.some.inj h
    · exact .reclient hc ‹_›
    -- `client_pool[w] = ...` is an access as well, though nothing is sent through it.
    · rename_i hlen
      exact .goto (.noClient ⟨ph, .inr (.inr (.inl hc))⟩
        (List.getElem?_eq_none (Nat.le_of_not_lt hlen)))
  | resend ph w =>
    simp only [hc] at h
    rcases asyncCall_eq_some h with ⟨hnone, rfl⟩ | ⟨pid, hpid, rfl⟩
    · exact .goto (.noClient ⟨ph, .inr (.inr (.inr (.inl hc)))⟩ hnone)
    · split
      · exact .send (.resend hc ‹_›) hpid
      · exact .send (.noFuture hc (Nat.le_of_not_lt ‹_›)) hpid
  | poll ph w =>
    simp only [hc] at h
    rcases asyncCall_eq_some h with ⟨hnone, rfl⟩ | ⟨pid, hpid, rfl⟩
    · exact .goto (.noClient ⟨ph, .inr (.inr (.inr (.inr (.inl hc))))⟩ hnone)
    · exact .send (.poll hc) hpid
  | await ph w =>
    simp only [hc] at h
    split at h
    · cases h
    · rename_i pid hpid
      split at h
      · cases h
      -- An answer for the other phase is not taken: the call goes on waiting.
      · rename_i ph' status hreply
        split at h
        · rename_i hph
          subst hph
          obtain rfl := Option.some.inj h
          exact .answer hc hpid hreply
        · cases h
  | sweepEnd ph =>
    simp only [hc] at h
    split at h
    · rename_i hdone
      cases ph with
      | map =>
        obtain rfl := Option.some.inj h
        exact .goto (.mapped hc hdone)
      | reduce =>
        obtain rfl := Option.some.inj h
        exact .goto (.reduced hc hdone)
    · obtain rfl := Option.some.inj h
      exact .goto (.again hc ‹_›)
  | stop i =>
    simp only [hc] at h
    split at h
    · rename_i hi
      rcases asyncCall_eq_some h with ⟨hnone, rfl⟩ | ⟨pid, hpid, rfl⟩
      · exact .goto (.noClient ⟨.map, .inr (.inr (.inr (.inr (.inr ⟨hc, hi⟩))))⟩ hnone)
      · exact .send (.stop hc hi) hpid
    · obtain rfl := Option.some.inj h
      exact .goto (.stopped hc (Nat.le_of_not_lt ‹_›))
  | returned =>
    simp only [hc] at h
    cases h
  | undefined =>
    simp only [hc] at h
    cases h

/-- A worker has the request it takes up in its inbox and a thread for it. -/
theorem execute_cases {pid k : ℕ} {v' : Server} (h : (s.servers pid).execute job k = some v') :
    Step job s (.execute pid k) (s.setServer pid v') := by
  unfold Server.execute at h
  split at h
  · rename_i hlen
    split at h
    · cases h
    · obtain rfl := Option.some.inj h
      exact .start hlen ‹_›
    · obtain rfl := Option.some.inj h
      exact .reply hlen ‹_›
    · obtain rfl := Option.some.inj h
      exact .exit hlen ‹_›
  · cases h

/-- A program that is done ends its handler, with a code or with a fault; any other performs an
operation. -/
theorem fileStep_cases {pid k : ℕ} (h : fileStep s pid k = some s') :
    Step job s (.file pid k) s' := by
  unfold fileStep at h
  simp only at h
  split at h
  · cases h
  · rename_i e he
    split at h
    · rename_i res hprog
      obtain rfl := Option.some.inj h
      cases hres : res.outcome with
      | ok code => exact .finish he hprog hres
      | error fault => exact .fault he hprog hres
    · obtain ⟨⟨prog, d⟩, hstep, rfl⟩ := Option.map_eq_some_iff.mp h
      exact .op he hstep

theorem step_cases (h : step job s l = some s') : Step job s l s' := by
  cases l with
  | master => exact masterStep_cases h
  | connect w pid =>
    simp only [step] at h
    split at h
    · rename_i hcond
      obtain rfl := Option.some.inj h
      exact .connect hcond.1 hcond.2.1 hcond.2.2
    · cases h
  | disconnect w =>
    simp only [step] at h
    split at h
    · split at h
      · cases h
      · obtain rfl := Option.some.inj h
        exact .disconnect ‹_› (Bool.eq_false_iff.mpr ‹_›)
    · cases h
  | execute pid k =>
    obtain ⟨v', hv', rfl⟩ := Option.map_eq_some_iff.mp h
    exact execute_cases hv'
  | file pid k => exact fileStep_cases h
  | kill pid =>
    simp only [step] at h
    split at h
    · obtain rfl := Option.some.inj h
      exact .kill ‹_›
    · cases h

/-! ### Steps that can be taken

The converse, for runs that are exhibited: to show that a step can be taken it is enough to give
its case. An access out of bounds is left out, as no two cases with it are told apart. -/

/-- Through a client whose connection has been made, the call is a send. -/
theorem asyncCall_of_linked {w pid : ℕ} (h : s.linked w = some pid) (req : Request)
    (next : ℕ → State → State) :
    s.asyncCall w req next = some (next pid (s.deliver pid req)) := by
  unfold State.linked at h
  obtain ⟨client, hclient, hpid⟩ := Option.bind_eq_some_iff.mp h
  rw [State.asyncCall, hclient]
  simp only [hpid, Option.map_some]

theorem Goto.enabled (h : Goto job s c) (hc : c ≠ .undefined) :
    masterStep job s = some (s.goto c) := by
  unfold masterStep
  cases h with
  | forked hs hi => simp only [hs, if_neg (Nat.not_lt.mpr hi)]
  | created hs hi => simp only [hs, if_neg (Nat.not_lt.mpr hi)]
  | skip hs hw hst => simp only [hs, if_pos hw, hst]
  | @down ph w st pid hs hw hst hne hcl =>
    simp only [hs, if_pos hw, hst, hcl]
  | @up ph w st client hs hw hst hne hcl hup =>
    simp only [hs, if_pos hw, hst, hcl]
  | swept hs hw => simp only [hs, if_neg (Nat.not_lt.mpr hw)]
  | mapped hs hdone =>
    have hcount : (s.phases .map).nrDone = job.count .map := hdone
    simp only [hs, if_pos hcount]
  | reduced hs hdone =>
    have hcount : (s.phases .reduce).nrDone = job.count .reduce := hdone
    simp only [hs, if_pos hcount]
  | again hs hne => simp only [hs, if_neg hne]
  | stopped hs hi => simp only [hs, if_neg (Nat.not_lt.mpr hi)]
  | noStatus _ _ _ => exact absurd rfl hc
  | noClient _ _ => exact absurd rfl hc

theorem Sends.enabled {pid w : ℕ} {req : Request} {phases : Phase → PhaseState}
    (h : Sends job s pid w req phases c) (hp : s.linked w = some pid) (hc : c ≠ .undefined) :
    masterStep job s = some { s.deliver pid req with phases := phases, ctrl := c } := by
  unfold masterStep
  cases h with
  | dispatch hs hi =>
    simp only [hs, if_pos hi, asyncCall_of_linked hp]
    rfl
  | resend hs hlt =>
    simp only [hs, asyncCall_of_linked hp]
    rw [if_pos]
    · rfl
    · exact hlt
  | noFuture _ _ => exact absurd rfl hc
  | poll hs =>
    simp only [hs, asyncCall_of_linked hp]
    rfl
  | stop hs hi =>
    simp only [hs, if_pos hi, asyncCall_of_linked hp]
    rfl

/-- Every case of `Step` that is defined is a step, and its label with its state determine the
successor. -/
theorem Step.enabled (h : Step job s l s') (hc : s'.ctrl ≠ .undefined) :
    step job s l = some s' := by
  cases h with
  | goto hg => exact hg.enabled hc
  | fork hs hi => simp only [step, masterStep, hs, if_pos hi]
  | refork hs => simp only [step, masterStep, hs]
  | client hs hi => simp only [step, masterStep, hs, if_pos hi]
  | reclient hs hw => simp only [step, masterStep, hs, if_pos hw]
  | send hsend hp => exact hsend.enabled hp hc
  | status hs hi => simp only [step, masterStep, hs, if_neg (Nat.not_lt.mpr hi)]
  | answer hs hp hr => simp only [step, masterStep, hs, hp, hr, if_true]
  | connect hw hp hpw => simp only [step, hw, hp, hpw, and_self, if_true]
  | disconnect hw hp => simp only [step, hw, hp, Bool.false_eq_true, if_false]
  | start hlen hk => simp only [step, Server.execute, if_pos hlen, hk, Option.map_some]
  | reply hlen hk => simp only [step, Server.execute, if_pos hlen, hk, Option.map_some]
  | exit hlen hk => simp only [step, Server.execute, if_pos hlen, hk, Option.map_some]
  | @op pid k e prog d hk hop =>
    simp only [step, fileStep, hk]
    -- The program is not done, as it has a next operation.
    split
    · rename_i res hprog
      rw [hprog] at hop
      cases hop
    · rw [hop]
      rfl
  | finish hk hprog hres =>
    simp only [step, fileStep, hk, hprog, hres]
    rfl
  | fault hk hprog hres =>
    simp only [step, fileStep, hk, hprog, hres]
    rfl
  | kill hp => simp only [step, hp, if_true]

end MapReduceCpp
