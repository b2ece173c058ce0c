import MapReduceCpp.Process.Survival

/-!
# MapReduceCpp.Process.WakeUp

What the master waits for, and whether it can still happen.

The master blocks in two places: in `is_map_done` or `is_reduce_done` until the answer is
there, and in the first call through a new client until its connection is made. The first
wait is for a process the master has found up, the second for one it has just forked. If
the process ends in between, nothing wakes the master, and no timeout is set: the test of
the connection and the call behind it are not one step. `no_lost_wakeup` says that this is
the only way: when no process ends at these moments and a death is noticed before the next
poll, the master never waits in vain.
-/

namespace MapReduceCpp

variable {job : Job} {s s' : State} {l : Label} {c : Ctrl} {ph ph' : Phase} {w p q : ℕ} {d : Disk}

/-! ### Polls in flight

The master makes one blocking call at a time, so that an answer it finds is the one to its last
question. Tasks and stop requests are sent and forgotten; for them nothing of the kind holds. -/

/-- A request for the state of a task. -/
def Request.isPoll : Request → Bool
  | isDone _ => true
  | _ => false

namespace Server

/-- The number of polls that are waiting at a process or answered. A poll that is taken up
becomes its answer in the same step. -/
def polls (v : Server) : ℕ := v.inbox.countP Request.isPoll + if v.reply = Option.none then 0 else 1

/-- A poll for a phase is waiting at a process or answered. -/
def Polled (v : Server) (ph : Phase) : Prop := .isDone ph ∈ v.inbox ∨ ∃ b, v.reply = some (ph, b)

/-- A count of 0 leaves no poll of either phase. -/
theorem not_polled_of_polls {v : Server} (h : v.polls = 0) (ph : Phase) : ¬ v.Polled ph := by
  unfold polls at h
  intro hp
  rcases hp with hmem | ⟨b, hb⟩
  · have hpos : 0 < v.inbox.countP Request.isPoll := List.countP_pos_iff.mpr ⟨_, hmem, rfl⟩
    omega
  · rw [if_neg (by rw [hb]; exact Option.some_ne_none _)] at h
    omega

theorem polls_eq_zero {v : Server} (h : ∀ ph, ¬ v.Polled ph) : v.polls = 0 := by
  have hinbox : v.inbox.countP Request.isPoll = 0 := by
    refine List.countP_eq_zero.mpr fun req hreq hpoll => ?_
    cases req with
    | isDone ph => exact h ph (.inl hreq)
    | task t => cases hpoll
    | stopServer => cases hpoll
  have hreply : v.reply = Option.none := by
    cases hr : v.reply with
    | none => rfl
    | some answer => exact absurd (.inr ⟨answer.2, by rw [hr]⟩) (h answer.1)
  rw [polls, hinbox, if_pos hreply]

end Server

/-- A process that receives nothing is not polled. It may lose polls with its end, but never its
answer. -/
theorem Move.polled {v v' : Server} (h : Move job v v') (hsent : v'.sent = v.sent) :
    v'.polls ≤ v.polls ∧ ∀ ph, v'.Polled ph → v.Polled ph := by
  cases h with
  | receive req => simp [Server.receive] at hsent
  | taken =>
    refine ⟨?_, fun ph hp => ?_⟩
    · simp only [Server.polls, if_true]
      omega
    · rcases hp with hmem | ⟨b, hb⟩
      · exact .inl hmem
      · cases hb
  | @start k t hk =>
    refine ⟨?_, fun ph hp => hp.imp List.mem_of_mem_eraseIdx id⟩
    exact Nat.add_le_add_right (List.Sublist.countP_le (List.eraseIdx_sublist ..)) _
  -- A waiting poll becomes an answer, which counts as one poll again.
  | @reply k ph' hk =>
    refine ⟨?_, fun ph hp => ?_⟩
    · obtain ⟨hlt, he⟩ := List.getElem?_eq_some_iff.mp hk
      have hperm := (List.getElem_cons_eraseIdx_perm hlt).countP_eq Request.isPoll
      rw [he, List.countP_cons_of_pos rfl] at hperm
      simp only [Server.polls, reduceCtorEq, if_false]
      omega
    · rcases hp with hmem | ⟨b, hb⟩
      · exact .inl (List.mem_of_mem_eraseIdx hmem)
      · obtain ⟨rfl, -⟩ := Prod.mk.inj (Option.some.inj hb)
        exact .inl (List.mem_of_getElem? hk)
  | op _ => exact ⟨le_rfl, fun _ hp => hp⟩
  | finish _ => exact ⟨le_rfl, fun _ hp => hp⟩
  | terminate =>
    refine ⟨Nat.add_le_add_right (Nat.zero_le _) _, fun ph hp => ?_⟩
    rcases hp with hmem | hb
    · cases hmem
    · exact .inr hb

/-- There is at most one poll in flight, at the process the master is waiting for. -/
structure Polls (s : State) : Prop where
  le_one : ∀ q, (s.servers q).polls ≤ 1
  awaited : ∀ q ph, (s.servers q).Polled ph → ∃ w, s.ctrl = .await ph w ∧ s.linked w = some q

theorem polls_init (d : Disk) : Polls (.init d) where
  le_one := fun _ => Nat.zero_le _
  awaited := by
    intro q ph hp
    rcases hp with hmem | ⟨b, hb⟩
    · cases hmem
    · cases hb

/-- A client leads where it leads until it is replaced, which the master does in one place only. -/
theorem Step.linked_stays (hs : Step job s l s')
    (hc : l = .master → ∀ ph, s.ctrl ≠ .reconnect ph w) (h : s.linked w = some p) :
    s'.linked w = some p := by
  cases hs with
  | client _ _ => exact (State.linked_append w).trans h
  | @reclient ph w' hc' hw' =>
    rw [State.linked_set hw', if_neg]
    · exact h
    · rintro rfl
      exact hc rfl ph hc'
  | @connect w' pid hw' _ _ =>
    rw [@State.linked_set s w' (.connected pid) s.ctrl (List.getElem?_eq_some_iff.mp hw').1, if_neg]
    · exact h
    · rintro rfl
      rw [State.linked_of_client hw'] at h
      cases h
  | disconnect hw' _ => exact State.linked_disconnect hw' w ▸ h
  | @answer ph w' pid status _ _ _ => cases status <;> exact h
  | _ => exact h

theorem Sends.not_await {req : Request} {phases : Phase → PhaseState}
    (h : Sends job s p w req phases c) (ph' : Phase) (w' : ℕ) : s.ctrl ≠ .await ph' w' := by
  intro hc'
  cases h <;> simp_all

/-- A master that waits for an answer goes on only with the answer, and takes it off the
process. -/
theorem Step.await (hs : Step job s l s') (hctl : Control job s) (hc : s.ctrl = .await ph w) :
    s'.ctrl = .await ph w ∨ ∃ p b, s.linked w = some p ∧ (s.servers p).reply = some (ph, b) ∧
      s'.ctrl = .check ph (w + 1) ∧ (s'.servers p).inbox = (s.servers p).inbox ∧
      (s'.servers p).reply = none := by
  cases hs with
  | goto hg =>
    cases hg with
    | noClient hc' hnone => exact absurd hnone (hctl.noClient hc')
    | _ => simp_all
  | fork hc' _ => rw [hc] at hc'; cases hc'
  | refork hc' => rw [hc] at hc'; cases hc'
  | client hc' _ => rw [hc] at hc'; cases hc'
  | reclient hc' _ => rw [hc] at hc'; cases hc'
  | send hsend _ => exact absurd hc (hsend.not_await ph w)
  | status hc' _ => rw [hc] at hc'; cases hc'
  | @answer ph' w' p b hc' hp hr =>
    obtain ⟨rfl, rfl⟩ := Ctrl.await.inj (hc.symm.trans hc')
    refine .inr ⟨p, b, hp, hr, rfl, ?_, ?_⟩
    · simp only [State.goto, State.credit_servers, State.setServer_self]
    · simp only [State.goto, State.credit_servers, State.setServer_self]
  | _ => exact .inl hc

/-- At most one poll stays in flight: the next is sent only when the master has left the call
before. -/
theorem Polls.step (h : Polls s) (hctl : Control job s) (ht : Topology job s)
    (hs : Step job s l s') : Polls s' := by
  rcases hs.sent ht with hsame | ⟨p, w, req, phases, c, hsend, hp, rfl⟩
  -- Nothing is sent, so the polls of every process get fewer or stay.
  · have hless : ∀ q, (s'.servers q).polls ≤ (s.servers q).polls ∧
        ∀ ph, (s'.servers q).Polled ph → (s.servers q).Polled ph := by
      intro q
      rcases hs.server q with he | hmove | ⟨-, w, hfresh⟩
      · rw [he]
        exact ⟨le_rfl, fun _ hp => hp⟩
      · exact hmove.polled (hsame q)
      · rw [hfresh]
        refine ⟨Nat.zero_le _, fun ph hp => ?_⟩
        exact absurd hp (Server.not_polled_of_polls rfl ph)
    refine ⟨fun q => (hless q).1.trans (h.le_one q), fun q ph hp => ?_⟩
    obtain ⟨w, hc, hlink⟩ := h.awaited q ph ((hless q).2 ph hp)
    rcases hs.await hctl hc with hc' | ⟨p, b, hp', hr, -, hinbox, hreply⟩
    · refine ⟨w, hc', hs.linked_stays (fun _ ph' hc'' => ?_) hlink⟩
      rw [hc] at hc''
      cases hc''
    · -- The answer was the one poll there was.
      rw [hlink] at hp'
      obtain rfl := Option.some.inj hp'
      have hone := h.le_one q
      rw [Server.polls, if_neg (by rw [hr]; exact Option.some_ne_none _)] at hone
      have hzero : (s'.servers q).polls = 0 := by
        rw [Server.polls, hinbox, hreply, if_pos rfl]
        omega
      exact absurd hp (Server.not_polled_of_polls hzero ph)
  · -- The master sends nothing while it waits, so there was no poll before this request.
    have hnone : ∀ q ph, ¬ (s.servers q).Polled ph := by
      intro q ph hp'
      obtain ⟨w', hc, -⟩ := h.awaited q ph hp'
      exact hsend.not_await ph w' hc
    have hzero : ∀ q, (s.servers q).polls = 0 := fun q => Server.polls_eq_zero (hnone q)
    refine ⟨fun q => ?_, fun q ph hq => ?_⟩
    · by_cases hqp : q = p
      · subst hqp
        have hq := hzero q
        simp only [Server.polls] at hq
        simp only [State.deliver_self, Server.receive, Server.polls]
        -- Whatever it is that is sent, it is one request.
        have hle : [req].countP Request.isPoll ≤ 1 := List.countP_le_length
        split
        · rw [List.countP_append]
          omega
        · omega
      · simp only [State.deliver_ne s req hqp, hzero q, Nat.zero_le]
    · by_cases hqp : q = p
      · subst hqp
        simp only [State.deliver_self, Server.receive, Server.Polled] at hq
        -- The poll that is there now can only be what has just arrived.
        have hreq : req = .isDone ph := by
          rcases hq with hmem | hb
          · split at hmem
            · rcases List.mem_append.mp hmem with hmem | hmem
              · exact absurd (.inl hmem) (hnone q ph)
              · exact (List.mem_singleton.mp hmem).symm
            · exact absurd (.inl hmem) (hnone q ph)
          · exact absurd (.inr hb) (hnone q ph)
        subst hreq
        generalize hr : Request.isDone ph = req at hsend
        cases hsend with
        | dispatch _ _ => cases hr
        | resend _ _ => cases hr
        | noFuture _ _ => cases hr
        | poll _ =>
          obtain rfl := Request.isDone.inj hr
          exact ⟨w, rfl, hp⟩
        | stop _ _ => cases hr
      · simp only [State.deliver_ne s req hqp] at hq
        exact absurd hq (hnone q ph)

theorem polls_of_reaches {ok : State → Label → Prop}
    (h : Transition.Reaches (step job) ok (.init d) s) : Polls s := by
  induction h with
  | refl => exact polls_init d
  | tail hr _ hstep ih =>
    exact ih.step (control_of_reaches hr) (topology_of_reaches hr) (step_cases hstep)

/-! ### Deaths the master can bear

Two moments are dangerous. Between the test of a connection and the answer the master counts on
the process it has found up, and between a fork and the connection on the one it has forked. A
death at any other time is seen at the next test, provided the connection is reported as gone by
then. -/

/-- The worker the master has found up and asks, before it is answered. -/
def Ctrl.asks : Ctrl → Option ℕ
  | poll _ w | await _ w => some w
  | _ => none

theorem Ctrl.not_stopping_of_asks {c : Ctrl} (h : c.asks = some w) : c.stopping = false := by
  cases c <;> first | rfl | cases h

/-- The master counts on a process: no client leads to it yet, or the master has found it up and
has not been answered. An answer that is under way can no longer be lost. -/
def Awaited (s : State) (p : ℕ) : Prop :=
  s.linked (s.servers p).worker ≠ some p ∨
    s.ctrl.asks = some (s.servers p).worker ∧ (s.servers p).reply = none

/-- No step ends a process the master counts on, and a connection whose process has ended is
found to be gone before the master tests it. -/
structure Timely (s : State) (l : Label) : Prop where
  /-- What ends here is not counted on. -/
  bearable : ∀ p, (s.servers p).alive = true → Fatal s l p → ¬ Awaited s p
  /-- What the test of a connection says is true of the process. -/
  noticed : l = .master → ∀ ph w p, s.ctrl = .check ph w → (s.phases ph).taskStatus[w]? ≠ some 1 →
    s.clientPool[w]? = some (.connected p) → (s.servers p).alive = true

/-- A process the master counts on lives on. -/
theorem Step.awaited_stays (hs : Step job s l s') (hi : Orderly job s)
    (hdel : ∀ p, ∀ req ∈ (s.servers p).inbox, req ∈ (s.servers p).sent) (ht : Timely s l)
    (hp : (s.servers p).alive = true) (hawaited : Awaited s p) :
    (s'.servers p).alive = true ∧ (s'.servers p).worker = (s.servers p).worker := by
  refine ⟨?_, ?_⟩
  · rcases hs.dies hp with hlive | hstop | hfatal
    · exact hlive
    · -- Nothing is sent to a process that no client leads to, and no stop during a poll.
      have hsent := hdel p _ hstop
      have hstopping := hi.accounting.stops p hsent
      rcases hawaited with hlink | ⟨hasks, -⟩
      · rw [hi.topology.unlinked p hp hlink] at hsent
        cases hsent
      · rw [Ctrl.not_stopping_of_asks hasks] at hstopping
        cases hstopping
    · exact absurd hawaited (ht.bearable p hp hfatal)
  · rcases hs.server p with he | hmove | ⟨rfl, -⟩
    · rw [he]
    · exact hmove.worker
    · exact absurd (hi.topology.lt_of_alive hp) (Nat.lt_irrefl _)

/-! ### What the master waits for

`Awake` is a chain through the restart of a worker: a fork leaves a live process without a
client, the client is connected to it, the master finds it up, asks, and is answered. In each
link the process at issue is one the master counts on, and so it lives. -/

/-- The worker a call of the master goes to. -/
def Ctrl.calls : Ctrl → Option ℕ
  | dispatch _ w | resend _ w | poll _ w | stop w => some w
  | _ => none

/-- The number of workers that have been forked in the first place. -/
def Ctrl.forked (n : ℕ) : Ctrl → ℕ
  | fork i => i
  | _ => n

theorem Ctrl.all_of_calls {c : Ctrl} (h : c.calls = some w) (n : ℕ) :
    c.clients n = n ∧ c.forked n = n := by
  cases c <;> first | exact ⟨rfl, rfl⟩ | cases h

/-- No client leads to a live process of the worker, or the one there is is replaced next. -/
def Unconnected (s : State) (w : ℕ) : Prop :=
  s.linked w = none ∨ ∃ ph, s.ctrl = .reconnect ph w

/-- A live process of the worker waits for its client. -/
def Attending (s : State) (w : ℕ) : Prop :=
  ∃ p, (s.servers p).alive = true ∧ (s.servers p).worker = w ∧ s.linked w ≠ some p

/-- What the master waits for can still happen. -/
structure Awake (job : Job) (s : State) : Prop where
  /-- The master waits for a poll that is in flight. -/
  answer : ∀ ph w, s.ctrl = .await ph w →
    ∃ p, s.linked w = some p ∧ (s.servers p).Polled ph
  /-- It asks a process that is alive. -/
  polled : ∀ ph w, s.ctrl = .poll ph w → ∃ p, s.linked w = some p ∧ (s.servers p).alive = true
  /-- A worker without a connection has a process that waits for it. -/
  unconnected : ∀ w < job.nrMapper, w < s.ctrl.forked job.nrMapper → Unconnected s w →
    Attending s w

theorem awake_init (d : Disk) : Awake job (.init d) where
  answer := by intro ph w h; cases h
  polled := by intro ph w h; cases h
  unconnected := fun w _ hw => absurd hw (Nat.not_lt_zero w)

/-- A poll in flight stays in flight, or is answered, while the process lives. It is lost only
with a process that has not answered. -/
theorem Step.polled_stays (hs : Step job s l s') (hl : l ≠ .master)
    (hone : ∀ ph', (s.servers p).Polled ph' → ph' = ph) (hp : (s.servers p).Polled ph) :
    (s'.servers p).Polled ph ∨
      (s'.servers p).alive = false ∧ (s.servers p).reply = none := by
  have hset : ∀ {pid : ℕ} {v : Server},
      (p = pid → v.Polled ph ∨ v.alive = false ∧ (s.servers p).reply = none) →
      ((s.setServer pid v).servers p).Polled ph ∨
        ((s.setServer pid v).servers p).alive = false ∧ (s.servers p).reply = none :=
    fun hv => State.forall_setServer
      (P := fun q v => p = q → v.Polled ph ∨ v.alive = false ∧ (s.servers p).reply = none) hv
      (fun _ hq => hq ▸ .inl hp) p rfl
  -- An answer that has been given survives the end of the process.
  have hend : (s.servers p).terminate.Polled ph ∨
      (s.servers p).terminate.alive = false ∧ (s.servers p).reply = none := by
    cases hr : (s.servers p).reply with
    | none => exact .inr ⟨rfl, rfl⟩
    | some answer =>
      rcases hp with hmem | ⟨b, hb⟩
      · have hph := hone answer.1 (.inr ⟨answer.2, hr⟩)
        exact .inl (.inr ⟨answer.2, by rw [Server.terminate, hr, ← hph]⟩)
      · exact .inl (.inr ⟨b, hb⟩)
  cases hs with
  | @start pid k t _ hk =>
    refine hset fun hq => ?_
    subst hq
    refine .inl (hp.imp (fun hmem => ?_) id)
    -- A task that is taken up is not the poll.
    obtain ⟨j, hj⟩ := List.mem_iff_getElem?.mp hmem
    refine List.mem_eraseIdx_iff_getElem?.mpr ⟨j, ?_, hj⟩
    rintro rfl
    rw [hk] at hj
    cases hj
  | @reply pid k ph' _ hk =>
    refine hset fun hq => ?_
    subst hq
    have hph := hone ph' (.inl (List.mem_of_getElem? hk))
    subst hph
    exact .inl (.inr ⟨_, rfl⟩)
  | exit _ _ => exact hset fun hq => hq ▸ hend
  | op _ _ => exact hset fun hq => hq ▸ .inl hp
  | finish _ _ _ => exact hset fun hq => hq ▸ .inl hp
  | fault _ _ _ => exact hset fun hq => hq ▸ hend
  | kill _ => exact hset fun hq => hq ▸ hend
  | connect _ _ _ => exact .inl hp
  | disconnect _ _ => exact .inl hp
  | _ => exact absurd rfl hl

/-- The master comes to wait for an answer by the call that asks for it. -/
theorem Step.to_await (hs : Step job s l s') (hc : s'.ctrl = .await ph w) :
    s.ctrl = .await ph w ∧ l ≠ .master ∨
      s.ctrl = .poll ph w ∧ ∃ p, s.linked w = some p ∧
        s' = (s.deliver p (.isDone ph)).goto s'.ctrl := by
  cases hs with
  | goto hg => cases hg <;> cases hc
  | fork _ _ => cases hc
  | refork _ => cases hc
  | client _ _ => cases hc
  | reclient _ _ => cases hc
  | send hsend hp =>
    cases hsend with
    | poll hpoll =>
      obtain ⟨rfl, rfl⟩ := Ctrl.await.inj hc
      exact .inr ⟨hpoll, _, hp, rfl⟩
    | _ => cases hc
  | status _ _ => cases hc
  | answer _ _ _ => cases hc
  | _ => exact .inl ⟨hc, fun h => (by cases h)⟩

/-- The master comes to ask a worker by finding its connection up. -/
theorem Step.to_poll (hs : Step job s l s') (hc : s'.ctrl = .poll ph w) :
    s.ctrl = .poll ph w ∧ l ≠ .master ∨
      s.ctrl = .check ph w ∧ l = .master ∧ s' = s.goto s'.ctrl ∧
        (s.phases ph).taskStatus[w]? ≠ some 1 ∧
        ∃ client, s.clientPool[w]? = some client ∧ ∀ pid, client ≠ .disconnected pid := by
  cases hs with
  | goto hg =>
    cases hg with
    | up hcheck _ hst hne hcl hup =>
      obtain ⟨rfl, rfl⟩ := Ctrl.poll.inj hc
      refine .inr ⟨hcheck, rfl, rfl, fun hone => hne ?_, _, hcl, hup⟩
      exact Option.some.inj (hst.symm.trans hone)
    | _ => cases hc
  | fork _ _ => cases hc
  | refork _ => cases hc
  | client _ _ => cases hc
  | reclient _ _ => cases hc
  | send hsend _ => cases hsend <;> cases hc
  | status _ _ => cases hc
  | answer _ _ _ => cases hc
  | _ => exact .inl ⟨hc, fun h => (by cases h)⟩

/-- Moving on leads to no fork, and away from the first loop only when all workers have been
forked. -/
theorem Goto.all_forked (hg : Goto job s c) :
    job.nrMapper ≤ s.ctrl.forked job.nrMapper ∧ ∀ ph w, c ≠ .reconnect ph w := by
  cases hg with
  | forked hc hi => exact ⟨by rw [hc]; exact hi, fun _ _ h => (by cases h)⟩
  | noClient hc _ =>
    refine ⟨?_, fun _ _ h => (by cases h)⟩
    obtain ⟨ph, hc⟩ := hc
    rcases hc with ⟨hc, -⟩ | ⟨hc, -⟩ | hc | hc | hc | ⟨hc, -⟩ <;> rw [hc] <;> exact le_rfl
  | _ => exact ⟨by simp_all [Ctrl.forked], fun _ _ h => (by cases h)⟩

theorem Sends.all_forked {req : Request} {phases : Phase → PhaseState}
    (h : Sends job s p w req phases c) :
    s.ctrl.forked job.nrMapper = job.nrMapper ∧ ∀ ph w, c ≠ .reconnect ph w := by
  cases h with
  | dispatch hc _ => exact ⟨by rw [hc]; rfl, fun _ _ h => (by cases h)⟩
  | resend hc _ => exact ⟨by rw [hc]; rfl, fun _ _ h => (by cases h)⟩
  | noFuture hc _ => exact ⟨by rw [hc]; rfl, fun _ _ h => (by cases h)⟩
  | poll hc => exact ⟨by rw [hc]; rfl, fun _ _ h => (by cases h)⟩
  | stop hc _ => exact ⟨by rw [hc]; rfl, fun _ _ h => (by cases h)⟩

/-- A worker comes to have no client by a fork. All other steps leave it without one only if it
had none before. -/
theorem Step.unconnected (hs : Step job s l s') (ht : Topology job s) (hlt : w < job.nrMapper)
    (hw : w < s'.ctrl.forked job.nrMapper) (h : Unconnected s' w) :
    (w < s.ctrl.forked job.nrMapper ∧ Unconnected s w ∧
        ∀ p, s'.linked w = some p → s.linked w = some p) ∨
      ∃ c, s' = (s.spawn w).goto c := by
  -- Where no client is replaced and no worker is forked, nothing changes.
  have hcalm : s'.linked w = s.linked w →
      (∀ ph, s'.ctrl = .reconnect ph w → s.ctrl = .reconnect ph w) →
      w < s.ctrl.forked job.nrMapper →
      (w < s.ctrl.forked job.nrMapper ∧ Unconnected s w ∧
        ∀ p, s'.linked w = some p → s.linked w = some p) ∨ ∃ c, s' = (s.spawn w).goto c := by
    intro hsame hre hf
    refine .inl ⟨hf, ?_, fun p hp => hsame ▸ hp⟩
    rcases h with hnone | ⟨ph, hc⟩
    · exact .inl (hsame.symm.trans hnone)
    · exact .inr ⟨ph, hre ph hc⟩
  cases hs with
  | goto hg =>
    obtain ⟨hf, hre⟩ := hg.all_forked
    exact hcalm rfl (fun ph hc => absurd hc (hre ph w)) (hlt.trans_le hf)
  | @fork i hc _ =>
    rcases Nat.lt_succ_iff_lt_or_eq.mp hw with hw' | rfl
    · exact hcalm rfl (fun ph hc' => by cases hc') (by rw [hc]; exact hw')
    · exact .inr ⟨_, rfl⟩
  | @refork ph w' hc =>
    by_cases he : w = w'
    · exact .inr ⟨_, by rw [he]⟩
    · refine hcalm rfl (fun ph' hc' => ?_) (by rw [hc]; exact hlt)
      exact absurd (Ctrl.reconnect.inj hc').2.symm he
  | client hc _ =>
    exact hcalm (State.linked_append w) (fun ph hc' => by cases hc') (by rw [hc]; exact hlt)
  | @reclient ph w' hc hw' =>
    by_cases he : w = w'
    · subst he
      refine .inl ⟨by rw [hc]; exact hlt, .inr ⟨ph, hc⟩, fun p hp => ?_⟩
      rw [State.linked_set hw', if_pos rfl] at hp
      cases hp
    · refine hcalm ?_ (fun ph' hc' => by cases hc') (by rw [hc]; exact hlt)
      rw [State.linked_set hw', if_neg he]
  | send hsend _ =>
    obtain ⟨hf, hre⟩ := hsend.all_forked
    exact hcalm rfl (fun ph hc => absurd hc (hre ph w)) (by rw [hf]; exact hlt)
  | status hc _ => exact hcalm rfl (fun ph hc' => by cases hc') (by rw [hc]; exact hlt)
  | @answer ph w' pid status hc _ _ =>
    exact hcalm (by cases status <;> rfl) (fun ph hc' => by cases hc') (by rw [hc]; exact hlt)
  | @connect w' pid hw' _ _ =>
    have hset := @State.linked_set s w' (.connected pid) s.ctrl (List.getElem?_eq_some_iff.mp hw').1 w
    by_cases he : w = w'
    · -- A client that is being made is not one that is found to be gone.
      subst he
      rw [if_pos rfl] at hset
      rcases h with hnone | ⟨ph, hc⟩
      · rw [hset] at hnone
        cases hnone
      · obtain ⟨p, hp⟩ := ht.down ph w (.inr hc)
        rw [hw'] at hp
        cases hp
    · rw [if_neg he] at hset
      exact hcalm hset (fun _ hc => hc) hw
  | disconnect hw' _ => exact hcalm (State.linked_disconnect hw' w) (fun _ hc => hc) hw
  | _ => exact hcalm rfl (fun _ hc => hc) hw

/-- A timely step leaves the master something to wait for. -/
theorem Awake.step (h : Awake job s) (hi : Orderly job s) (hpolls : Polls s)
    (hdel : ∀ p, ∀ req ∈ (s.servers p).inbox, req ∈ (s.servers p).sent) (hs : Step job s l s')
    (ht : Timely s l) : Awake job s' := by
  refine ⟨fun ph w hc => ?_, fun ph w hc => ?_, fun w hlt hw hun => ?_⟩
  · rcases hs.to_await hc with ⟨hold, hl⟩ | ⟨hpoll, p, hp, hs'⟩
    · obtain ⟨p, hp, hin⟩ := h.answer ph w hold
      have hlink : s'.linked w = some p := hs.linked_stays (fun he => absurd he hl) hp
      refine ⟨p, hlink, ?_⟩
      -- Polls of both phases cannot be in flight at once.
      have hone : ∀ ph', (s.servers p).Polled ph' → ph' = ph := by
        intro ph' hin'
        obtain ⟨w', hc', -⟩ := hpolls.awaited p ph' hin'
        exact (Ctrl.await.inj (hc'.symm.trans hold)).1
      rcases hs.polled_stays hl hone hin with hin' | ⟨hdead, hnone⟩
      · exact hin'
      · -- The request still waits, so the process lives, and it has not answered.
        have hlive : (s.servers p).alive = true := by
          by_contra hne
          have hempty := ((hi.coherent p).dead (Bool.eq_false_iff.mpr hne)).1
          rcases hin with hmem | ⟨b, hb⟩
          · rw [hempty] at hmem
            cases hmem
          · rw [hnone] at hb
            cases hb
        have hawaited : Awaited s p :=
          .inr ⟨by rw [(hi.topology.linked w p hp).2, hold]; rfl, hnone⟩
        have hstays := (hs.awaited_stays hi hdel ht hlive hawaited).1
        rw [hdead] at hstays
        cases hstays
    · -- The call has just been made, to a process that was alive.
      obtain ⟨p', hp', hlive⟩ := h.polled ph w hpoll
      rw [hp] at hp'
      obtain rfl := Option.some.inj hp'
      refine ⟨p, by rw [hs']; exact hp, .inl ?_⟩
      rw [hs', State.goto, State.deliver_self, Server.receive]
      simp only [hlive, if_true, List.mem_append, List.mem_singleton, or_true]
  · rcases hs.to_poll hc with ⟨hold, hl⟩ | ⟨hcheck, hl, hs', hst, client, hcl, hup⟩
    · obtain ⟨p, hp, hlive⟩ := h.polled ph w hold
      -- No answer is on its way before the question.
      have hnone : (s.servers p).reply = none := by
        cases hr : (s.servers p).reply with
        | none => rfl
        | some answer =>
          obtain ⟨w', hc', -⟩ := hpolls.awaited p answer.1 (.inr ⟨answer.2, hr⟩)
          cases hold.symm.trans hc'
      have hawaited : Awaited s p :=
        .inr ⟨by rw [(hi.topology.linked w p hp).2, hold]; rfl, hnone⟩
      exact ⟨p, hs.linked_stays (fun he => absurd he hl) hp,
        (hs.awaited_stays hi hdel ht hlive hawaited).1⟩
    · -- The test has just found the client up, and that is told from a death in time.
      cases client with
      | initial =>
        have hdue := hi.topology.initial w hcl
        rw [hcheck] at hdue
        cases hdue
      | connected p =>
        refine ⟨p, by rw [hs']; exact State.linked_of_client hcl, ?_⟩
        rw [hs']
        exact ht.noticed hl ph w p hcheck hst hcl
      | disconnected p => exact absurd rfl (hup p)
  · rcases hs.unconnected hi.topology hlt hw hun with ⟨hw', hun', hlink⟩ | ⟨c, rfl⟩
    -- The process waited before the step, and the master counts on it.
    · obtain ⟨p, hlive, hworker, hne⟩ := h.unconnected w hlt hw' hun'
      have hawaited : Awaited s p := .inl (by rw [hworker]; exact hne)
      obtain ⟨hlive', hworker'⟩ := hs.awaited_stays hi hdel ht hlive hawaited
      exact ⟨p, hlive', hworker'.trans hworker, fun hp => hne (hlink p hp)⟩
    · -- The worker without a client to a live process has just been forked.
      refine ⟨s.spawned, ?_, ?_, fun hp => ?_⟩
      · rw [State.goto, State.spawn_self]
        rfl
      · rw [State.goto, State.spawn_self]
        rfl
      · exact absurd (hi.topology.linked w _ hp).1 (Nat.lt_irrefl _)

/-- In a timely run the master never waits for nothing. -/
theorem awake_of_reaches (h : Transition.Reaches (step job) Timely (.init d) s) : Awake job s := by
  induction h with
  | refl => exact awake_init d
  | tail hr ht hstep ih =>
    exact ih.step (orderly_of_reaches hr) (polls_of_reaches hr) (delivered_of_reaches hr)
      (step_cases hstep) ht

/-- Wherever the master blocks, what it waits for can still happen: the process it asks is
alive and has the request, or the answer is on its way, and a live process waits for the
connection of a new client. -/
structure WakeUp (s : State) : Prop where
  answer : ∀ ph w, s.ctrl = .await ph w → ∃ p, s.linked w = some p ∧
    ((s.servers p).alive = true ∧ .isDone ph ∈ (s.servers p).inbox ∨
      ∃ b, (s.servers p).reply = some (ph, b))
  connection : ∀ w, s.ctrl.calls = some w → s.clientPool[w]? = some .initial →
    ∃ p, (s.servers p).alive = true ∧ (s.servers p).worker = w

/-- **No wake-up is lost while the deaths are timely.** In every run in which no process ends
that the master has not connected to yet or has found up and not been answered by, and in
which a connection whose process has ended is found to be gone before the master tests it,
the master never waits for what cannot happen. -/
theorem no_lost_wakeup (h : Transition.Reaches (step job) Timely (.init d) s) : WakeUp s := by
  have hawake := awake_of_reaches h
  have hi := orderly_of_reaches h
  refine ⟨fun ph w hc => ?_, fun w hcalls hcl => ?_⟩
  · obtain ⟨p, hp, hin | hreply⟩ := hawake.answer ph w hc
    · refine ⟨p, hp, .inl ⟨?_, hin⟩⟩
      by_contra hne
      rw [((hi.coherent p).dead (Bool.eq_false_iff.mpr hne)).1] at hin
      cases hin
    · exact ⟨p, hp, .inr hreply⟩
  · have hall := Ctrl.all_of_calls hcalls job.nrMapper
    have hlt : w < job.nrMapper := by
      rw [← hall.1, ← hi.control.pool]
      exact (List.getElem?_eq_some_iff.mp hcl).1
    obtain ⟨p, hlive, hworker, -⟩ := hawake.unconnected w hlt (by rw [hall.2]; exact hlt)
      (.inl (State.linked_of_client hcl))
    exact ⟨p, hlive, hworker⟩

/-! ### One kill too many

The other half: the first of the two moments is enough to lose a wake-up, with a single kill.
Nothing that happens later brings the master out of the call, since there is no timeout to do
it. -/

/-- The process that a step kills or that an exception ends. -/
def fatal? (s : State) : Label → Option ℕ
  | .kill p => some p
  | .file p k =>
    (s.servers p).running[k]?.bind fun e =>
      match e.prog with
      | .done res => if res.outcome.toOption.isNone then some p else none
      | _ => none
  | _ => none

theorem fatal?_of_fatal (h : Fatal s l p) : fatal? s l = some p := by
  rcases h with rfl | ⟨k, e, res, fault, rfl, hk, hprog, hres⟩
  · rfl
  · rw [fatal?, hk, Option.bind_some, hprog]
    simp only [hres]
    rfl

instance (s : State) (p : ℕ) : Decidable (Awaited s p) := inferInstanceAs (Decidable (_ ∨ _))

/-- `Timely` as a test. -/
def timely (s : State) (l : Label) : Bool :=
  (fatal? s l).all (fun p => !decide (Awaited s p)) &&
    match l, s.ctrl with
    | .master, .check ph w =>
      match s.clientPool[w]? with
      | some (.connected p) => (s.phases ph).taskStatus[w]? = some 1 || (s.servers p).alive
      | _ => true
    | _, _ => true

/-- A step that passes the test is timely. -/
theorem timely_of_test (h : timely s l = true) : Timely s l := by
  unfold timely at h
  obtain ⟨hfatal, hcheck⟩ := Bool.and_eq_true_iff.mp h
  refine ⟨fun p _ hp => ?_, ?_⟩
  · rw [fatal?_of_fatal hp] at hfatal
    simpa using hfatal
  · rintro rfl ph w p hc hst hcl
    simp only [hc, hcl, hst, decide_false, Bool.false_or] at hcheck
    exact hcheck

/-- The process the master waits for has ended without an answer. It has no work left that could
still lead to one. -/
structure Lost (s : State) (ph : Phase) (w p : ℕ) : Prop where
  place : s.ctrl = .await ph w
  link : s.linked w = some p
  dead : (s.servers p).alive = false ∧ (s.servers p).inbox = [] ∧ (s.servers p).running = []
  unanswered : (s.servers p).reply = none

/-- Nothing wakes a master that waits for a process that has ended. -/
theorem Lost.step (h : Lost s ph w p) (hi : Orderly job s) (hs : Step job s l s') :
    Lost s' ph w p := by
  obtain ⟨hc, hlink, ⟨hdead, hinbox, hrunning⟩, hnone⟩ := h
  have hlink' : s'.linked w = some p := by
    refine hs.linked_stays (fun _ ph' hc' => ?_) hlink
    rw [hc] at hc'
    cases hc'
  have hc' : s'.ctrl = .await ph w := by
    rcases hs.await hi.control hc with hsame | ⟨p', b, hp', hr, -⟩
    · exact hsame
    · rw [hlink] at hp'
      obtain rfl := Option.some.inj hp'
      rw [hnone] at hr
      cases hr
  have hserver : ((s'.servers p).alive = false ∧ (s'.servers p).inbox = [] ∧
      (s'.servers p).running = []) ∧ (s'.servers p).reply = none := by
    rcases hs.server p with he | hmove | ⟨rfl, -⟩
    · rw [he]
      exact ⟨⟨hdead, hinbox, hrunning⟩, hnone⟩
    · revert hmove
      generalize s'.servers p = v'
      intro hmove
      cases hmove with
      | receive req =>
        refine ⟨⟨hdead, ?_, hrunning⟩, hnone⟩
        rw [Server.receive, hdead]
        exact hinbox
      | taken => exact ⟨⟨hdead, hinbox, hrunning⟩, rfl⟩
      | terminate => exact ⟨⟨rfl, rfl, rfl⟩, hnone⟩
      | start hk => simp [hinbox] at hk
      | reply hk => simp [hinbox] at hk
      | op hk => simp [hrunning] at hk
      | finish hk => simp [hrunning] at hk
    · exact absurd (hi.topology.linked w _ hlink).1 (Nat.lt_irrefl _)
  exact ⟨hc', hlink', hserver.1, hserver.2⟩

/-- So it waits to the end of every run. -/
theorem Lost.forever (h : Lost s ph w p)
    (hr : Transition.Reaches (MapReduceCpp.step job) (fun _ _ => True) (.init d) s)
    (hs : Transition.Reaches (MapReduceCpp.step job) (fun _ _ => True) s s') : Lost s' ph w p := by
  induction hs with
  | refl => exact h
  | tail hrun _ hstep ih => exact ih.step (orderly_of_reaches (hr.trans hrun)) (step_cases hstep)

/-- A process that is killed before the master asks about its worker costs no wake-up. -/
theorem no_lost_wakeup_lineNumbers :
    ∃ s, Transition.run (Transition.guarded timely (step Job.lineNumbers)) barrierRun
        (.init (Job.sampleDisk Job.sampleLines)) = some s ∧ s.spawned = 3 ∧ WakeUp s := by
  have hrun : (Transition.run (Transition.guarded timely (step Job.lineNumbers)) barrierRun
      (.init (Job.sampleDisk Job.sampleLines))).map State.spawned = some 3 := by decide +kernel
  obtain ⟨s, hs, hspawned⟩ := Option.map_eq_some_iff.mp hrun
  exact ⟨s, hs, hspawned,
    no_lost_wakeup (Transition.reaches_of_tested (fun _ _ => timely_of_test) hs)⟩

/-- A single worker is killed after the master has asked it about its task. -/
def lostRun : List Label :=
  [List.replicate 4 .master, [.connect 0 0], List.replicate 4 .master, [.kill 0]].flatten

/-- The master waits for its answer forever. -/
theorem kill_loses_wakeUp :
    (¬ ∀ s, Transition.Reaches (step Job.oneWorker) (fun _ _ => True)
      (.init (Job.sampleDisk [])) s → WakeUp s) ∧
    ∃ s, Transition.run (step Job.oneWorker) lostRun (.init (Job.sampleDisk [])) = some s ∧
      ∀ s', Transition.Reaches (step Job.oneWorker) (fun _ _ => True) s s' →
        s'.ctrl = .await .map 0 ∧ (s'.servers 0).alive = false := by
  have hrun : (Transition.run (step Job.oneWorker) lostRun (.init (Job.sampleDisk []))).map
      (fun s => (s.ctrl, s.linked 0, (s.servers 0).alive, (s.servers 0).inbox.length,
        (s.servers 0).running.length, (s.servers 0).reply.isNone)) =
      some (.await .map 0, some 0, false, 0, 0, true) := by decide +kernel
  obtain ⟨s, hs, heq⟩ := Option.map_eq_some_iff.mp hrun
  simp only [Prod.mk.injEq] at heq
  obtain ⟨hc, hlink, hdead, hinbox, hlen, hnone⟩ := heq
  have hreach := Transition.reaches_of_run hs
  refine ⟨fun hall => ?_, s, hs, fun s' hs' => ?_⟩
  · obtain ⟨p, hp, hin⟩ := (hall s hreach).answer .map 0 hc
    rw [hlink] at hp
    obtain rfl := Option.some.inj hp
    rcases hin with ⟨hlive, -⟩ | ⟨b, hb⟩
    · rw [hdead] at hlive
      cases hlive
    · rw [hb] at hnone
      cases hnone
  · have hlost : Lost s .map 0 0 :=
      ⟨hc, hlink, ⟨hdead, List.eq_nil_of_length_eq_zero hinbox,
        List.eq_nil_of_length_eq_zero hlen⟩, Option.isNone_iff_eq_none.mp hnone⟩
    have hlost' := hlost.forever hreach hs'
    exact ⟨hlost'.place, hlost'.dead.1⟩

end MapReduceCpp
