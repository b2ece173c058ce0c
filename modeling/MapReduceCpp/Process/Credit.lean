import MapReduceCpp.Process.Accounting
import MapReduceCpp.Reference

/-!
# MapReduceCpp.Process.Credit

What an entry of a status vector stands for.

A task is quiet when no live process still has to do it: everything live processes
have been sent of it has returned. `Credit` says that an entry is set to 1 only for
a quiet task that has returned in a process of its worker, and that a task that has
returned in the process behind its client is quiet as well, whether the master knows
or not and whether that process still lives or not. The second half is what makes
the first one inductive: the master credits whichever process is behind the client.
-/

namespace MapReduceCpp

variable {job : Job} {s s' : State} {l : Label} {c : Ctrl} {ph : Phase} {w p q : ℕ} {t : Task}

/-- What holds in every state of every run before anything is credited, in the order in which it
was shown. -/
structure Orderly (job : Job) (s : State) : Prop where
  control : Control job s
  topology : Topology job s
  accounting : Accounting s
  coherent : ∀ q, (s.servers q).Coherent

theorem orderly_of_reaches {ok : State → Label → Prop} {d : Disk}
    (h : Transition.Reaches (step job) ok (.init d) s) : Orderly job s :=
  ⟨control_of_reaches h, topology_of_reaches h, accounting_of_reaches h, coherent_of_reaches h⟩

/-- No live process still has to do the task. A dead one may have been sent it and never finish. -/
def Quiet (s : State) (t : Task) : Prop :=
  ∀ q, (s.servers q).alive = true → (s.servers q).requested t = (s.servers q).returns t

/-- The status vectors and the returned calls agree. -/
structure Credit (s : State) : Prop where
  /-- An entry that is 1 is that of a task which nobody still has to do and some process of the
  worker has done. -/
  status : ∀ (ph : Phase) (w : ℕ), (s.phases ph).taskStatus[w]? = some 1 →
    Quiet s ⟨ph, w⟩ ∧ ∃ p, (s.servers p).worker = w ∧ 0 < (s.servers p).returns ⟨ph, w⟩
  /-- The same of a task that has returned behind its client, before the master knows. -/
  linked : ∀ ph w p, s.linked w = some p → 0 < (s.servers p).returns ⟨ph, w⟩ → Quiet s ⟨ph, w⟩

theorem credit_init (d : Disk) : Credit (.init d) where
  status := by intro ph w h; cases h
  linked := by intro ph w p h; cases h

/-! ### Quiet tasks

A task is made quiet by returning in the one live process it was sent to, and disturbed only by
being sent again. That the master does not send again what is quiet is the point of the next
part. -/

theorem Quiet.waiting (h : Quiet s t) (hcoh : (s.servers q).Coherent)
    (hq : (s.servers q).alive = true) : (s.servers q).waiting t = 0 := by
  have hcons := hcoh.conserved hq t
  have heq := h q hq
  omega

theorem Quiet.inProgress (h : Quiet s t) (hcoh : (s.servers q).Coherent)
    (hq : (s.servers q).alive = true) : (s.servers q).inProgress t = 0 := by
  have hcons := hcoh.conserved hq t
  have heq := h q hq
  omega

theorem Move.returns_le {v v' : Server} (h : Move job v v') (t : Task) :
    v.returns t ≤ v'.returns t := by
  cases h with
  | finish _ => simp [Server.returns, List.count_append]
  | _ => exact le_rfl

theorem Move.returns_of_dead {v v' : Server} (h : Move job v v') (hv : v.Coherent)
    (hdead : v'.alive = false) (t : Task) : v'.returns t = v.returns t := by
  cases h with
  | finish hk =>
    rw [(hv.dead hdead).2] at hk
    cases hk
  | _ => rfl

theorem Step.returns_le (ht : Topology job s) (h : Step job s l s') (q : ℕ) (t : Task) :
    (s.servers q).returns t ≤ (s'.servers q).returns t := by
  rcases h.server q with he | hmove | ⟨rfl, -⟩
  · rw [he]
  · exact hmove.returns_le t
  · rw [ht.unspawned _ le_rfl]
    exact Nat.zero_le _

/-- A quiet task stays quiet until it is sent again: requests and returns of a live process can
come apart in no other way. -/
theorem Quiet.step (h : Quiet s t) (hs : Step job s l s') (hi : Orderly job s)
    (hi' : Orderly job s') :
    Quiet s' t ∨ ∃ p w phases c, Sends job s p w (.task t) phases c ∧ s.linked w = some p := by
  have hcase : (∀ q, (s'.servers q).requested t = (s.servers q).requested t) ∨
      ∃ p w phases c, Sends job s p w (.task t) phases c ∧ s.linked w = some p := by
    rcases hs.sent hi.topology with hsent | ⟨p, w, req, phases, c, hsend, hp, rfl⟩
    · exact .inl fun q => Server.requested_of_sent (hsent q) t
    · by_cases hreq : req = .task t
      · subst hreq
        exact .inr ⟨p, w, phases, c, hsend, hp⟩
      · left
        intro q
        by_cases hq : q = p
        · subst hq
          simp [hreq]
        · simp only [State.deliver_ne s req hq]
  rcases hcase with hreq | hsend
  · -- A live process balances its requests, and one that dies no longer counts.
    left
    intro q hq
    have hle' := (hi'.coherent q).returns_le t
    have hle := hs.returns_le hi.topology q t
    rcases hs.server q with he | hmove | ⟨-, w, hfresh⟩
    · rw [he] at hq ⊢
      exact h q hq
    · have heq := h q (hmove.alive hq)
      have hsame := hreq q
      omega
    · rw [hfresh]
      rfl
  · exact .inr hsend

/-- A task sent to a process belongs to its worker, and is of the current phase or of
the one before. -/
theorem Orderly.requested (h : Orderly job s) (ht : 0 < (s.servers q).requested t) :
    t.id = (s.servers q).worker ∧
    (t.phase = s.ctrl.phase ∨ t.phase = .map ∧ s.ctrl.phase = .reduce) := by
  refine ⟨h.accounting.ids q t ht, ?_⟩
  obtain ⟨ph, idx⟩ := t
  cases ph with
  | map => cases hph : s.ctrl.phase <;> simp
  | reduce => exact .inl (h.accounting.early q idx ht).symm

/-- The live process of a worker is the one behind its client. -/
theorem Orderly.linked_of_requested (h : Orderly job s) (hq : (s.servers q).alive = true)
    (ht : 0 < (s.servers q).requested t) : s.linked (s.servers q).worker = some q := by
  by_contra hne
  rw [Server.requested, h.topology.unlinked q hq hne] at ht
  cases ht

/-- In the reduce phase the map tasks are quiet: all entries were 1 when the map phase was left.
A task that belongs to no worker was never sent. -/
theorem Orderly.quiet_of_reduce (hi : Orderly job s)
    (hstatus : ∀ w : ℕ, (s.phases .map).taskStatus[w]? = some 1 → Quiet s ⟨.map, w⟩)
    (hphase : s.ctrl.phase = .reduce) (w : ℕ) : Quiet s ⟨.map, w⟩ := by
  by_cases hw : w < job.nrMapper
  · have hfin : s.ctrl.finished .map = true := by simp [Ctrl.finished, hphase]
    exact hstatus w (hi.control.finished .map hfin w hw)
  · intro q hq
    have hzero : (s.servers q).requested ⟨.map, w⟩ = 0 := by
      by_contra hne
      have hid := (hi.requested (Nat.pos_of_ne_zero hne)).1
      have hlt := hi.topology.worker_lt q (hi.topology.lt_of_alive hq)
      exact hw (by rw [show w = _ from hid]; exact hlt)
    have hle := (hi.coherent q).returns_le ⟨.map, w⟩
    omega

/-- What has returned in a live process is quiet. It was sent there once, and there is no other
live process of that worker that could have been sent it. -/
theorem Orderly.quiet_of_returns (h : Orderly job s)
    (hmap : s.ctrl.phase = .reduce → ∀ w, Quiet s ⟨.map, w⟩)
    (hp : (s.servers p).alive = true) (hret : 0 < (s.servers p).returns t) : Quiet s t := by
  have hreq : 0 < (s.servers p).requested t :=
    Nat.lt_of_lt_of_le hret ((h.coherent p).returns_le t)
  obtain ⟨hid, hphase⟩ := h.requested hreq
  have hlink := h.linked_of_requested hp hreq
  obtain ⟨ph, idx⟩ := t
  obtain rfl : idx = (s.servers p).worker := hid
  rcases hphase with hphase | ⟨hm, hr⟩
  · obtain rfl : ph = s.ctrl.phase := hphase
    intro q hq
    by_cases hpos : 0 < (s.servers q).requested ⟨s.ctrl.phase, (s.servers p).worker⟩
    · -- The two processes are live ones of the same worker.
      obtain rfl := h.topology.alone p q hp hq (h.requested hpos).1
      have hdue := h.accounting.due _ _ hlink
      have hle := (h.coherent p).returns_le ⟨s.ctrl.phase, (s.servers p).worker⟩
      split at hdue <;> omega
    · have hle := (h.coherent q).returns_le ⟨s.ctrl.phase, (s.servers p).worker⟩
      omega
  · obtain rfl : ph = .map := hm
    exact hmap hr _

/-! ### The invariant

A new 1 comes from an answer, the answer from a flag, the flag from a call that has returned in
that process, and by then the task was quiet. In the other direction, a task that is sent is
neither credited nor done behind its client, so that a send disturbs nothing. -/

/-- A task that is about to be sent is not credited, and has not returned behind its
client. -/
theorem Orderly.sends (h : Orderly job s) {phases : Phase → PhaseState} {idx : ℕ}
    (hs : Sends job s p w (.task ⟨ph, idx⟩) phases c) (hp : s.linked w = some p) :
    idx = w ∧ (s.phases ph).taskStatus[w]? ≠ some 1 ∧ (s.servers p).returns ⟨ph, w⟩ = 0 := by
  have hdue := h.accounting.due w p hp
  have hle := (h.coherent p).returns_le ⟨ph, w⟩
  generalize hreq : Request.task ⟨ph, idx⟩ = req at hs
  cases hs with
  | dispatch hc hi =>
    obtain ⟨rfl, rfl⟩ := Task.mk.inj (Request.task.inj hreq)
    rw [hc] at hdue
    have hlen := h.control.statuses ph
    rw [hc] at hlen
    refine ⟨rfl, ?_, ?_⟩
    · -- The status vector of the phase does not exist yet.
      rw [List.getElem?_eq_none]
      · exact (Option.some_ne_none _).symm
      · rw [hlen]
        simp [Ctrl.started, Ctrl.phase, Ctrl.inLoop]
    · simp only [Ctrl.phase, Ctrl.due, Nat.lt_irrefl, decide_false, Bool.false_eq_true,
        if_false] at hdue
      omega
  | resend hc hlt =>
    obtain ⟨rfl, rfl⟩ := Task.mk.inj (Request.task.inj hreq)
    obtain ⟨-, st, hst, hne⟩ := h.control.pending _ _ (by rw [hc]; rfl)
    rw [hc] at hdue
    refine ⟨rfl, ?_, ?_⟩
    · rw [hst]
      exact fun he => hne (Option.some.inj he)
    · simp only [Ctrl.phase, Ctrl.due, ne_eq, not_true_eq_false, decide_false, Bool.false_eq_true,
        if_false] at hdue
      omega
  | noFuture hc hle => exact absurd (h.control.future hc) (Nat.not_lt.mpr hle)
  | poll hc => cases hreq
  | stop hc hi => cases hreq

/-- An answer that a task is done comes from a process in which it has returned: the flag is the
same for all tasks of a phase, but a process is sent those of one worker. -/
theorem Orderly.returns_of_reply (h : Orderly job s) (hr : (s.servers p).reply = some (ph, true)) :
    0 < (s.servers p).returns ⟨ph, (s.servers p).worker⟩ := by
  obtain ⟨idx, hidx⟩ := (h.coherent p).reply ph hr
  have hid := h.accounting.ids p _ (Nat.lt_of_lt_of_le hidx ((h.coherent p).returns_le _))
  rwa [← show idx = (s.servers p).worker from hid]

/-- So does a flag, by the same argument. -/
theorem Orderly.returns_of_completed (h : Orderly job s)
    (hc : (s.servers p).completed ph = true) :
    0 < (s.servers p).returns ⟨ph, (s.servers p).worker⟩ := by
  obtain ⟨idx, hidx⟩ := (h.coherent p).completed ph hc
  have hid := h.accounting.ids p _ (Nat.lt_of_lt_of_le hidx ((h.coherent p).returns_le _))
  rwa [← show idx = (s.servers p).worker from hid]

theorem Sends.taskStatus {req : Request} {phases : Phase → PhaseState}
    (h : Sends job s p w req phases c) (ph : Phase) :
    (phases ph).taskStatus = (s.phases ph).taskStatus := by
  cases h with
  | @dispatch ph' i hc hi =>
    by_cases he : ph = ph'
    · subst he
      simp
    · simp [he]
  | @resend ph' i hc hlt =>
    by_cases he : ph = ph'
    · subst he
      simp
    · simp [he]
  | noFuture _ _ => rfl
  | poll _ => rfl
  | stop _ _ => rfl

/-- A new 1 in a status vector is the answer of the process behind the client. -/
theorem Step.status_one (hs : Step job s l s')
    (h : (s'.phases ph).taskStatus[w]? = some 1) :
    (s.phases ph).taskStatus[w]? = some 1 ∨
      ∃ p, s.linked w = some p ∧ (s.servers p).reply = some (ph, true) := by
  cases hs with
  | send hsend hp => exact .inl (hsend.taskStatus ph ▸ h)
  | @status ph' i hc hi =>
    left
    by_cases he : ph = ph'
    · subst he
      simp [State.goto, State.setPhase, List.getElem?_replicate] at h
    · simpa [State.goto, State.setPhase, he] using h
  | @answer ph' w' p status hc hp hr =>
    cases status with
    | false => exact .inl h
    | true =>
      by_cases he : ph = ph'
      · subst he
        by_cases hw : w = w'
        · subst hw
          exact .inr ⟨p, hp, hr⟩
        · left
          simpa [State.goto, State.credit, State.setPhase, State.setServer,
            List.getElem?_set_ne (Ne.symm hw)] using h
      · left
        simpa [State.goto, State.credit, State.setPhase, State.setServer, he] using h
  | _ => exact .inl h

/-- A quiet task that is credited, or has returned behind its client, stays quiet. -/
theorem Quiet.step_of_done (h : Quiet s ⟨ph, w⟩) (hs : Step job s l s') (hi : Orderly job s)
    (hi' : Orderly job s')
    (hdone : (s.phases ph).taskStatus[w]? = some 1 ∨
      ∃ p, s.linked w = some p ∧ 0 < (s.servers p).returns ⟨ph, w⟩) : Quiet s' ⟨ph, w⟩ := by
  rcases h.step hs hi hi' with hq | ⟨p, w', phases, c, hsend, hp⟩
  · exact hq
  · obtain ⟨rfl, hst, hret⟩ := hi.sends hsend hp
    rcases hdone with hone | ⟨p', hp', hpos⟩
    · exact absurd hone hst
    · rw [hp] at hp'
      obtain rfl := Option.some.inj hp'
      omega

/-- A call that has returned stays with its process, and the process with its worker. -/
theorem Orderly.returns_step (h : Orderly job s) (hs : Step job s l s')
    (hp : (s.servers p).worker = w)
    (hret : 0 < (s.servers p).returns t) :
    (s'.servers p).worker = w ∧ 0 < (s'.servers p).returns t := by
  refine ⟨?_, Nat.lt_of_lt_of_le hret (hs.returns_le h.topology p t)⟩
  rcases hs.worker h.topology p with hw | hnil
  · rw [hw, hp]
  · have hreq := Nat.lt_of_lt_of_le hret ((h.coherent p).returns_le t)
    rw [Server.requested, hnil] at hreq
    cases hreq

theorem Credit.step (h : Credit s) (hi : Orderly job s) (hi' : Orderly job s')
    (hs : Step job s l s') : Credit s' := by
  have hstatus : ∀ (ph : Phase) (w : ℕ), (s'.phases ph).taskStatus[w]? = some 1 →
      Quiet s' ⟨ph, w⟩ ∧ ∃ p, (s'.servers p).worker = w ∧ 0 < (s'.servers p).returns ⟨ph, w⟩ := by
    intro ph w hone
    rcases hs.status_one hone with hold | ⟨p, hp, hr⟩
    -- An old entry: the task was quiet and is not sent again.
    · obtain ⟨hquiet, p, hp, hret⟩ := h.status ph w hold
      exact ⟨hquiet.step_of_done hs hi hi' (.inl hold), p, hi.returns_step hs hp hret⟩
    -- A new one: the process behind the client has answered.
    · have hpw := (hi.topology.linked w p hp).2
      have hret := hi.returns_of_reply hr
      rw [hpw] at hret
      exact ⟨(h.linked ph w p hp hret).step_of_done hs hi hi' (.inr ⟨p, hp, hret⟩), p,
        hi.returns_step hs hpw hret⟩
  refine ⟨hstatus, fun ph w p hp hret => ?_⟩
  by_cases hlive : (s'.servers p).alive = true
  · exact hi'.quiet_of_returns
      (fun hphase => hi'.quiet_of_reduce (fun w hw => (hstatus .map w hw).1) hphase) hlive hret
  · -- The process is dead, so nothing has returned in it just now.
    have hold : s.linked w = some p := (hs.linked hp).resolve_right hlive
    have hret' : 0 < (s.servers p).returns ⟨ph, w⟩ := by
      rcases hs.server p with he | hmove | ⟨-, w', hfresh⟩
      · rwa [he] at hret
      · rwa [hmove.returns_of_dead (hi.coherent p) (Bool.eq_false_iff.mpr hlive)] at hret
      · rw [hfresh] at hret
        cases hret
    exact (h.linked ph w p hold hret').step_of_done hs hi hi' (.inr ⟨p, hold, hret'⟩)

/-- Status vectors and returned calls agree in every state of every run. -/
theorem credit_of_reaches {ok : State → Label → Prop} {d : Disk}
    (h : Transition.Reaches (MapReduceCpp.step job) ok (.init d) s) : Credit s := by
  induction h with
  | refl => exact credit_init d
  | tail hr hok hstep ih =>
    exact ih.step (orderly_of_reaches hr) (orderly_of_reaches (.tail hr hok hstep))
      (step_cases hstep)

/-! ### What the master polls -/

/-- The task of a live process that the master is about to poll has been sent to it
exactly once, and nowhere else. -/
theorem Orderly.polled (h : Orderly job s) (hc : s.ctrl = .poll ph w ∨ s.ctrl = .check ph w)
    (hp : s.linked w = some p) :
    (s.servers p).requested ⟨ph, w⟩ = 1 ∧
      ∀ q, (s.servers q).worker = w → (s.servers q).alive = true → q = p := by
  have hdue := h.accounting.due w p hp
  refine ⟨?_, fun q hw hq => ?_⟩
  · rcases hc with hc | hc
    · rwa [hc] at hdue
    · rwa [hc] at hdue
  · rcases h.topology.superseded w p q hp hq hw with he | ⟨ph', hc'⟩
    · exact he
    · rw [hc'] at hc
      rcases hc with hc | hc <;> cases hc

/-- **No task is lost, doubled or credited to the wrong process.** Whatever crashes: the
live process of a worker whose entry is not 1 has been sent the task of the phase exactly
once by the time it is polled, and it is the only live process of the worker. A flag is
set, and an answer says that it is, only in a process in which the controller has
returned for this very worker, and so does an entry that is 1. -/
theorem poll_exact {d : Disk}
    (h : Transition.Reaches (MapReduceCpp.step job) (fun _ _ => True) (.init d) s) :
    (∀ ph w p, s.ctrl = .poll ph w ∨ s.ctrl = .check ph w →
      (s.phases ph).taskStatus[w]? ≠ some 1 → s.linked w = some p → (s.servers p).alive = true →
      (s.servers p).sent.count (.task ⟨ph, w⟩) = 1 ∧
        ∀ q, (s.servers q).worker = w → (s.servers q).alive = true → q = p) ∧
    (∀ ph p, (s.servers p).completed ph = true ∨ (s.servers p).reply = some (ph, true) →
      ∃ code, (⟨ph, (s.servers p).worker⟩, code) ∈ (s.servers p).returned) ∧
    ∀ (ph : Phase) (w : ℕ), (s.phases ph).taskStatus[w]? = some 1 →
      ∃ p code, (s.servers p).worker = w ∧ (⟨ph, w⟩, code) ∈ (s.servers p).returned := by
  have hi := orderly_of_reaches h
  refine ⟨fun ph w p hc _ hp _ => hi.polled hc hp, fun ph p hdone => ?_, fun ph w hone => ?_⟩
  · rw [← Server.returns_pos]
    rcases hdone with hdone | hdone
    · exact hi.returns_of_completed hdone
    · exact hi.returns_of_reply hdone
  · obtain ⟨-, p, hp, hret⟩ := (credit_of_reaches h).status ph w hone
    obtain ⟨code, hcode⟩ := Server.returns_pos.mp hret
    exact ⟨p, code, hp, hcode⟩

/-- A run of two workers: the first process of worker 0 is killed before it has done
anything, and the master has noticed, forked a new one, sent it the task and come
around to it again. -/
def restartRun : List Label :=
  [List.replicate 6 .master, [.connect 0 0, .connect 1 1], List.replicate 3 .master,
    [.kill 0, .disconnect 0], List.replicate 3 .master, [.connect 0 2], List.replicate 3 .master,
    [.execute 1 1], List.replicate 4 .master].flatten

theorem restartRun_polls :
    (Transition.run (MapReduceCpp.step Job.lineNumbers) restartRun (.init fun _ => none)).map
        (fun s => (s.ctrl, (s.phases .map).taskStatus, s.linked 0, (s.servers 2).alive)) =
      some (.poll .map 0, [0, 0], some 2, true) := by decide +kernel

/-- When the master comes around to worker 0 again, the new process has been sent its task once. -/
theorem poll_exact_restartRun :
    ∃ s, Transition.run (MapReduceCpp.step Job.lineNumbers) restartRun (.init fun _ => none) = some s ∧
      s.ctrl = .poll .map 0 ∧ (s.servers 2).sent.count (.task ⟨.map, 0⟩) = 1 := by
  obtain ⟨s, hs, heq⟩ := Option.map_eq_some_iff.mp restartRun_polls
  simp only [Prod.mk.injEq] at heq
  obtain ⟨hc, hst, hp, hlive⟩ := heq
  have hexact := (poll_exact (Transition.reaches_of_run hs)).1 .map 0 2 (.inl hc)
    (by rw [hst]; decide) hp hlive
  exact ⟨s, hs, hc, hexact.1⟩

end MapReduceCpp
