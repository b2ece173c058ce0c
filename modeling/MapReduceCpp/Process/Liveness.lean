import MapReduceCpp.Lib.Fairness
import MapReduceCpp.Process.Advance

/-!
# MapReduceCpp.Process.Liveness

`process` returns.

Nothing in `process` waits with a timeout, so its return depends on the others: that a
connection is made, that a process takes up what it has been sent, that a controller goes
on. `Activity` lists these, one for each thing somebody waits for, and a run is fair if
none of them stays possible forever without happening. In every state of a timely run
one of them helps (`Helpful`): while the master sweeps over pending tasks it is a process
at work, otherwise it is the master or what the master waits for. With the rank of
`Process.Ranking` this is a `Transition.Ranking`, and so every fair run in which only
finitely many processes are killed gets to the return (`returns_of_fair`).
-/

namespace MapReduceCpp

variable {job : Job} {s s' : State} {l : Label} {ph : Phase} {w p : ℕ} {t : Task} {d : Disk}

/-! ### Activities

Fairness is asked of activities and not of labels. The place of a request in its inbox changes
with the others, and it is the request that must not be left waiting. -/

/-- The things that go on in a run. -/
inductive Activity
  /-- The master. -/
  | master
  /-- The connection of a client is made. -/
  | connect (w : ℕ)
  /-- A client finds its connection gone. -/
  | disconnect (w : ℕ)
  /-- A process takes up a request. -/
  | execute (p : ℕ) (req : Request)
  /-- A process goes on with the handler of a task. -/
  | handler (p : ℕ) (t : Task)

/-- The steps that belong to an activity. -/
def Activity.acts : Activity → State → Label → Prop
  | master, _, l => l = .master
  | connect w, _, l => ∃ p, l = .connect w p
  | disconnect w, _, l => l = .disconnect w
  | execute p req, s, l => ∃ k, l = .execute p k ∧ (s.servers p).inbox[k]? = some req
  | handler p t, s, l => ∃ k e, l = .file p k ∧ (s.servers p).running[k]? = some e ∧ e.task = t

/-- The master cannot go on before somebody else has done something: made a connection, found a
connection gone, or answered. The second is a demand of `Timely` and not of the code. -/
def Awaits (s : State) : Activity → Prop
  | .connect w => s.ctrl.calls = some w ∧ s.clientPool[w]? = some .initial
  | .disconnect w => ∃ ph p, s.ctrl = .check ph w ∧ (s.phases ph).taskStatus[w]? ≠ some 1 ∧
      s.clientPool[w]? = some (.connected p) ∧ (s.servers p).alive = false
  | .execute p (.isDone ph) => ∃ w, s.ctrl = .await ph w ∧ s.linked w = some p ∧
      .isDone ph ∈ (s.servers p).inbox
  | _ => False

/-- A process has a task to do. -/
def Works (s : State) : Activity → Prop
  | .handler p t => ∃ e ∈ (s.servers p).running, e.task = t
  | .execute p (.task t) => .task t ∈ (s.servers p).inbox
  | _ => False

/-- An activity that brings the return of `process` closer: while work is pending that is work,
and not the sweep over it. -/
def Helpful (job : Job) (a : Activity) (s : State) : Prop :=
  if s.Working job then Works s a
  else Awaits s a ∨ a = .master ∧ s.ctrl ≠ .returned ∧ ∀ b, ¬ Awaits s b

/-- While the master sweeps over pending tasks, some process is at work; otherwise it can
go on itself or waits for somebody. -/
theorem exists_helpful (hc : s.ctrl ≠ .returned) : ∃ a, Helpful job a s := by
  by_cases hw : s.Working job
  · obtain ⟨p, -, hp⟩ := State.exists_work hw.2
    cases hr : (s.servers p).running with
    | cons e es =>
      refine ⟨.handler p e.task, ?_⟩
      rw [Helpful, if_pos hw]
      exact ⟨e, hr ▸ List.mem_cons_self, rfl⟩
    | nil =>
      by_contra hno
      refine hp (Server.work_eq_zero.mpr ⟨fun t ht => hno ⟨.execute p (.task t), ?_⟩, hr⟩)
      rw [Helpful, if_pos hw]
      exact ht
  · by_cases hb : ∃ b, Awaits s b
    · obtain ⟨b, hb⟩ := hb
      refine ⟨b, ?_⟩
      rw [Helpful, if_neg hw]
      exact .inl hb
    · refine ⟨.master, ?_⟩
      rw [Helpful, if_neg hw]
      exact .inr ⟨rfl, hc, not_exists.mp hb⟩

/-! ### What helps can happen

An activity helps only if it is possible, and possible by a step that keeps the run timely and
kills nobody. For the master this says that it is stuck nowhere but where it waits for somebody. -/

/-- The master goes on when it does not have to wait. One case for each place, with the tests of
the source. -/
theorem Fit.master_enabled (h : Fit job s) (hc : s.ctrl ≠ .returned) (hb : ∀ a, ¬ Awaits s a) :
    ∃ s', Step job s .master s' := by
  have hctl := h.orderly.control
  -- A call finds its client connected.
  have hcall : ∀ w < job.nrMapper, s.ctrl.calls = some w → ∃ p, s.linked w = some p := by
    intro w hw hcalls
    obtain ⟨client, hcl⟩ := hctl.client (Ctrl.all_of_calls hcalls _).1 hw
    rw [State.linked_of_client hcl]
    cases client with
    | initial => exact absurd ⟨hcalls, hcl⟩ (hb (.connect w))
    | connected p => exact ⟨p, rfl⟩
    | disconnected p => exact ⟨p, rfl⟩
  cases hs : s.ctrl with
  | fork i =>
    by_cases hi : i < job.nrMapper
    · exact ⟨_, .fork hs hi⟩
    · exact ⟨_, .goto (.forked hs (Nat.le_of_not_lt hi))⟩
  | connect i =>
    by_cases hi : i < job.nrMapper
    · exact ⟨_, .client hs hi⟩
    · exact ⟨_, .goto (.created hs (Nat.le_of_not_lt hi))⟩
  | dispatch ph i =>
    by_cases hi : i < job.nrMapper
    · obtain ⟨p, hp⟩ := hcall i hi (by rw [hs]; rfl)
      exact ⟨_, .send (.dispatch hs hi) hp⟩
    · exact ⟨_, .status hs (Nat.le_of_not_lt hi)⟩
  | check ph w =>
    by_cases hw : w < job.nrMapper
    · cases hst : (s.phases ph).taskStatus[w]? with
      | none => exact ⟨_, .goto (.noStatus hs hw hst)⟩
      | some st =>
        by_cases hone : st = 1
        · exact ⟨_, .goto (.skip hs hw (hone ▸ hst))⟩
        · obtain ⟨client, hcl⟩ := hctl.client (by rw [hs]; rfl) hw
          by_cases hdown : ∃ p, client = .disconnected p
          · obtain ⟨p, rfl⟩ := hdown
            exact ⟨_, .goto (.down hs hw hst hone hcl)⟩
          · exact ⟨_, .goto (.up hs hw hst hone hcl (not_exists.mp hdown))⟩
    · exact ⟨_, .goto (.swept hs (Nat.le_of_not_lt hw))⟩
  | refork ph w => exact ⟨_, .refork hs⟩
  | reconnect ph w =>
    have hw := (hctl.pending ph w (by rw [hs]; rfl)).1
    exact ⟨_, .reclient hs (by rw [hctl.pool, hs]; exact hw)⟩
  | resend ph w =>
    have hw := (hctl.pending ph w (by rw [hs]; rfl)).1
    obtain ⟨p, hp⟩ := hcall w hw (by rw [hs]; rfl)
    exact ⟨_, .send (.resend hs (hctl.future hs)) hp⟩
  | poll ph w =>
    have hw := (hctl.pending ph w (by rw [hs]; rfl)).1
    obtain ⟨p, hp⟩ := hcall w hw (by rw [hs]; rfl)
    exact ⟨_, .send (.poll hs) hp⟩
  -- The answer is there, or else the poll waits at a process, which was excluded.
  | await ph w =>
    obtain ⟨p, hp, hin | ⟨b, hr⟩⟩ := h.awake.answer ph w hs
    · exact absurd ⟨w, hs, hp, hin⟩ (hb (.execute p (.isDone ph)))
    · exact ⟨_, .answer hs hp hr⟩
  | sweepEnd ph =>
    by_cases hdone : (s.phases ph).nrDone = job.count ph
    · cases ph with
      | map => exact ⟨_, .goto (.mapped hs hdone)⟩
      | reduce => exact ⟨_, .goto (.reduced hs hdone)⟩
    · exact ⟨_, .goto (.again hs hdone)⟩
  | stop i =>
    by_cases hi : i < job.nrMapper
    · obtain ⟨p, hp⟩ := hcall i hi (by rw [hs]; rfl)
      exact ⟨_, .send (.stop hs hi) hp⟩
    · exact ⟨_, .goto (.stopped hs (Nat.le_of_not_lt hi))⟩
  | returned => exact absurd hs hc
  | undefined => exact absurd hs h.defined

/-- A step that kills nobody is timely, if it is none of the master's. -/
theorem Fit.timely (h : Fit job s) (hl : CrashFree s l) (hm : l ≠ .master) : Timely s l := by
  refine ⟨fun p _ hfatal => ?_, fun he => absurd he hm⟩
  rcases hfatal with hkill | ⟨k, e, res, fault, -, hk, hprog, hres⟩
  · exact absurd hkill (hl p)
  · obtain ⟨code, hcode⟩ := h.ends p e (List.mem_of_getElem? hk) res hprog
    rw [hres] at hcode
    cases hcode

/-- A process that has a task waiting runs nothing, so a thread is free for it. -/
theorem Fit.running_of_waiting (h : Fit job s) (ht : .task t ∈ (s.servers p).inbox) :
    (s.servers p).running = [] := by
  obtain ⟨hlive, hwait, hreq⟩ := h.orderly.waiting ht
  have hcons := (h.orderly.coherent p).conserved hlive t
  obtain ⟨htask, hone⟩ := h.credit.pending h.orderly hlive hreq (by omega)
  cases hr : (s.servers p).running with
  | nil => rfl
  | cons e es =>
    -- Whatever runs here is the task of the worker, which has been sent once.
    obtain ⟨htask', hone'⟩ := h.credit.running h.orderly (e := e) (p := p) (hr ▸ List.mem_cons_self)
    rw [htask', ← htask] at hone'
    omega

/-- **What helps can happen**, and kills nobody. -/
theorem Fit.enabled (h : Fit job s) {a : Activity} (ha : Helpful job a s) :
    Transition.Enabled (step job) (fun s l => Timely s l ∧ CrashFree s l) a.acts s := by
  have hgo : ∀ {l s'}, a.acts s l → Step job s l s' → CrashFree s l → Timely s l →
      Transition.Enabled (step job) (fun s l => Timely s l ∧ CrashFree s l) a.acts s :=
    fun hact hs hl ht => ⟨_, _, hact, ⟨ht, hl⟩, hs.enabled (h.defined_step hs)⟩
  unfold Helpful at ha
  split at ha
  · cases a with
    | handler p t =>
      obtain ⟨e, he, htask⟩ := ha
      obtain ⟨k, hk⟩ := List.mem_iff_getElem?.mp he
      have hl : CrashFree s (.file p k) := fun _ he => by cases he
      have ht : Timely s (.file p k) := h.timely hl fun he => by cases he
      cases hstep : e.prog.step .all s.disk with
      | some next => exact hgo ⟨k, e, rfl, hk, htask⟩ (.op hk hstep) hl ht
      | none =>
        obtain ⟨res, hprog⟩ := FileProg.done_of_step hstep
        obtain ⟨code, hcode⟩ := h.ends p e he res hprog
        exact hgo ⟨k, e, rfl, hk, htask⟩ (.finish hk hprog hcode) hl ht
    | execute p req =>
      cases req with
      | task t =>
        obtain ⟨k, hk⟩ := List.mem_iff_getElem?.mp ha
        have hlen : (s.servers p).running.length < 2 := by
          rw [h.running_of_waiting ha]
          exact Nat.zero_lt_two
        have hl : CrashFree s (.execute p k) := fun _ he => by cases he
        exact hgo ⟨k, rfl, hk⟩ (.start hlen hk) hl (h.timely hl fun he => by cases he)
      | isDone ph => cases ha
      | stopServer => cases ha
    | _ => cases ha
  · rename_i hw
    rcases ha with ha | ⟨rfl, hc, hb⟩
    · cases a with
      | connect w =>
        obtain ⟨hcalls, hcl⟩ := ha
        have hall := Ctrl.all_of_calls hcalls job.nrMapper
        have hlt : w < job.nrMapper := by
          rw [← hall.1, ← h.orderly.control.pool]
          exact (List.getElem?_eq_some_iff.mp hcl).1
        -- The process the connection is to be made to has been waiting for it since the fork.
        obtain ⟨p, hlive, hworker, -⟩ := h.awake.unconnected w hlt (by rw [hall.2]; exact hlt)
          (.inl (State.linked_of_client hcl))
        have hl : CrashFree s (.connect w p) := fun _ he => by cases he
        exact hgo ⟨p, rfl⟩ (.connect hcl hlive hworker) hl (h.timely hl fun he => by cases he)
      | disconnect w =>
        obtain ⟨ph, p, -, -, hcl, hdead⟩ := ha
        have hl : CrashFree s (.disconnect w) := fun _ he => by cases he
        exact hgo rfl (.disconnect hcl hdead) hl (h.timely hl fun he => by cases he)
      | execute p req =>
        cases req with
        | isDone ph =>
          obtain ⟨w, hc, hp, hin⟩ := ha
          obtain ⟨k, hk⟩ := List.mem_iff_getElem?.mp hin
          -- A poll needs a thread as well. No work is pending here, so both are free.
          have hzero : s.work job = 0 := by
            by_contra hne
            exact hw ⟨by rw [hc]; rfl, hne⟩
          have hlen : (s.servers p).running.length < 2 := by
            have hlt := (h.orderly.topology.linked w p hp).1
            have hnone := Finset.sum_eq_zero_iff.mp hzero p (Finset.mem_range.mpr hlt)
            rw [(Server.work_eq_zero.mp hnone).2]
            exact Nat.zero_lt_two
          have hl : CrashFree s (.execute p k) := fun _ he => by cases he
          exact hgo ⟨k, rfl, hk⟩ (.reply hlen hk) hl (h.timely hl fun he => by cases he)
        | task t => cases ha
        | stopServer => cases ha
      | master => cases ha
      | handler p t => cases ha
    · obtain ⟨s', hs⟩ := h.master_enabled hc hb
      refine hgo rfl hs (fun _ he => by cases he)
        ⟨fun p _ hfatal => ?_, fun _ ph w p hc' hst hcl => ?_⟩
      · rcases hfatal with he | ⟨k, e, res, fault, he, -⟩ <;> cases he
      · by_contra hdead
        exact hb (.disconnect w) ⟨ph, p, hc', hst, hcl, Bool.eq_false_iff.mpr hdead⟩

/-! ### Help lasts

A passive step must not take away what helps, or fairness would promise nothing. Whoever is at
work stays so until it makes a step itself, and whatever the master waits for stays possible
until it happens. -/

/-- Work is lost only where a handler or a waiting task is. -/
theorem Works.congr {a : Activity} (ha : Works s a)
    (hrunning : ∀ p, (s'.servers p).running = (s.servers p).running)
    (htasks : ∀ p t, .task t ∈ (s.servers p).inbox → .task t ∈ (s'.servers p).inbox) :
    Works s' a := by
  cases a with
  | handler p t =>
    obtain ⟨e, he, htask⟩ := ha
    exact ⟨e, by rw [hrunning]; exact he, htask⟩
  | execute p req =>
    cases req with
    | task t => exact htasks p t ha
    | _ => cases ha
  | _ => cases ha

/-- While the system works, a step that leaves the rank as it is leaves the work where it is,
and is no part of it. -/
theorem Passive.works (hp : Passive job s l s') (h : Fit job s) (hw : s.Working job)
    {a : Activity} (ha : Works s a) : s'.Working job ∧ Works s' a ∧ ¬ a.acts s l := by
  -- The master, a connection or a stop is nobody's work.
  have hother : (∀ p k, l ≠ .execute p k) → (∀ p k, l ≠ .file p k) → ¬ a.acts s l := by
    intro hexecute hfile hact
    cases a with
    | handler p t =>
      obtain ⟨k, e, he, -⟩ := hact
      exact hfile p k he
    | execute p req =>
      obtain ⟨k, he, -⟩ := hact
      exact hexecute p k he
    | _ => cases ha
  cases hp with
  | sweep _ hw' hrunning htasks =>
    exact ⟨hw', ha.congr hrunning htasks,
      hother (fun _ _ he => by cases he) fun _ _ he => by cases he⟩
  | @reply p k ph _ hk hw' =>
    refine ⟨hw', ha.congr (fun q => ?_) fun q t ht => ?_, ?_⟩
    · by_cases hq : q = p
      · subst hq
        rw [State.setServer_self]
      · rw [State.setServer_ne s _ hq]
    · by_cases hq : q = p
      · subst hq
        rw [State.setServer_self]
        obtain ⟨j, hj⟩ := List.mem_iff_getElem?.mp ht
        refine List.mem_eraseIdx_iff_getElem?.mpr ⟨j, fun he => ?_, hj⟩
        rw [he, hk] at hj
        cases hj
      · rwa [State.setServer_ne s _ hq]
    · cases a with
      | handler q t =>
        rintro ⟨k', e, he, -⟩
        cases he
      | execute q req =>
        rintro ⟨k', he, hk'⟩
        obtain ⟨rfl, rfl⟩ := Label.execute.inj he
        rw [hk] at hk'
        obtain rfl := Option.some.inj hk'
        cases ha
      | _ => cases ha
  | exit hstop _ =>
    have hrest := hw.1
    cases hc : s.ctrl <;> rw [hc] at hrest hstop <;> first | cases hrest; done | cases hstop
  | @connect w p _ hcl => exact absurd hcl (h.not_initial hw.1 w)
  | disconnect _ _ => exact ⟨hw, ha, hother (fun _ _ he => by cases he) fun _ _ he => by cases he⟩

/-- What the master waits for depends on little: on its place, the client at that place, and the
process behind it. -/
theorem awaits_congr (hctrl : s'.ctrl = s.ctrl) (hphases : s'.phases = s.phases)
    (hcalls : ∀ w, s.ctrl.calls = some w →
      (s'.clientPool[w]? = some .initial ↔ s.clientPool[w]? = some .initial))
    (hcheck : ∀ ph w, s.ctrl = .check ph w → s'.clientPool[w]? = s.clientPool[w]? ∧
      ∀ p, (s'.servers p).alive = (s.servers p).alive)
    (hawait : ∀ ph w, s.ctrl = .await ph w → s'.linked w = s.linked w ∧
      ∀ p, (s'.servers p).inbox = (s.servers p).inbox) (b : Activity) :
    Awaits s' b ↔ Awaits s b := by
  cases b with
  | connect w =>
    unfold Awaits
    rw [hctrl]
    exact and_congr_right (hcalls w)
  | disconnect w =>
    unfold Awaits
    rw [hctrl, hphases]
    refine exists₂_congr fun ph p => and_congr_right fun hc => ?_
    rw [(hcheck ph w hc).1, (hcheck ph w hc).2]
  | execute p req =>
    cases req with
    | isDone ph =>
      unfold Awaits
      rw [hctrl]
      refine exists_congr fun w => and_congr_right fun hc => ?_
      rw [(hawait ph w hc).1, (hawait ph w hc).2]
    | _ => exact Iff.rfl
  | _ => exact Iff.rfl

/-- While the master is free, a passive step leaves what the master waits for as it is, and is
not what it waits for. -/
theorem Passive.awaits (hp : Passive job s l s') (h : Fit job s) (hw : ¬ s.Working job) :
    s'.ctrl = s.ctrl ∧ l ≠ .master ∧ (s'.Working job → s.Working job) ∧
      (∀ b, Awaits s' b ↔ Awaits s b) ∧ ∀ b, Awaits s b → ¬ b.acts s l := by
  cases hp with
  | sweep hw' _ _ _ => exact absurd hw' hw
  | reply hw' _ _ => exact absurd hw' hw
  -- In the last loop the master waits for connections only.
  | @exit p k hstop hk =>
    refine ⟨rfl, fun he => (by cases he), fun hw' => ?_, ?_, fun b hb hact => ?_⟩
    · have hrest : s.ctrl.resting = true := hw'.1
      cases hc : s.ctrl <;> rw [hc] at hrest hstop <;> first | cases hstop; done | cases hrest
    · refine awaits_congr rfl rfl (fun _ _ => Iff.rfl) (fun ph w hc => ?_) fun ph w hc => ?_
      · rw [hc] at hstop
        cases hstop
      · rw [hc] at hstop
        cases hstop
    · cases b with
      | execute q req =>
        obtain ⟨k', he, hk'⟩ := hact
        obtain ⟨rfl, rfl⟩ := Label.execute.inj he
        rw [hk] at hk'
        obtain rfl := Option.some.inj hk'
        cases hb
      | handler q t => cases hb
      | master => cases hb
      | connect w =>
        obtain ⟨q, he⟩ := hact
        cases he
      | disconnect w => cases hact
  -- The master is outside the sweeps, and calls through another client.
  | @connect w p hcalls hcl =>
    have hfree : ∀ {c : Ctrl}, s.ctrl = c → c.resting = true → False :=
      fun hc hrest => h.not_initial (hc ▸ hrest) w hcl
    refine ⟨rfl, fun he => (by cases he), id, ?_, fun b hb hact => ?_⟩
    · refine awaits_congr rfl rfl (fun w' hw' => ?_) (fun ph w' hc => (hfree hc rfl).elim)
        fun ph w' hc => (hfree hc rfl).elim
      have hne : w ≠ w' := fun he => hcalls (he ▸ hw')
      rw [List.getElem?_set_ne hne]
    · cases b with
      | connect w' =>
        obtain ⟨q, he⟩ := hact
        obtain ⟨rfl, rfl⟩ := Label.connect.inj he
        exact hcalls hb.1
      | disconnect w' => cases hact
      | execute q req =>
        obtain ⟨k, he, -⟩ := hact
        cases he
      | handler q t => cases hb
      | master => cases hb
  -- The master is about to test another connection, or none.
  | @disconnect w p hne hcl =>
    have hne := hne.resolve_left hw
    have hlen := (List.getElem?_eq_some_iff.mp hcl).1
    refine ⟨rfl, fun he => (by cases he), id, ?_, fun b hb hact => ?_⟩
    · refine awaits_congr rfl rfl (fun w' _ => ?_) (fun ph w' hc => ⟨?_, fun _ => rfl⟩)
        fun ph w' _ => ⟨State.linked_disconnect hcl w', fun _ => rfl⟩
      · by_cases he : w = w'
        · subst he
          rw [List.getElem?_set_self hlen, hcl]
          exact ⟨fun he => (by cases he), fun he => (by cases he)⟩
        · rw [List.getElem?_set_ne he]
      · have hww : w ≠ w' := fun he => hne ph (he ▸ hc)
        exact List.getElem?_set_ne hww
    · cases b with
      | disconnect w' =>
        obtain rfl := Label.disconnect.inj hact
        obtain ⟨ph, q, hc, -⟩ := hb
        exact hne ph hc
      | connect w' =>
        obtain ⟨q, he⟩ := hact
        cases he
      | execute q req =>
        obtain ⟨k, he, -⟩ := hact
        cases he
      | handler q t => cases hb
      | master => cases hb

/-- **The rank and the helpful activities certify that `process` returns.** Something helps in
every state, it can happen, it lowers the rank when it does, and everything else leaves it
helpful. -/
theorem ranking (job : Job) :
    Transition.Ranking (step job) (fun s l => Timely s l ∧ CrashFree s l)
      (fun s l => Timely s l ∧ CrashFree s l) Activity.acts (Fit job) (fun s => s.ctrl = .returned)
      (State.rank job) (Helpful job) where
  exists_helpful := fun _ _ hc => exists_helpful hc
  enabled := fun _ _ h ha => h.enabled ha
  progress := by
    intro a s l s' h ha hl hstep
    rcases h.advances (step_cases hstep) hl.2 with hret | hlt | ⟨heq, hp⟩
    · exact .inl hret
    · exact .inr (.inl hlt)
    · refine .inr (.inr ⟨heq, ?_⟩)
      unfold Helpful at ha ⊢
      split at ha
      · rename_i hw
        obtain ⟨hw', ha', hact⟩ := hp.works h hw ha
        rw [if_pos hw']
        exact ⟨ha', hact⟩
      · rename_i hw
        obtain ⟨hctrl, hm, hw', hb, hact⟩ := hp.awaits h hw
        rw [if_neg fun hw'' => hw (hw' hw'')]
        rcases ha with ha | ⟨rfl, hc, hnone⟩
        · exact ⟨.inl ((hb a).mpr ha), hact a ha⟩
        · exact ⟨.inr ⟨rfl, by rw [hctrl]; exact hc, fun b hb' => hnone b ((hb b).mp hb')⟩, hm⟩

/-! ### `process` returns

Fairness and the end of the deaths give the return of a run that is given. Without either there
is still a way on, found by always taking the step that helps. -/

/-- A fair run whose deaths come to an end comes to the return of `process`: after the last
death the ranking applies. -/
theorem eventually_returned (hb : job.Sound) (hcatch : job.Catches d)
    (r : Transition.Run (step job) Timely (.init d)) (hfair : r.Fair Activity.acts)
    (hkills : ∃ n, ∀ m ≥ n, ∀ p, r.label m ≠ some (.kill p)) :
    ∃ n, (r.state n).ctrl = .returned := by
  obtain ⟨n, hn⟩ := hkills
  have hfit : ∀ m ≥ n, Fit job (r.state m) := fun m _ => fit_of_reaches hb hcatch (r.reaches m)
  have hok : ∀ m ≥ n, ∀ l, r.label m = some l →
      Timely (r.state m) l ∧ CrashFree (r.state m) l := fun m hm l hl =>
    ⟨(r.next m l hl).1, fun p he => hn m hm p (he ▸ hl)⟩
  obtain ⟨m, -, hret⟩ :=
    ((ranking job).relax fun _ _ ht => ht.1).eventually hfair hfit hok
  exact ⟨m, hret⟩

/-- **`process` returns** in every fair run in which only finitely many processes are
killed, each at a time when the master does not count on it. -/
theorem returns_of_fair (hb : job.Sound) (htol : job.Tolerant d)
    (r : Transition.Run (step job) Timely (.init d)) (hfair : r.Fair Activity.acts)
    (hkills : ∃ n, ∀ m ≥ n, ∀ p, r.label m ≠ some (.kill p)) :
    ∃ n, (r.state n).ctrl = .returned :=
  eventually_returned hb (htol.catches hb) r hfair hkills

/-- Nothing happens any more when `process` has returned, all processes have ended and
their clients know. -/
theorem step_eq_none (hc : s.ctrl = .returned)
    (hservers : ∀ p, (s.servers p).alive = false ∧ (s.servers p).inbox = [] ∧
      (s.servers p).running = [])
    (hpool : ∀ client ∈ s.clientPool, ∃ p, client = .disconnected p) (l : Label) :
    step job s l = none := by
  cases hstep : step job s l with
  | none => rfl
  | some s' =>
    exfalso
    have hinbox : ∀ {p k : ℕ} {req : Request}, (s.servers p).inbox[k]? = some req → False := by
      intro p k req hk
      rw [(hservers p).2.1] at hk
      cases hk
    have hrunning : ∀ {p k : ℕ} {e : Exec}, (s.servers p).running[k]? = some e → False := by
      intro p k e hk
      rw [(hservers p).2.2] at hk
      cases hk
    have hlive : ∀ {p}, (s.servers p).alive = true → False := by
      intro p hp
      rw [(hservers p).1] at hp
      cases hp
    cases step_cases hstep with
    | goto hg =>
      cases hg with
      | noClient hne _ =>
        obtain ⟨ph, hne⟩ := hne
        rcases hne with ⟨he, -⟩ | ⟨he, -⟩ | he | he | he | ⟨he, -⟩ <;> rw [hc] at he <;> cases he
      | _ => simp_all
    | send hsend _ => cases hsend <;> simp_all
    | fork he _ => rw [hc] at he; cases he
    | refork he => rw [hc] at he; cases he
    | client he _ => rw [hc] at he; cases he
    | reclient he _ => rw [hc] at he; cases he
    | status he _ => rw [hc] at he; cases he
    | answer he _ _ => rw [hc] at he; cases he
    | connect _ hp _ => exact hlive hp
    | disconnect hcl _ =>
      obtain ⟨p, he⟩ := hpool _ (List.mem_of_getElem? hcl)
      cases he
    | start _ hk => exact hinbox hk
    | reply _ hk => exact hinbox hk
    | exit _ hk => exact hinbox hk
    | op hk _ => exact hrunning hk
    | finish hk _ _ => exact hrunning hk
    | fault hk _ _ => exact hrunning hk
    | kill hp => exact hlive hp

/-- The run with a crash, until nothing happens any more. -/
def restingRun : List Label :=
  recoveredRun ++ [.execute 2 0, .execute 1 0, .disconnect 0, .disconnect 1]

theorem lineNumbers_tolerant : Job.lineNumbers.Tolerant (Job.sampleDisk Job.sampleLines) where
  map := fun k v fault h => by rw [lineNumbers_returns.map k v] at h; cases h
  reduce := fun k vs fault h => by rw [lineNumbers_returns.reduce k vs] at h; cases h
  lines := by
    intro content hd
    obtain rfl := Option.some.inj ((Job.sampleDisk_input Job.sampleLines).symm.trans hd)
    decide

/-- The run with a crash is a fair one. -/
theorem returns_of_fair_lineNumbers :
    ∃ r : Transition.Run (step Job.lineNumbers) Timely (.init (Job.sampleDisk Job.sampleLines)),
      r.Fair Activity.acts ∧ (∃ n, r.label n = some (.kill 0)) ∧
        ∃ n, (r.state n).ctrl = .returned := by
  have hrun : (Transition.run (Transition.guarded timely (step Job.lineNumbers)) restingRun
      (.init (Job.sampleDisk Job.sampleLines))).map (fun s => (s.ctrl, s.spawned,
        (List.range 3).all fun p => !(s.servers p).alive, s.clientPool)) =
      some (.returned, 3, true, [.disconnected 2, .disconnected 1]) := by decide +kernel
  obtain ⟨s, hs, heq⟩ := Option.map_eq_some_iff.mp hrun
  simp only [Prod.mk.injEq] at heq
  obtain ⟨hc, hspawned, hall, hpool⟩ := heq
  have hreach : Transition.Reaches (step Job.lineNumbers) Timely
      (.init (Job.sampleDisk Job.sampleLines)) s :=
    Transition.reaches_of_tested (fun _ _ => timely_of_test) hs
  have hi := orderly_of_reaches hreach
  have hdead : ∀ p, (s.servers p).alive = false := by
    intro p
    by_cases hp : p < s.spawned
    · rw [hspawned] at hp
      simpa using List.all_eq_true.mp hall p (List.mem_range.mpr hp)
    · rw [hi.topology.unspawned p (Nat.le_of_not_lt hp)]
      rfl
  have hend := @step_eq_none Job.lineNumbers s hc
    (fun p => ⟨hdead p, (hi.coherent p).dead (hdead p)⟩) fun client hcl => by
      rw [hpool] at hcl
      rcases List.mem_cons.mp hcl with rfl | hcl
      · exact ⟨2, rfl⟩
      · exact ⟨1, List.mem_singleton.mp hcl⟩
  obtain ⟨r, hfair, hlabel, -⟩ : ∃ r : Transition.Run (step Job.lineNumbers) Timely _,
      r.Fair Activity.acts ∧ (∀ n, r.label n = restingRun[n]?) ∧ _ :=
    Transition.exists_run_of_terminal (fun _ _ => timely_of_test) hs hend
  refine ⟨r, hfair, ⟨17, by rw [hlabel]; rfl⟩, returns_of_fair lineNumbers_sound
    lineNumbers_tolerant r hfair ⟨restingRun.length, fun m hm p he => ?_⟩⟩
  rw [hlabel, List.getElem?_eq_none hm] at he
  cases he

/-- A timely run can be brought to an end, whatever was killed in it. -/
theorem exists_returned (hb : job.Sound) (hcatch : job.Catches d)
    (h : Transition.Reaches (step job) Timely (.init d) s) :
    ∃ s', Transition.Reaches (step job) (fun s l => Timely s l ∧ CrashFree s l) s s' ∧
      s'.ctrl = .returned := by
  refine (ranking job).exists_reaches fun s' hs' => ?_
  exact fit_of_reaches hb hcatch (h.trans (hs'.mono fun _ _ hl => hl.1))

/-- **`process` is never stuck**: from every state of every timely run, whatever has been
killed, some run without a further death leads to its return. -/
theorem can_return (hb : job.Sound) (htol : job.Tolerant d)
    (h : Transition.Reaches (step job) Timely (.init d) s) :
    ∃ s', Transition.Reaches (step job) (fun s l => Timely s l ∧ CrashFree s l) s s' ∧
      s'.ctrl = .returned :=
  exists_returned hb (htol.catches hb) h

/-- The run with a crash can still be brought to an end. -/
theorem can_return_lineNumbers :
    ∃ s s', Transition.run (Transition.guarded timely (step Job.lineNumbers)) barrierRun
        (.init (Job.sampleDisk Job.sampleLines)) = some s ∧ s.spawned = 3 ∧
      Transition.Reaches (step Job.lineNumbers) (fun s l => Timely s l ∧ CrashFree s l) s s' ∧
        s'.ctrl = .returned := by
  have hrun : (Transition.run (Transition.guarded timely (step Job.lineNumbers)) barrierRun
      (.init (Job.sampleDisk Job.sampleLines))).map State.spawned = some 3 := by decide +kernel
  obtain ⟨s, hs, hspawned⟩ := Option.map_eq_some_iff.mp hrun
  obtain ⟨s', hreach, hc⟩ := can_return lineNumbers_sound lineNumbers_tolerant
    (Transition.reaches_of_tested (fun _ _ => timely_of_test) hs)
  exact ⟨s, s', hs, hspawned, hreach, hc⟩

end MapReduceCpp
