import MapReduceCpp.Process.Ranking

/-!
# MapReduceCpp.Process.Advance

No step but a death makes the return of `process` more distant.

Each kind of step is taken by itself: what the master does (`Fit.master`), and what
processes, connections and controllers do (`Fit.environment` and what follows). Most steps
lower the rank. The ones that do not are listed in `Passive`, so that what helps can be
seen to survive them.
-/

namespace MapReduceCpp

open FileProg

variable {job : Job} {s s' : State} {l : Label} {c : Ctrl} {ph : Phase} {w p q : ℕ} {t : Task}
  {d : Disk}

/-! ### The master

Outside the sweeps each step leads to an earlier stage or to one restart less. Inside, a step is
measured by the position, and a positive answer by the task it takes off. -/

/-- A step that neither lowers the rank nor helps. -/
inductive Passive (job : Job) (s : State) : Label → State → Prop
  /-- The master goes on in its sweep over tasks that are being worked on. -/
  | sweep {s' : State} : s.Working job → s'.Working job →
      (∀ p, (s'.servers p).running = (s.servers p).running) →
      (∀ p t, .task t ∈ (s.servers p).inbox → .task t ∈ (s'.servers p).inbox) →
      Passive job s .master s'
  /-- A poll is answered meanwhile. -/
  | reply {p k : ℕ} {ph : Phase} : s.Working job → (s.servers p).inbox[k]? = some (.isDone ph) →
      (s.setServer p
        { s.servers p with
          inbox := (s.servers p).inbox.eraseIdx k
          reply := some (ph, (s.servers p).completed ph) }).Working job →
      Passive job s (.execute p k) (s.setServer p
        { s.servers p with
          inbox := (s.servers p).inbox.eraseIdx k
          reply := some (ph, (s.servers p).completed ph) })
  /-- A process is stopped. -/
  | exit {p k : ℕ} : s.ctrl.stopping = true → (s.servers p).inbox[k]? = some .stopServer →
      Passive job s (.execute p k) (s.setServer p (s.servers p).terminate)
  /-- A connection is made that the master does not wait for. -/
  | connect {w p : ℕ} : s.ctrl.calls ≠ some w → s.clientPool[w]? = some .initial →
      Passive job s (.connect w p) { s with clientPool := s.clientPool.set w (.connected p) }
  /-- A connection is found to be gone that the master does not look at. -/
  | disconnect {w p : ℕ} : (s.Working job ∨ ∀ ph, s.ctrl ≠ .check ph w) →
      s.clientPool[w]? = some (.connected p) →
      Passive job s (.disconnect w) { s with clientPool := s.clientPool.set w (.disconnected p) }

/-- What a step can do to the rank: nothing more has to be said of a return, a lower rank is
progress, and a rank that stays comes with a step that is known to do no harm. -/
def Advances (job : Job) (s : State) (l : Label) (s' : State) : Prop :=
  s'.ctrl = .returned ∨ s'.rank job < s.rank job ∨ s'.rank job = s.rank job ∧ Passive job s l s'

theorem Advances.stage (h : s'.ctrl.stage job.nrMapper < s.ctrl.stage job.nrMapper) :
    Advances job s l s' := .inr (.inl (rank_lt_of_stage h))

/-- A step of the master inside a sweep. While others are at work it is passive, and leaves them
what they have to do. -/
theorem Advances.sweep (hrest : s.ctrl.resting = true) (hrest' : s'.ctrl.resting = true)
    (hphase : s'.ctrl.phase = s.ctrl.phase) (hundone : s'.undone job = s.undone job)
    (hvacant : s'.vacant job = s.vacant job) (hwork : s'.work job = s.work job)
    (hplace : s.work job = 0 →
      toLex (s'.stale, s'.position job) < toLex (s.stale, s.position job))
    (hrunning : ∀ p, (s'.servers p).running = (s.servers p).running)
    (htasks : ∀ p t, .task t ∈ (s.servers p).inbox → .task t ∈ (s'.servers p).inbox) :
    Advances job s .master s' := by
  rcases rank_sweep hrest hrest' hphase hundone hvacant hwork hplace with hlt | ⟨heq, hw⟩
  · exact .inr (.inl hlt)
  · exact .inr (.inr ⟨heq, .sweep hw ⟨hrest', hwork ▸ hw.2⟩ hrunning htasks⟩)

theorem Fit.goto (h : Fit job s) (hg : Goto job s c) (hc : c ≠ .undefined) :
    Advances job s .master (s.goto c) := by
  have hctl := h.orderly.control
  -- A move within a sweep changes nothing but the place.
  have hsweep : ∀ {ph : Phase}, s.ctrl.resting = true → c.resting = true → s.ctrl.phase = ph →
      c.phase = ph → toLex ((s.goto c).stale, (s.goto c).position job) <
        toLex (s.stale, s.position job) → Advances job s .master (s.goto c) := by
    intro ph hrest hrest' hph hph' hplace
    have hsame : (s.goto c).ctrl.phase = s.ctrl.phase := hph'.trans hph.symm
    refine .sweep hrest hrest' hsame ?_ rfl rfl (fun _ => hplace) (fun _ => rfl) fun _ _ => id
    unfold State.undone
    rw [hsame]
    rfl
  cases hg with
  | @forked i hs hi => exact .stage (by simp only [State.goto, hs, Ctrl.stage]; omega)
  | @created i hs hi => exact .stage (by simp only [State.goto, hs, Ctrl.stage]; omega)
  -- A worker that is done: the next pending one is as far as it was, but for this one.
  | @skip ph w hs hw hst =>
    refine hsweep (by rw [hs]; rfl) rfl (by rw [hs]; rfl) rfl
      (Prod.Lex.toLex_lt_toLex.mpr (.inr ⟨?_, ?_⟩))
    · simp only [State.stale, State.goto, hs]
    · have hahead : (s.goto (.check ph (w + 1))).ahead ph (w + 1) = s.ahead ph w := s.ahead_succ hst
      simp only [State.position, hs,
        show (s.goto (.check ph (w + 1))).ctrl = .check ph (w + 1) from rfl,
        hahead]
      split <;> split <;> omega
  -- The worker is vacant, and the first of the steps that replace it is done.
  | @down ph w st pid hs hw hst hne hcl =>
    have hmem : w ∈ s.vacant job :=
      h.vacant_of_gone hw hcl fun ph' hc' => by rw [hs] at hc'; cases hc'
    have hpos := Finset.card_pos.mpr ⟨w, hmem⟩
    refine .inr (.inl (rank_lt_of_restarts ⟨?_, ?_⟩ ?_))
    · simp only [State.goto, hs]
      cases ph <;> exact le_rfl
    · unfold State.undone
      simp only [State.goto, hs, Ctrl.phase, le_refl]
    · have hrest : s.restarts job = 4 * (s.vacant job).card :=
        State.restarts_of_resting (by rw [hs]; rfl)
      have hrest' : (s.goto (.refork ph w)).restarts job = 4 * (s.vacant job).card - 1 := rfl
      omega
  | @up ph w st client hs hw hst hne hcl hup =>
    refine hsweep (by rw [hs]; rfl) rfl (by rw [hs]; rfl) rfl
      (Prod.Lex.toLex_lt_toLex.mpr (.inr ⟨?_, ?_⟩))
    · simp only [State.stale, State.goto, hs]
    · simp only [State.position, hs, show (s.goto (.poll ph w)).ctrl = .poll ph w from rfl,
        State.ahead_of le_rfl hst hne, if_true]
      omega
  -- Behind the last worker nothing is ahead, and the bonus has been paid.
  | @swept ph w hs hw =>
    refine hsweep (by rw [hs]; rfl) rfl (by rw [hs]; rfl) rfl
      (Prod.Lex.toLex_lt_toLex.mpr (.inr ⟨?_, ?_⟩))
    · simp only [State.stale, State.goto, hs]
    · have hlen : (s.phases ph).taskStatus.length ≤ w := by
        rw [hctl.statuses]
        split
        · refine le_trans (le_of_eq ?_) hw
          cases ph with
          | map => rfl
          | reduce => exact h.sound.square.symm
        · exact Nat.zero_le w
      simp only [State.position, hs, show (s.goto (.sweepEnd ph)).ctrl = .sweepEnd ph from rfl,
        State.ahead_length hlen, Bool.false_eq_true, if_false]
      omega
  | mapped hs hdone =>
    exact .stage (by simp only [State.goto, hs, Ctrl.stage, Ctrl.phase]; omega)
  | reduced hs hdone =>
    exact .stage (by simp only [State.goto, hs, Ctrl.stage, Ctrl.phase]; omega)
  -- The sweep that begins has a pending task ahead, since the count is not full.
  | @again ph hs hne =>
    refine hsweep (by rw [hs]; rfl) rfl (by rw [hs]; rfl) rfl
      (Prod.Lex.toLex_lt_toLex.mpr (.inr ⟨?_, ?_⟩))
    · simp only [State.stale, State.goto, hs]
    · have hahead : (s.goto (.check ph 0)).ahead ph 0 = true :=
        hctl.ahead_zero (by rw [hs]; cases ph <;> rfl) hne
      simp only [State.position, hs, show (s.goto (.check ph 0)).ctrl = .check ph 0 from rfl,
        hahead, if_true]
      split <;> omega
  | stopped hs hi => exact .inl rfl
  | noStatus _ _ _ => exact absurd rfl hc
  | noClient _ _ => exact absurd rfl hc

/-- The master leaves the vacant workers as they are, unless it forks. -/
theorem Fit.vacant_master (h : Fit job s) (hs : Step job s .master s')
    (hstop : s.ctrl.stopping = false) (hspawned : s'.spawned = s.spawned) :
    s'.vacant job = s.vacant job :=
  h.vacant_eq hs (fun _ he => by cases he) hstop hspawned

/-- No answer is on its way while the master does not wait for one. -/
theorem Fit.no_reply (h : Fit job s) (hc : ∀ ph w, s.ctrl ≠ .await ph w) (p : ℕ) :
    (s.servers p).reply = none := by
  cases hr : (s.servers p).reply with
  | none => rfl
  | some a =>
    obtain ⟨w, hw, -⟩ := h.polls.awaited p a.1 (.inr ⟨a.2, hr⟩)
    exact absurd hw (hc a.1 w)

/-- The master sends a request: a task in one of the loops, a task again, a poll, or a stop. -/
theorem Fit.send (h : Fit job s) {req : Request} {phases : Phase → PhaseState}
    (hsend : Sends job s p w req phases c) (hp : s.linked w = some p) :
    Advances job s .master { s.deliver p req with phases := phases, ctrl := c } := by
  have hs : Step job s .master { s.deliver p req with phases := phases, ctrl := c } := .send hsend hp
  cases hsend with
  | @dispatch ph i hc hi =>
    exact .stage (by simp only [hc]; cases ph <;> simp only [Ctrl.stage] <;> omega)
  -- The last step of a restart. The work that grows by it stands behind in the rank.
  | @resend ph w hc hlt =>
    have hvacant := h.vacant_master hs (by rw [hc]; rfl) rfl
    refine .inr (.inl (rank_lt_of_restarts ⟨?_, ?_⟩ ?_))
    · simp only [hc]
      cases ph <;> exact le_rfl
    · unfold State.undone
      simp [hc, Ctrl.phase]
    · have hrest : s.restarts job = 4 * (s.vacant job).card + 1 := by
        unfold State.restarts
        rw [hc]
      rw [hrest, ← hvacant]
      exact Nat.lt_succ_self _
  | noFuture hc hle => exact absurd (h.orderly.control.future hc) (Nat.not_lt.mpr hle)
  -- The master goes into the call. No answer is there yet, so this is one step closer to it.
  | @poll ph w hc =>
    have hreply := h.no_reply (fun ph' w' hc' => by rw [hc] at hc'; cases hc') p
    have hzero : Request.work job s.disk (.isDone ph) = 0 := rfl
    have hwork : (s.deliver p (.isDone ph)).work job = s.work job := State.work_deliver hzero
    have hvacant := h.vacant_master hs (by rw [hc]; rfl) rfl
    have hanswer : ((s.deliver p (.isDone ph)).goto (.await ph w)).answer w = none := by
      show (s.linked w).bind _ = none
      rw [hp, Option.bind_some]
      simp only [State.goto, State.deliver_self]
      exact hreply
    show Advances job s .master ((s.deliver p (.isDone ph)).goto (.await ph w))
    refine .sweep (by rw [hc]; rfl) rfl (by rw [hc]; rfl) ?_ hvacant hwork
      (fun _ => Prod.Lex.toLex_lt_toLex.mpr (.inr ⟨?_, ?_⟩)) (fun q => ?_) fun q t ht => ?_
    · unfold State.undone
      rw [hc]
      rfl
    · simp only [State.stale, hc]
      rw [show ((s.deliver p (.isDone ph)).goto (.await ph w)).ctrl = .await ph w from rfl]
      simp only [hanswer]
      rfl
    · simp only [State.position, hc]
      rw [show ((s.deliver p (.isDone ph)).goto (.await ph w)).ctrl = .await ph w from rfl]
      simp only [hanswer, Option.isSome_none, Bool.false_eq_true, if_false]
      omega
    · simp only [State.goto]
      by_cases hq : q = p
      · subst hq
        rw [State.deliver_self]
        rfl
      · rw [State.deliver_ne s _ hq]
    · simp only [State.goto]
      by_cases hq : q = p
      · subst hq
        rw [State.deliver_self, Server.receive]
        simp only
        split
        · exact List.mem_append_left _ ht
        · exact ht
      · rwa [State.deliver_ne s _ hq]
  | stop hc hi => exact .stage (by simp only [hc, Ctrl.stage]; omega)

/-- The answer of a worker is noted. A positive one makes the tasks fewer, a negative one was
worth as much as it was stale. -/
theorem Fit.answer (h : Fit job s) {status : Bool} (hc : s.ctrl = .await ph w)
    (hp : s.linked w = some p) (hr : (s.servers p).reply = some (ph, status)) :
    Advances job s .master
      (((s.setServer p { s.servers p with reply := none }).credit ph w status).goto
        (.check ph (w + 1))) := by
  have hs : Step job s .master _ := .answer hc hp hr
  have hvacant := h.vacant_master hs (by rw [hc]; rfl) (by cases status <;> rfl)
  cases status with
  | true =>
    -- The counter is not full, since the entry of the worker is not 1.
    obtain ⟨hw, st, hst, hne⟩ := h.orderly.control.pending ph w (by rw [hc]; rfl)
    have hlen : (s.phases ph).taskStatus.length = job.count ph := by
      rw [h.orderly.control.statuses, if_pos (by rw [hc]; cases ph <;> rfl)]
    have hlt : (s.phases ph).nrDone < job.count ph := by
      rw [h.orderly.control.counted, ← hlen]
      refine lt_of_le_of_ne List.count_le_length fun he => hne ?_
      exact (List.count_eq_length.mp he st (List.mem_of_getElem? hst)).symm
    refine .inr (.inl (rank_lt_of_undone ?_ ?_))
    · rw [Ctrl.stage_of_resting job.nrMapper (c := s.ctrl) (by rw [hc]; rfl) rfl (by rw [hc]; rfl)]
    · have hundone : s.undone job = job.count ph - (s.phases ph).nrDone := by
        unfold State.undone
        rw [hc]
        rfl
      rw [hundone]
      show job.count ph - _ < _
      simp only [State.goto, State.credit, State.setPhase, State.setServer, if_true,
        Function.update_self, Ctrl.phase]
      omega
  -- A negative answer was given before the task was done: it is stale, and gone with this step.
  | false =>
    refine .sweep (by rw [hc]; rfl) rfl (by rw [hc]; rfl) ?_ hvacant ?_
      (fun _ => Prod.Lex.toLex_lt_toLex.mpr (.inl ?_)) (fun q => ?_) fun q t ht => ?_
    · unfold State.undone
      rw [hc]
      rfl
    · refine State.work_congr rfl fun q => ?_
      refine State.forall_setServer
        (P := fun q v => v.work job s.disk = (s.servers q).work job s.disk)
        ?_ (fun _ => rfl) q
      rfl
    · have hanswer : s.answer w = some (ph, false) := by
        unfold State.answer
        rw [hp, Option.bind_some, hr]
      simp only [State.stale, hc, hanswer, State.goto]
      exact Nat.zero_lt_one
    · exact State.forall_setServer (v := { s.servers p with reply := none })
        (P := fun q v => v.running = (s.servers q).running) rfl (fun _ => rfl) q
    · exact State.forall_setServer (v := { s.servers p with reply := none })
        (P := fun q v => .task t ∈ (s.servers q).inbox → .task t ∈ v.inbox) id (fun _ => id) q ht

/-- No access is out of bounds, the counts being equal. -/
theorem Fit.defined_step (h : Fit job s) (hs : Step job s l s') : s'.ctrl ≠ .undefined := by
  rcases hs.defined h.orderly.control h.defined with hdef | ⟨w, hc, hle, hlt⟩
  · exact hdef
  · exact absurd hlt (Nat.not_lt.mpr (h.sound.square ▸ hle))

/-- **What the master does**: it returns, comes closer to that, or goes round. -/
theorem Fit.master (h : Fit job s) (hs : Step job s .master s') : Advances job s .master s' := by
  have hdef := h.defined_step hs
  cases hs with
  | goto hg => exact h.goto hg hdef
  | fork hc hi => exact .stage (by simp only [State.goto, hc, Ctrl.stage]; omega)
  -- The fork fills the place of a vacant worker.
  | @refork ph w hc =>
    obtain ⟨p, hcl⟩ := h.orderly.topology.down ph w (.inl hc)
    have hw := (h.orderly.control.pending ph w (by rw [hc]; rfl)).1
    have hmem : w ∈ s.vacant job :=
      h.vacant_of_gone hw hcl fun ph' hc' => by rw [hc] at hc'; cases hc'
    have hcard := State.vacant_spawn hmem
    refine .inr (.inl (rank_lt_of_restarts ⟨?_, ?_⟩ ?_))
    · simp only [State.goto, hc]
      cases ph <;> exact le_rfl
    · unfold State.undone
      rw [hc]
      exact le_rfl
    · have hrest : s.restarts job = 4 * (s.vacant job).card - 1 := by
        unfold State.restarts
        rw [hc]
      have hrest' : ((s.spawn w).goto (.reconnect ph w)).restarts job =
          4 * ((s.spawn w).vacant job).card + 2 := rfl
      omega
  | client hc hi => exact .stage (by simp only [hc, Ctrl.stage]; omega)
  | @reclient ph w hc hw =>
    refine .inr (.inl (rank_lt_of_restarts ⟨?_, ?_⟩ ?_))
    · simp only [hc]
      cases ph <;> exact le_rfl
    · unfold State.undone
      rw [hc]
      exact le_rfl
    · have hrest : s.restarts job = 4 * (s.vacant job).card + 2 := by
        unfold State.restarts
        rw [hc]
      rw [hrest]
      exact Nat.lt_succ_self _
  | send hsend hp => exact h.send hsend hp
  | @status ph i hc hi =>
    exact .stage
      (by simp only [State.goto, hc]; cases ph <;> simp only [Ctrl.stage, Ctrl.phase] <;> omega)
  | answer hc hp hr => exact h.answer hc hp hr

/-! ### The others

Whoever is not the master changes only what stands behind in the rank: the work, by doing it,
and the place, where it is something the master waits for. -/

/-- Only the master moves itself and touches its own variables. -/
theorem Step.environment (hs : Step job s l s') (hm : l ≠ .master) :
    s'.ctrl = s.ctrl ∧ s'.phases = s.phases ∧ s'.spawned = s.spawned := by
  cases hs <;> first | exact ⟨rfl, rfl, rfl⟩ | exact absurd rfl hm

/-- Whoever is not the master leaves the front of the rank as it is. -/
theorem Fit.front (h : Fit job s) (hs : Step job s l s') (hm : l ≠ .master) (hl : CrashFree s l) :
    s'.undone job = s.undone job ∧ s'.restarts job = s.restarts job := by
  obtain ⟨hctrl, hphases, hspawned⟩ := hs.environment hm
  refine ⟨by unfold State.undone; rw [hctrl, hphases], ?_⟩
  unfold State.restarts
  rw [hctrl]
  cases hstop : s.ctrl.stopping with
  | false => rw [h.vacant_eq hs hl hstop hspawned]
  | true => cases hc : s.ctrl <;> first | rfl | (rw [hc] at hstop; cases hstop)

/-- A step that leaves what the master looks at as it is: the client it calls through, the
answer it waits for, the connection it is about to test. -/
theorem State.place_congr (hctrl : s'.ctrl = s.ctrl) (hphases : s'.phases = s.phases)
    (hwork : s'.work job = s.work job)
    (hcalls : ∀ w, s.ctrl.calls = some w →
      (s'.clientPool[w]? = some .initial ↔ s.clientPool[w]? = some .initial))
    (hanswer : ∀ ph w, s.ctrl = .await ph w → s'.answer w = s.answer w)
    (hnotice : ∀ ph w, s.ctrl = .check ph w → s'.unnoticed w = s.unnoticed w) :
    s'.place job = s.place job := by
  have hstale : s'.stale = s.stale := by
    unfold State.stale
    rw [hctrl]
    cases hc : s.ctrl with
    | await ph w => simp only [hanswer ph w hc]
    | _ => rfl
  have hposition : s'.position job = s.position job := by
    have hwaits : (if s.ctrl.calls.any (fun w => s'.clientPool[w]? = some .initial) then 1 else 0) =
        if s.ctrl.calls.any (fun w => s.clientPool[w]? = some .initial) then 1 else 0 := by
      cases hw : s.ctrl.calls with
      | none => rfl
      | some w => simp only [Option.any_some, hcalls w hw]
    unfold State.position
    rw [hctrl]
    cases hc : s.ctrl with
    | check ph w =>
      have hahead : s'.ahead ph w = s.ahead ph w := by rw [State.ahead, hphases, State.ahead]
      simp only [hahead, hnotice ph w hc]
    | poll ph w => rfl
    | await ph w => simp only [hanswer ph w hc]
    | sweepEnd ph => rfl
    | _ => rw [hc] at hwaits; exact hwaits
  have hworking : s'.Working job ↔ s.Working job := by
    unfold State.Working
    rw [hctrl, hwork]
  unfold State.place
  simp only [hworking, hstale, hposition]

/-- So does the rank stay, where neither work nor place change, -/
theorem Fit.rank_eq (h : Fit job s) (hs : Step job s l s') (hm : l ≠ .master) (hl : CrashFree s l)
    (hwork : s'.work job = s.work job) (hplace : s'.place job = s.place job) :
    s'.rank job = s.rank job := by
  obtain ⟨hundone, hrestarts⟩ := h.front hs hm hl
  exact MapReduceCpp.rank_eq (by rw [(hs.environment hm).1]) hundone hrestarts hwork hplace

/-- and it gets lower where one of them does. -/
theorem Fit.rank_lt (h : Fit job s) (hs : Step job s l s') (hm : l ≠ .master) (hl : CrashFree s l)
    (hlt : s'.work job < s.work job ∨ s'.work job = s.work job ∧ s'.place job < s.place job) :
    Advances job s l s' := by
  obtain ⟨hundone, hrestarts⟩ := h.front hs hm hl
  have hlater : NoLater job s s' := ⟨by rw [(hs.environment hm).1], hundone.le⟩
  rcases hlt with hwork | ⟨hwork, hplace⟩
  · exact .inr (.inl (rank_lt_of_work hlater hrestarts.le hwork))
  · exact .inr (.inl (rank_lt_of_place hlater hrestarts.le hwork.le hplace))

theorem Fit.work_start (h : Fit job s) {k : ℕ} (hk : (s.servers p).inbox[k]? = some (.task t)) :
    (s.setServer p
      { s.servers p with
        inbox := (s.servers p).inbox.eraseIdx k
        running := (s.servers p).running ++ [⟨t, job.program t, []⟩] }).work job < s.work job := by
  have hlive := (h.orderly.waiting (List.mem_of_getElem? hk)).1
  refine State.work_lt (p := p) rfl (h.orderly.topology.lt_of_alive hlive)
    (fun q hq => by rw [State.setServer_ne s _ hq]; rfl) ?_
  rw [State.setServer_self]
  unfold Server.work
  rw [sum_map_eraseIdx hk]
  simp only [State.setServer, List.map_append, List.sum_append, List.map_cons, List.map_nil,
    List.sum_cons, List.sum_nil, Request.work]
  omega

/-- So is the end of a handler, -/
theorem Fit.work_finish (h : Fit job s) {k : ℕ} {e : Exec} {v : Server}
    (hk : (s.servers p).running[k]? = some e) (hinbox : v.inbox = (s.servers p).inbox)
    (hrunning : v.running = (s.servers p).running.eraseIdx k) :
    (s.setServer p v).work job < s.work job := by
  have hlive := (h.orderly.running (List.mem_of_getElem? hk)).1
  refine State.work_lt (p := p) rfl (h.orderly.topology.lt_of_alive hlive)
    (fun q hq => by rw [State.setServer_ne s _ hq]; rfl) ?_
  rw [State.setServer_self]
  unfold Server.work
  rw [hinbox, hrunning, sum_map_eraseIdx hk]
  simp only [State.setServer]
  omega

theorem Fit.work_op (h : Fit job s) {k : ℕ} {e : Exec} {prog : FileProg Path Char TaskResult}
    (hk : (s.servers p).running[k]? = some e) (hop : e.prog.step .all s.disk = some (prog, d)) :
    (s.perform p k e prog d).work job < s.work job := by
  have hstays :=
    fun q => @work_stays job s p q d h.sound h.orderly h.credit h.confined k e prog hk hop
  -- On the new disk the requests and controllers of before are as much work as they were.
  have hsame : ∀ q, (s.servers q).work job d = (s.servers q).work job s.disk := by
    intro q
    unfold Server.work
    rw [List.map_congr_left (hstays q).1,
      List.map_congr_left fun e' he' => congrArg (· + 1) ((hstays q).2 e' he')]
  have hlive := (h.orderly.running (List.mem_of_getElem? hk)).1
  refine State.work_lt (p := p) rfl (h.orderly.topology.lt_of_alive hlive) (fun q hq => ?_) ?_
  · rw [← hsame q]
    exact congrArg (Server.work job d) (State.setServer_ne s _ hq)
  · rw [← hsame p, State.perform, State.setServer_self]
    unfold Server.work
    have hset := sum_map_set hk ⟨e.task, prog, openedAfter e.prog e.opened⟩
      (fun e => e.prog.length .all d + 1)
    have hlen := length_of_step hop
    have hlen' := (hstays p).2 e (List.mem_of_getElem? hk)
    simp only at hset ⊢
    omega

/-- Outside the loops that connect and restart workers all clients have been connected. -/
theorem Fit.not_initial (h : Fit job s) (hrest : s.ctrl.resting = true) (w : ℕ) :
    s.clientPool[w]? ≠ some .initial := by
  intro hcl
  have hdue := h.orderly.topology.initial w hcl
  cases hc : s.ctrl with
  | check ph w' | poll ph w' | await ph w' | sweepEnd ph =>
    rw [hc] at hdue
    cases hdue
  | _ =>
    rw [hc] at hrest
    cases hrest

/-- A process whose work is done says so: its task was sent, does not wait and is not run, so it
has returned, and the flag is set. -/
theorem Fit.completed (h : Fit job s) (hzero : s.work job = 0) (hc : s.ctrl = .await ph w)
    (hp : s.linked w = some p) (hlive : (s.servers p).alive = true) :
    (s.servers p).completed ph = true := by
  have hlt := h.orderly.topology.lt_of_alive hlive
  have hnone := Server.work_eq_zero.mp (Finset.sum_eq_zero_iff.mp hzero p (Finset.mem_range.mpr hlt))
  have hdue := h.orderly.accounting.due w p hp
  rw [hc] at hdue
  have hcons := (h.orderly.coherent p).conserved hlive ⟨ph, w⟩
  have hwaiting : (s.servers p).waiting ⟨ph, w⟩ = 0 := List.count_eq_zero.mpr (hnone.1 _)
  have hprogress : (s.servers p).inProgress ⟨ph, w⟩ = 0 := by
    rw [Server.inProgress, hnone.2]
    rfl
  refine h.flagged p ⟨ph, w⟩ ?_
  simp only [Ctrl.phase, Ctrl.due, if_true] at hdue
  omega

/-- A poll is answered. While tasks are pending the answer changes nothing; afterwards it is
positive and brings the master closer. -/
theorem Fit.reply (h : Fit job s) {k : ℕ} (hk : (s.servers p).inbox[k]? = some (.isDone ph))
    (hs : Step job s (.execute p k) (s.setServer p
      { s.servers p with
        inbox := (s.servers p).inbox.eraseIdx k
        reply := some (ph, (s.servers p).completed ph) })) :
    Advances job s (.execute p k) (s.setServer p
      { s.servers p with
        inbox := (s.servers p).inbox.eraseIdx k
        reply := some (ph, (s.servers p).completed ph) }) := by
  have hm : Label.execute p k ≠ .master := fun he => by cases he
  have hl : CrashFree s (.execute p k) := fun _ he => by cases he
  have hmem := List.mem_of_getElem? hk
  obtain ⟨w, hc, hp⟩ := h.polls.awaited p ph (.inl hmem)
  have hrest : s.ctrl.resting = true := by rw [hc]; rfl
  have hwork : (s.setServer p
      { s.servers p with
        inbox := (s.servers p).inbox.eraseIdx k
        reply := some (ph, (s.servers p).completed ph) }).work job = s.work job := by
    refine State.work_congr rfl fun q => State.forall_setServer
      (P := fun q v => v.work job s.disk = (s.servers q).work job s.disk) ?_ (fun _ => rfl) q
    unfold Server.work
    rw [sum_map_eraseIdx hk]
    rfl
  by_cases hw : s.Working job
  · have hw' : State.Working job (s.setServer p
        { s.servers p with
          inbox := (s.servers p).inbox.eraseIdx k
          reply := some (ph, (s.servers p).completed ph) }) := ⟨hrest, by rw [hwork]; exact hw.2⟩
    exact .inr (.inr ⟨h.rank_eq hs hm hl hwork (by rw [place_of_working hw, place_of_working hw']),
      .reply hw hk hw'⟩)
  · have hzero : s.work job = 0 := by
      by_contra hne
      exact hw ⟨hrest, hne⟩
    have hlive : (s.servers p).alive = true := by
      by_contra hdead
      rw [((h.orderly.coherent p).dead (Bool.eq_false_iff.mpr hdead)).1] at hmem
      cases hmem
    -- There is no other answer, and this one is positive.
    have hnone : (s.servers p).reply = none := by
      have hone := h.polls.le_one p
      have hpos : 0 < (s.servers p).inbox.countP Request.isPoll :=
        List.countP_pos_iff.mpr ⟨_, hmem, rfl⟩
      unfold Server.polls at hone
      by_contra hne
      rw [if_neg hne] at hone
      omega
    have hanswer : s.answer w = none := by
      rw [State.answer, hp, Option.bind_some, hnone]
    refine h.rank_lt hs hm hl (.inr ⟨hwork, ?_⟩)
    rw [place_of_not_working hw, place_of_not_working fun hw' => hw'.2 (hwork.trans hzero)]
    generalize hs' : s.setServer p
      { s.servers p with
        inbox := (s.servers p).inbox.eraseIdx k
        reply := some (ph, (s.servers p).completed ph) } = s'
    have hctrl : s'.ctrl = .await ph w := by rw [← hs']; exact hc
    have hanswer' : s'.answer w = some (ph, true) := by
      rw [← hs', State.answer, show (s.setServer p _).linked w = some p from hp, Option.bind_some,
        State.setServer_self, h.completed hzero hc hp hlive]
    refine Prod.Lex.toLex_lt_toLex.mpr (.inr ⟨?_, ?_⟩)
    · simp [State.stale, hctrl, hc, hanswer, hanswer']
    · simp [State.position, hctrl, hc, hanswer, hanswer']

/-- A process is stopped, and with it goes what it still had to do. The master is in its last
loop and does not look. -/
theorem Fit.exit (h : Fit job s) {k : ℕ} (hk : (s.servers p).inbox[k]? = some .stopServer)
    (hs : Step job s (.execute p k) (s.setServer p (s.servers p).terminate)) :
    Advances job s (.execute p k) (s.setServer p (s.servers p).terminate) := by
  have hm : Label.execute p k ≠ .master := fun he => by cases he
  have hl : CrashFree s (.execute p k) := fun _ he => by cases he
  have hstop := h.orderly.accounting.stops p (h.delivered p _ (List.mem_of_getElem? hk))
  have hle : (s.setServer p (s.servers p).terminate).work job ≤ s.work job := by
    refine State.work_le (p := p) rfl (fun q hq => by rw [State.setServer_ne s _ hq]; rfl) ?_
    rw [State.setServer_self]
    exact Nat.zero_le _
  rcases hle.lt_or_eq with hlt | heq
  · exact h.rank_lt hs hm hl (.inl hlt)
  · refine .inr (.inr ⟨h.rank_eq hs hm hl heq ?_, .exit hstop hk⟩)
    refine State.place_congr rfl rfl heq (fun _ _ => Iff.rfl) (fun ph w hc => ?_) fun ph w hc => ?_
    · rw [hc] at hstop
      cases hstop
    · rw [hc] at hstop
      cases hstop

theorem State.stale_of_free (h : s.ctrl.resting = false) : s.stale = 0 := by
  unfold State.stale
  cases hc : s.ctrl <;> first | rfl | (rw [hc] at h; cases h)

theorem State.position_of_free (h : s.ctrl.resting = false) : s.position job =
    if s.ctrl.calls.any (fun w => s.clientPool[w]? = some .initial) then 1 else 0 := by
  unfold State.position
  cases hc : s.ctrl <;> first | rfl | (rw [hc] at h; cases h)

/-- A connection is made. It is progress if the master waits for it, and it can be made only
where the master is outside the sweeps. -/
theorem Fit.connect (h : Fit job s) (hcl : s.clientPool[w]? = some .initial)
    (hs : Step job s (.connect w p) { s with clientPool := s.clientPool.set w (.connected p) }) :
    Advances job s (.connect w p) { s with clientPool := s.clientPool.set w (.connected p) } := by
  have hm : Label.connect w p ≠ .master := fun he => by cases he
  have hl : CrashFree s (.connect w p) := fun _ he => by cases he
  have hlen := (List.getElem?_eq_some_iff.mp hcl).1
  have hfree : s.ctrl.resting = false := by
    cases hrest : s.ctrl.resting with
    | false => rfl
    | true => exact absurd hcl (h.not_initial hrest w)
  have hw : ¬ s.Working job := fun hw => by rw [hw.1] at hfree; cases hfree
  by_cases hcalls : s.ctrl.calls = some w
  · -- The master waits for it.
    refine h.rank_lt hs hm hl (.inr ⟨rfl, ?_⟩)
    generalize hs' : { s with clientPool := s.clientPool.set w (.connected p) } = s'
    have hfree' : s'.ctrl.resting = false := by rw [← hs']; exact hfree
    have hw' : ¬ s'.Working job := by rw [← hs']; exact hw
    have hcalls' : s'.ctrl.calls = some w := by rw [← hs']; exact hcalls
    have hcl' : s'.clientPool[w]? = some (.connected p) := by
      rw [← hs']
      exact List.getElem?_set_self hlen
    rw [place_of_not_working hw, place_of_not_working hw', State.stale_of_free hfree,
      State.stale_of_free hfree', State.position_of_free hfree, State.position_of_free hfree']
    refine Prod.Lex.toLex_lt_toLex.mpr (.inr ⟨rfl, ?_⟩)
    simp [hcalls, hcalls', hcl, hcl']
  · refine .inr (.inr ⟨h.rank_eq hs hm hl rfl ?_, .connect hcalls hcl⟩)
    refine State.place_congr rfl rfl rfl (fun w' hw' => ?_) (fun ph w' hc => ?_) fun ph w' hc => ?_
    · have hne : w ≠ w' := fun he => hcalls (he ▸ hw')
      rw [List.getElem?_set_ne hne]
    · rw [hc] at hfree
      cases hfree
    · rw [hc] at hfree
      cases hfree

/-- A connection is found to be gone. It is progress if the master is about to test it, and
otherwise does no harm. -/
theorem Fit.disconnect (h : Fit job s) (hcl : s.clientPool[w]? = some (.connected p))
    (hdead : (s.servers p).alive = false)
    (hs : Step job s (.disconnect w) { s with clientPool := s.clientPool.set w (.disconnected p) }) :
    Advances job s (.disconnect w) { s with clientPool := s.clientPool.set w (.disconnected p) } := by
  have hm : Label.disconnect w ≠ .master := fun he => by cases he
  have hl : CrashFree s (.disconnect w) := fun _ he => by cases he
  have hlen := (List.getElem?_eq_some_iff.mp hcl).1
  by_cases hw : s.Working job
  · have hw' : State.Working job { s with clientPool := s.clientPool.set w (.disconnected p) } := hw
    exact .inr (.inr ⟨h.rank_eq hs hm hl rfl (by rw [place_of_working hw, place_of_working hw']),
      .disconnect (.inl hw) hcl⟩)
  by_cases hcheck : ∃ ph, s.ctrl = .check ph w
  · -- The master is about to test it.
    obtain ⟨ph, hc⟩ := hcheck
    refine h.rank_lt hs hm hl (.inr ⟨rfl, ?_⟩)
    have hw' : ¬ State.Working job { s with clientPool := s.clientPool.set w (.disconnected p) } := hw
    rw [place_of_not_working hw, place_of_not_working hw']
    refine Prod.Lex.toLex_lt_toLex.mpr (.inr ⟨?_, ?_⟩)
    · simp only [State.stale, hc]
    · simp [State.position, hc, State.ahead, State.unnoticed, List.getElem?_set_self hlen, hcl, hdead]
  · push Not at hcheck
    refine .inr (.inr ⟨h.rank_eq hs hm hl rfl ?_, .disconnect (.inr hcheck) hcl⟩)
    refine State.place_congr rfl rfl rfl (fun w' _ => ?_) (fun ph w' _ => ?_) fun ph w' hc => ?_
    · by_cases hne : w = w'
      · subst hne
        rw [List.getElem?_set_self hlen, hcl]
        exact ⟨fun he => (by cases he), fun he => (by cases he)⟩
      · rw [List.getElem?_set_ne hne]
    · rw [State.answer, State.linked_disconnect hcl]
      rfl
    · have hne : w ≠ w' := fun he => hcheck ph (he ▸ hc)
      simp only [State.unnoticed, List.getElem?_set_ne hne]

/-- **What anybody can do**: nothing makes the return of `process` more distant, but a
death. -/
theorem Fit.advances (h : Fit job s) (hs : Step job s l s') (hl : CrashFree s l) :
    Advances job s l s' := by
  by_cases hm : l = .master
  · subst hm
    exact h.master hs
  cases hs with
  | connect hcl hlive hw => exact h.connect hcl (.connect hcl hlive hw)
  | disconnect hcl hdead => exact h.disconnect hcl hdead (.disconnect hcl hdead)
  | start hlen hk => exact h.rank_lt (.start hlen hk) hm hl (.inl (h.work_start hk))
  | reply hlen hk => exact h.reply hk (.reply hlen hk)
  | exit hlen hk => exact h.exit hk (.exit hlen hk)
  | op hk hop => exact h.rank_lt (.op hk hop) hm hl (.inl (h.work_op hk hop))
  | finish hk hprog hres =>
    exact h.rank_lt (.finish hk hprog hres) hm hl (.inl (h.work_finish hk rfl rfl))
  -- No exception leaves a controller of such a run.
  | @fault pid k e res fault hk hprog hres =>
    obtain ⟨code, hcode⟩ := h.ends pid e (List.mem_of_getElem? hk) res hprog
    rw [hres] at hcode
    cases hcode
  | kill _ => exact absurd rfl (hl _)
  | _ => exact absurd rfl hm

end MapReduceCpp
