import MapReduceCpp.Process.Step

/-!
# MapReduceCpp.Process.Control

The master's own variables, at every point of `process`.

`Control` relates the program counter to the client pool, the future pools, the
status vectors and the counters: how long each vector is, that a counter is the
number of entries that are 1, that the worker the master is busy with is one whose
task is not done, and that a phase that has been left is done for all its entries.
It holds for every pair of counts and under every fault, because the environment
touches none of these variables. What follows is that the only access out of
bounds the code can make is that to a status vector shorter than the loop over it
(`Control.undefined_of_goto`).
-/

namespace MapReduceCpp

variable {job : Job} {s s' : State} {l : Label} {c : Ctrl} {ph ph' : Phase} {w : ℕ}

namespace Ctrl

/-- The phase the master is in. -/
def phase : Ctrl → Phase
  | fork _ | connect _ => .map
  | dispatch ph _ | check ph _ | refork ph _ | reconnect ph _ | resend ph _ | poll ph _
  | await ph _ | sweepEnd ph => ph
  | stop _ | returned | undefined => .reduce

/-- The worker whose task the master has found not to be done, from the moment it has read the
status until it goes on to the next worker. -/
def about : Ctrl → Option (Phase × ℕ)
  | refork ph w | reconnect ph w | resend ph w | poll ph w | await ph w => some (ph, w)
  | _ => none

/-- The number of clients that have been created. -/
def clients (n : ℕ) : Ctrl → ℕ
  | fork _ => 0
  | connect i => i
  | _ => n

/-- The number of tasks of its phase the master has sent in the first place. -/
def progress (n : ℕ) : Ctrl → ℕ
  | fork _ | connect _ => 0
  | dispatch _ i => i
  | _ => n

/-- The master is in the heart-beat loop of its phase, or behind it. -/
def inLoop : Ctrl → Bool
  | fork _ | connect _ | dispatch _ _ => false
  | _ => true

/-- The master has left the heart-beat loop of the reduce phase. -/
def stopping : Ctrl → Bool
  | stop _ | returned => true
  | _ => false

/-- The number of tasks of a phase that have been sent in the first place: all of the phases
behind it, and none of those to come. -/
def dispatched (n : ℕ) (c : Ctrl) (ph : Phase) : ℕ :=
  if c.phase = ph then c.progress n else if ph = .map then n else 0

/-- The status vector of a phase has been created. -/
def started (c : Ctrl) (ph : Phase) : Bool :=
  if c.phase = ph then c.inLoop else ph = .map

/-- The heart-beat loop of a phase has been left. -/
def finished (c : Ctrl) (ph : Phase) : Bool :=
  match ph with
  | .map => c.phase = .reduce
  | .reduce => c.stopping

end Ctrl

/-- The master's variables are what its place in `process` says. Each field is an equation with
a measure of the place, so that a step has to be compared with the measures only. -/
structure Control (job : Job) (s : State) : Prop where
  /-- A client has been created for each port, or the loop is still at it. -/
  pool : s.clientPool.length = s.ctrl.clients job.nrMapper
  bound : s.ctrl.clients job.nrMapper ≤ job.nrMapper ∧ s.ctrl.progress job.nrMapper ≤ job.nrMapper
  /-- A pool has a future for each task that was sent in the first place. -/
  futures : ∀ ph, (s.phases ph).futurePool.length = s.ctrl.dispatched job.nrMapper ph
  /-- A status vector is as long as its phase has tasks to count, though the loop runs over the
  mappers. -/
  statuses : ∀ ph, (s.phases ph).taskStatus.length = if s.ctrl.started ph then job.count ph else 0
  /-- The counter of a phase counts the entries that are 1. -/
  counted : ∀ ph, (s.phases ph).nrDone = (s.phases ph).taskStatus.count 1
  /-- The master restarts and polls only workers whose entry is not 1. -/
  pending : ∀ ph w, s.ctrl.about = some (ph, w) → w < job.nrMapper ∧
    ∃ st, (s.phases ph).taskStatus[w]? = some st ∧ st ≠ 1
  /-- A phase is left only when all entries are 1. -/
  finished : ∀ ph, s.ctrl.finished ph = true →
    ∀ w < job.count ph, (s.phases ph).taskStatus[w]? = some 1

theorem control_init (d : Disk) : Control job (.init d) where
  pool := rfl
  bound := ⟨Nat.zero_le _, Nat.zero_le _⟩
  futures := by intro ph; cases ph <;> rfl
  statuses := by intro ph; cases ph <;> rfl
  counted := by intro ph; rfl
  pending := by intro ph w h; cases h
  finished := by intro ph h; cases ph <;> cases h

/-- Steps that leave the master's variables alone keep the invariant: all steps of the workers,
and those of the connections as well. -/
theorem Control.congr (h : Control job s) (hctrl : s'.ctrl = s.ctrl)
    (hpool : s'.clientPool.length = s.clientPool.length) (hphases : s'.phases = s.phases) :
    Control job s' := by
  obtain ⟨hp, hb, hf, hs, hc, hpe, hfi⟩ := h
  constructor <;> simp only [hctrl, hpool, hphases] <;> assumption

/-- A client that the master can ask for exists. -/
theorem Control.client (h : Control job s) (hinit : s.ctrl.clients job.nrMapper = job.nrMapper)
    (hw : w < job.nrMapper) : ∃ client, s.clientPool[w]? = some client := by
  have hlen : w < s.clientPool.length := by rw [h.pool, hinit]; exact hw
  exact ⟨_, List.getElem?_eq_getElem hlen⟩

/-- A full count is a vector of ones. This is where the counter of the source earns its meaning. -/
theorem Control.all_done (h : Control job s) (hstarted : s.ctrl.started ph = true)
    (hdone : (s.phases ph).nrDone = job.count ph) :
    ∀ w < job.count ph, (s.phases ph).taskStatus[w]? = some 1 := by
  have hlen : (s.phases ph).taskStatus.length = job.count ph := by
    rw [h.statuses, if_pos hstarted]
  have hcount : (s.phases ph).taskStatus.count 1 = (s.phases ph).taskStatus.length := by
    rw [← h.counted, hdone, hlen]
  have hall := List.count_eq_length.mp hcount
  intro w hw
  have hw' : w < (s.phases ph).taskStatus.length := by rw [hlen]; exact hw
  rw [List.getElem?_eq_getElem hw', ← hall _ (List.getElem_mem hw')]

/-- Of the accesses through a client none is out of bounds: wherever one is made, all clients
have been created. -/
theorem Control.noClient (h : Control job s)
    (hc : ∃ ph, s.ctrl = .dispatch ph w ∧ w < job.nrMapper ∨
      s.ctrl = .check ph w ∧ w < job.nrMapper ∨ s.ctrl = .reconnect ph w ∨
      s.ctrl = .resend ph w ∨ s.ctrl = .poll ph w ∨ s.ctrl = .stop w ∧ w < job.nrMapper) :
    s.clientPool[w]? ≠ none := by
  -- In a loop the test bounds the index, elsewhere it is that of a pending worker.
  have key : s.ctrl.clients job.nrMapper = job.nrMapper ∧ w < job.nrMapper := by
    obtain ⟨ph, hc⟩ := hc
    rcases hc with ⟨hc, hw⟩ | ⟨hc, hw⟩ | hc | hc | hc | ⟨hc, hw⟩
    · exact ⟨by rw [hc]; rfl, hw⟩
    · exact ⟨by rw [hc]; rfl, hw⟩
    · exact ⟨by rw [hc]; rfl, (h.pending ph w (by rw [hc]; rfl)).1⟩
    · exact ⟨by rw [hc]; rfl, (h.pending ph w (by rw [hc]; rfl)).1⟩
    · exact ⟨by rw [hc]; rfl, (h.pending ph w (by rw [hc]; rfl)).1⟩
    · exact ⟨by rw [hc]; rfl, hw⟩
  obtain ⟨client, hclient⟩ := h.client key.1 key.2
  rw [hclient]
  exact Option.some_ne_none client

/-- The accesses to the future pools are in bounds. -/
theorem Control.future (h : Control job s) (hc : s.ctrl = .resend ph w) :
    w < (s.phases ph).futurePool.length := by
  have hw := (h.pending ph w (by rw [hc]; rfl)).1
  rw [h.futures, hc]
  simpa [Ctrl.dispatched, Ctrl.phase, Ctrl.progress] using hw

/-- The one access that can be out of bounds is that to the status vector, when the loop over
the mappers goes on behind its end. -/
theorem Control.undefined_of_goto (h : Control job s) (hg : Goto job s .undefined) :
    ∃ w, s.ctrl = .check .reduce w ∧ job.nrReducer ≤ w ∧ w < job.nrMapper := by
  cases hg with
  | noStatus hc hw hnone =>
    rename_i ph w
    have hlen := h.statuses ph
    rw [hc] at hlen
    rw [List.getElem?_eq_none_iff, hlen] at hnone
    cases ph with
    | map => exact absurd hw (Nat.not_lt.mpr hnone)
    | reduce => exact ⟨w, hc, hnone, hw⟩
  | noClient hc hnone => exact absurd hnone (h.noClient hc)

/-- The invariant of a new place, when the status vectors and counters stay. What is left to
show is about the place alone; the last hypothesis says how a phase comes to be finished. -/
theorem Control.move (h : Control job s)
    (hpool : s'.clientPool.length = s'.ctrl.clients job.nrMapper)
    (hbound : s'.ctrl.clients job.nrMapper ≤ job.nrMapper ∧
      s'.ctrl.progress job.nrMapper ≤ job.nrMapper)
    (hfut : ∀ ph, (s'.phases ph).futurePool.length = s'.ctrl.dispatched job.nrMapper ph)
    (hsame : ∀ ph, (s'.phases ph).taskStatus = (s.phases ph).taskStatus ∧
      (s'.phases ph).nrDone = (s.phases ph).nrDone)
    (hstart : ∀ ph, s'.ctrl.started ph = s.ctrl.started ph)
    (habout : ∀ ph w, s'.ctrl.about = some (ph, w) → w < job.nrMapper ∧
      ∃ st, (s.phases ph).taskStatus[w]? = some st ∧ st ≠ 1)
    (hfin : ∀ ph, s'.ctrl.finished ph = true → s.ctrl.finished ph = true ∨
      s.ctrl.started ph = true ∧ (s.phases ph).nrDone = job.count ph) :
    Control job s' := by
  refine ⟨hpool, hbound, hfut, fun ph => ?_, fun ph => ?_, fun ph w hw => ?_, fun ph hph => ?_⟩
  · rw [(hsame ph).1, hstart]
    exact h.statuses ph
  · rw [(hsame ph).1, (hsame ph).2]
    exact h.counted ph
  · rw [(hsame ph).1]
    exact habout ph w hw
  · rw [(hsame ph).1]
    rcases hfin ph hph with hfin | ⟨hstarted, hdone⟩
    · exact h.finished ph hfin
    · exact h.all_done hstarted hdone

/-- A move keeps the invariant. Most moves stay inside a heart-beat loop and change no measure
at all. -/
theorem Control.goto (h : Control job s) (hg : Goto job s c) : Control job (s.goto c) := by
  -- What is left to show of a place, when the vectors are as long as it wants them.
  have key : ∀ c : Ctrl, c.clients job.nrMapper = s.ctrl.clients job.nrMapper →
      c.progress job.nrMapper ≤ job.nrMapper →
      (∀ ph, c.dispatched job.nrMapper ph = s.ctrl.dispatched job.nrMapper ph) →
      (∀ ph, c.started ph = s.ctrl.started ph) →
      (∀ ph w, c.about = some (ph, w) → w < job.nrMapper ∧
        ∃ st, (s.phases ph).taskStatus[w]? = some st ∧ st ≠ 1) →
      (∀ ph, c.finished ph = true → s.ctrl.finished ph = true ∨
        s.ctrl.started ph = true ∧ (s.phases ph).nrDone = job.count ph) →
      Control job (s.goto c) := by
    intro c hcl hpr hdi hst hab hfi
    exact h.move (by rw [State.goto, hcl]; exact h.pool)
      ⟨by rw [State.goto, hcl]; exact h.bound.1, hpr⟩
      (fun ph => by rw [State.goto, hdi]; exact h.futures ph) (fun _ => ⟨rfl, rfl⟩) hst hab hfi
  -- A move inside a heart-beat loop changes none of these measures.
  have hloop : ∀ (ph : Phase) (c₀ c : Ctrl), s.ctrl = c₀ → c₀.phase = ph → c.phase = ph →
      c₀.clients job.nrMapper = job.nrMapper → c.clients job.nrMapper = job.nrMapper →
      c₀.progress job.nrMapper = job.nrMapper → c.progress job.nrMapper = job.nrMapper →
      c₀.inLoop = true → c.inLoop = true → c.stopping = false →
      (∀ ph w, c.about = some (ph, w) → w < job.nrMapper ∧
        ∃ st, (s.phases ph).taskStatus[w]? = some st ∧ st ≠ 1) → Control job (s.goto c) := by
    intro ph c₀ c hc h₀ h₁ hcl₀ hcl₁ hpr₀ hpr₁ hin₀ hin₁ hst hab
    refine key c (by rw [hc, hcl₀, hcl₁]) hpr₁.le (fun ph' => ?_) (fun ph' => ?_) hab
      fun ph' hph' => ?_
    · rw [hc, Ctrl.dispatched, Ctrl.dispatched, h₀, h₁, hpr₀, hpr₁]
    · rw [hc, Ctrl.started, Ctrl.started, h₀, h₁, hin₀, hin₁]
    · left
      cases ph' with
      | map => simpa [Ctrl.finished, hc, h₀, h₁] using hph'
      | reduce => rw [Ctrl.finished, hst] at hph'; cases hph'
  cases hg with
  | forked hc hi =>
    refine key _ (by rw [hc]; rfl) (Nat.zero_le _) (fun ph => by rw [hc]; rfl)
      (fun ph => by rw [hc]; rfl) (fun ph w h => by cases h) fun ph hph => ?_
    cases ph <;> cases hph
  | created hc hi =>
    have hle := h.bound.1
    rw [hc] at hle
    have hlt : job.nrMapper = _ := Nat.le_antisymm hi hle
    refine key _ (by rw [hc]; exact hlt) (Nat.zero_le _) (fun ph => by rw [hc]; rfl)
      (fun ph => by rw [hc]; rfl) (fun ph w h => by cases h) fun ph hph => ?_
    cases ph <;> cases hph
  | skip hc hw hst =>
    exact hloop _ _ _ hc rfl rfl rfl rfl rfl rfl rfl rfl rfl fun ph w h => by cases h
  -- The entry that was just read is the one the places below are about.
  | down hc hw hst hne hcl =>
    refine hloop _ _ _ hc rfl rfl rfl rfl rfl rfl rfl rfl rfl fun ph w h => ?_
    obtain ⟨rfl, rfl⟩ := Prod.mk.inj (Option.some.inj h)
    exact ⟨hw, _, hst, hne⟩
  | up hc hw hst hne hcl hnd =>
    refine hloop _ _ _ hc rfl rfl rfl rfl rfl rfl rfl rfl rfl fun ph w h => ?_
    obtain ⟨rfl, rfl⟩ := Prod.mk.inj (Option.some.inj h)
    exact ⟨hw, _, hst, hne⟩
  | swept hc hw =>
    exact hloop _ _ _ hc rfl rfl rfl rfl rfl rfl rfl rfl rfl fun ph w h => by cases h
  | again hc hne =>
    exact hloop _ _ _ hc rfl rfl rfl rfl rfl rfl rfl rfl rfl fun ph w h => by cases h
  -- The exit test is where a phase becomes finished: the full count is in hand.
  | mapped hc hdone =>
    refine key _ (by rw [hc]; rfl) (Nat.zero_le _) (fun ph => ?_) (fun ph => ?_)
      (fun ph w h => by cases h) fun ph hph => ?_
    · rw [hc]; cases ph <;> rfl
    · rw [hc]; cases ph <;> rfl
    · cases ph with
      | map => exact .inr ⟨by rw [hc]; rfl, hdone⟩
      | reduce => cases hph
  | reduced hc hdone =>
    refine key _ (by rw [hc]; rfl) le_rfl (fun ph => ?_) (fun ph => ?_)
      (fun ph w h => by cases h) fun ph hph => ?_
    · rw [hc]; cases ph <;> rfl
    · rw [hc]; cases ph <;> rfl
    · cases ph with
      | map => exact .inl (by rw [hc]; rfl)
      | reduce => exact .inr ⟨by rw [hc]; rfl, hdone⟩
  | stopped hc hi =>
    exact key _ (by rw [hc]; rfl) le_rfl (fun ph => by rw [hc]; rfl) (fun ph => by rw [hc]; rfl)
      (fun ph w h => by cases h) fun ph hph => .inl (by rw [hc]; cases ph <;> exact hph)
  | noStatus hc hw hnone =>
    -- The vector of the map phase is long enough, so this is the reduce phase.
    obtain ⟨w, hc, -, -⟩ := h.undefined_of_goto (.noStatus hc hw hnone)
    exact key _ (by rw [hc]; rfl) le_rfl (fun ph => by rw [hc]; rfl) (fun ph => by rw [hc]; rfl)
      (fun ph w h => by cases h) fun ph hph => .inl (by rw [hc]; cases ph <;> exact hph)
  | noClient hc hnone => exact absurd hnone (h.noClient hc)

/-- Sending a task or a call keeps the invariant; only the future pools change. -/
theorem Control.send {pid : ℕ} {req : Request} {phases : Phase → PhaseState}
    (h : Control job s) (hs : Sends job s pid w req phases c) :
    Control job { s.deliver pid req with phases := phases, ctrl := c } := by
  have hpool := h.pool
  have hfut := h.futures
  cases hs with
  -- One future more, and one task more that the place counts as sent.
  | dispatch hc hi =>
    rename_i ph
    rw [hc] at hpool
    refine h.move hpool ⟨le_rfl, hi⟩ (fun ph' => ?_) (fun ph' => ?_) (fun ph' => by rw [hc]; rfl)
      (fun ph' w' h' => by cases h') fun ph' hph' => .inl ?_
    · have hlen := hfut ph'
      rw [hc] at hlen
      by_cases hph : ph' = ph
      · subst hph
        simpa [Ctrl.dispatched, Ctrl.phase, Ctrl.progress] using hlen
      · simpa [hph, Ctrl.dispatched, Ctrl.phase, Ne.symm hph] using hlen
    · by_cases hph : ph' = ph
      · subst hph
        simp
      · simp [hph]
    · rw [hc]
      cases ph' <;> exact hph'
  -- The old future is overwritten, so the pool keeps its length.
  | resend hc hlt =>
    rename_i ph
    rw [hc] at hpool
    refine h.move hpool ⟨le_rfl, le_rfl⟩ (fun ph' => ?_) (fun ph' => ?_)
      (fun ph' => by rw [hc]; rfl) (fun ph' w' h' => by cases h') fun ph' hph' => .inl ?_
    · have hlen := hfut ph'
      rw [hc] at hlen
      by_cases hph : ph' = ph
      · subst hph
        simpa [Ctrl.dispatched, Ctrl.phase, Ctrl.progress] using hlen
      · simpa [hph, Ctrl.dispatched, Ctrl.phase, Ne.symm hph] using hlen
    · by_cases hph : ph' = ph
      · subst hph
        simp
      · simp [hph]
    · rw [hc]
      cases ph' <;> exact hph'
  | noFuture hc hle => exact absurd (h.future hc) (Nat.not_lt.mpr hle)
  | poll hc =>
    rw [hc] at hpool
    refine h.move hpool ⟨le_rfl, le_rfl⟩ (fun ph' => ?_) (fun _ => ⟨rfl, rfl⟩)
      (fun ph' => by rw [hc]; rfl) (fun ph' w' h' => ?_) fun ph' hph' => .inl ?_
    · rw [hfut, hc]; rfl
    · exact h.pending ph' w' (by rw [hc]; exact h')
    · rw [hc]
      cases ph' <;> exact hph'
  | stop hc hi =>
    rw [hc] at hpool
    refine h.move hpool ⟨le_rfl, le_rfl⟩ (fun ph' => ?_) (fun _ => ⟨rfl, rfl⟩)
      (fun ph' => by rw [hc]; rfl) (fun ph' w' h' => by cases h') fun ph' hph' => .inl ?_
    · rw [hfut, hc]; rfl
    · rw [hc]
      cases ph' <;> exact hph'

/-- Noting an answer keeps the invariant. It is the only step that changes an entry, and the
entry it changes is the pending one. -/
theorem Control.answer {pid : ℕ} {v : Server} {status : Bool} (h : Control job s)
    (hc : s.ctrl = .await ph w) :
    Control job (((s.setServer pid v).credit ph w status).goto (.check ph (w + 1))) := by
  obtain ⟨hw, st, hst, hne⟩ := h.pending ph w (by rw [hc]; rfl)
  have hpool := h.pool
  rw [hc] at hpool
  have hfut : ∀ ph', (s.phases ph').futurePool.length =
      (Ctrl.check ph (w + 1)).dispatched job.nrMapper ph' := by
    intro ph'
    rw [h.futures, hc]
    rfl
  have hstat : ∀ ph', (s.phases ph').taskStatus.length =
      if (Ctrl.check ph (w + 1)).started ph' then job.count ph' else 0 := by
    intro ph'
    rw [h.statuses, hc]
    rfl
  cases status with
  | false =>
    refine h.move hpool ⟨le_rfl, le_rfl⟩ hfut (fun _ => ⟨rfl, rfl⟩) (fun ph' => by rw [hc]; rfl)
      (fun ph' w' h' => by cases h') fun ph' hph' => .inl ?_
    rw [hc]
    cases ph' <;> exact hph'
  | true =>
    refine ⟨hpool, ⟨le_rfl, le_rfl⟩, fun ph' => ?_, fun ph' => ?_, fun ph' => ?_,
      fun ph' w' h' => (by cases h'), fun ph' hph' w' hw' => ?_⟩
    · by_cases hph : ph' = ph
      · subst hph
        simpa [State.credit, State.setPhase, State.setServer, State.goto] using hfut ph'
      · simpa [State.credit, State.setPhase, State.setServer, State.goto, hph] using hfut ph'
    · by_cases hph : ph' = ph
      · subst hph
        simpa [State.credit, State.setPhase, State.setServer, State.goto] using hstat ph'
      · simpa [State.credit, State.setPhase, State.setServer, State.goto, hph] using hstat ph'
    · -- The entry was not 1, so the ones and the counter both go up by one.
      by_cases hph : ph' = ph
      · subst hph
        obtain ⟨hlt, rfl⟩ := List.getElem?_eq_some_iff.mp hst
        simp [State.credit, State.setPhase, State.setServer, State.goto, List.count_set hlt, hne,
          h.counted]
      · simpa [State.credit, State.setPhase, State.setServer, State.goto, hph] using h.counted ph'
    · -- The entries of a finished phase are not the ones being noted.
      have hfin : s.ctrl.finished ph' = true := by
        rw [hc]
        cases ph' <;> exact hph'
      have hph : ph' ≠ ph := by
        intro he
        subst he
        rw [hc] at hfin
        cases ph' <;> cases hfin
      simpa [State.credit, State.setPhase, State.setServer, State.goto, hph] using
        h.finished ph' hfin w' hw'

/-- Creating the status vector of a phase keeps the invariant: no entry is 1 and the counter is
0. -/
theorem Control.create {i : ℕ} (h : Control job s) (hc : s.ctrl = .dispatch ph i)
    (hi : job.nrMapper ≤ i) :
    Control job ((s.setPhase ph
      { s.phases ph with taskStatus := List.replicate (job.count ph) 0, nrDone := 0 }).goto
        (.check ph 0)) := by
  have hpool := h.pool
  have hle := h.bound.2
  have hstat := h.statuses
  rw [hc] at hpool hle hstat
  obtain rfl : i = job.nrMapper := Nat.le_antisymm hle hi
  have hfut : ∀ ph', (s.phases ph').futurePool.length =
      (Ctrl.check ph 0).dispatched job.nrMapper ph' := by
    intro ph'
    rw [h.futures, hc]
    rfl
  refine ⟨hpool, ⟨le_rfl, le_rfl⟩, fun ph' => ?_, fun ph' => ?_, fun ph' => ?_,
    fun ph' w' h' => (by cases h'), fun ph' hph' w' hw' => ?_⟩
  · by_cases hph : ph' = ph
    · subst hph
      simpa [State.setPhase, State.goto] using hfut ph'
    · simpa [State.setPhase, State.goto, hph] using hfut ph'
  · by_cases hph : ph' = ph
    · subst hph
      simp [State.setPhase, State.goto, Ctrl.started, Ctrl.phase, Ctrl.inLoop]
    · simpa [State.setPhase, State.goto, hph, Ctrl.started, Ctrl.phase, Ne.symm hph] using hstat ph'
  · by_cases hph : ph' = ph
    · subst hph
      simp [State.setPhase, State.goto, List.count_replicate]
    · simpa [State.setPhase, State.goto, hph] using h.counted ph'
  · -- A finished phase is another one.
    have hfin : s.ctrl.finished ph' = true := by
      rw [hc]
      cases ph' <;> exact hph'
    have hph : ph' ≠ ph := by
      intro he
      subst he
      rw [hc] at hfin
      cases ph' <;> cases hfin
    simpa [State.setPhase, State.goto, hph] using h.finished ph' hfin w' hw'

/-- A step keeps the invariant. The cases that are left to the end are those of the workers,
which touch none of these variables. -/
theorem Control.step (h : Control job s) (hs : Step job s l s') : Control job s' := by
  have hpool := h.pool
  have hfut := h.futures
  cases hs with
  | goto hg => exact h.goto hg
  | fork hc hi =>
    rw [hc] at hpool hfut
    refine h.move hpool ⟨Nat.zero_le _, Nat.zero_le _⟩ hfut (fun _ => ⟨rfl, rfl⟩)
      (fun ph' => by rw [hc]; rfl) (fun ph' w' h' => by cases h') fun ph' hph' => ?_
    cases ph' <;> cases hph'
  | refork hc =>
    rw [hc] at hpool hfut
    refine h.move hpool ⟨le_rfl, le_rfl⟩ hfut (fun _ => ⟨rfl, rfl⟩) (fun ph' => by rw [hc]; rfl)
      (fun ph' w' h' => h.pending ph' w' (by rw [hc]; exact h')) fun ph' hph' => .inl ?_
    rw [hc]
    cases ph' <;> exact hph'
  | client hc hi =>
    rename_i i
    rw [hc] at hpool hfut
    -- One client more, and the place counts one more.
    have hlen : (s.clientPool ++ [Client.initial]).length = i + 1 := by
      rw [List.length_append, hpool]
      rfl
    refine h.move hlen ⟨hi, Nat.zero_le _⟩ hfut (fun _ => ⟨rfl, rfl⟩)
      (fun ph' => by rw [hc]; rfl) (fun ph' w' h' => by cases h') fun ph' hph' => ?_
    cases ph' <;> cases hph'
  | reclient hc hw =>
    rw [hc] at hpool hfut
    refine h.move (by rw [List.length_set]; exact hpool) ⟨le_rfl, le_rfl⟩ hfut
      (fun _ => ⟨rfl, rfl⟩) (fun ph' => by rw [hc]; rfl)
      (fun ph' w' h' => h.pending ph' w' (by rw [hc]; exact h')) fun ph' hph' => .inl ?_
    rw [hc]
    cases ph' <;> exact hph'
  | send hsend _ => exact h.send hsend
  | status hc hi => exact h.create hc hi
  | answer hc _ _ => exact h.answer hc
  -- A client that is overwritten leaves the pool as long as it was.
  | connect _ _ _ => exact h.congr rfl (List.length_set ..) rfl
  | disconnect _ _ => exact h.congr rfl (List.length_set ..) rfl
  | _ => exact h.congr rfl rfl rfl

/-- The master's variables are in order in every state of every run. -/
theorem control_of_reaches {ok : State → Label → Prop} {d : Disk}
    (h : Transition.Reaches (MapReduceCpp.step job) ok (.init d) s) : Control job s :=
  h.invariant (fun _ _ _ hP _ hstep => hP.step (step_cases hstep)) (control_init d)

end MapReduceCpp
