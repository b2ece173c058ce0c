import MapReduceCpp.Process.Control
import MapReduceCpp.Process.Server

/-!
# MapReduceCpp.Process.Topology

Which processes exist, and which of them the clients lead to.

`Topology` is the part of the invariant that knows about processes and connections
but not about tasks. A worker has at most one live process, and if its client leads
to a process then a live one is that process, except between a fork and the new
client (`superseded`). A live process that no client leads to has never been sent
anything (`unlinked`), which is what makes the process behind a new client a clean
slate.
-/

namespace MapReduceCpp

variable {job : Job} {s s' : State} {l : Label} {c : Ctrl} {ph : Phase} {w p q : ℕ}

/-- The task of the current phase has been sent through the client of a worker. -/
def Ctrl.due : Ctrl → ℕ → Bool
  | fork _, _ | connect _, _ => false
  | dispatch _ i, w => w < i
  | resend _ w', w => w ≠ w'
  | _, _ => true

/-- The processes and connections of a state. -/
structure Topology (job : Job) (s : State) : Prop where
  /-- The master's own flags are never set. -/
  globals : s.completed = fun _ => false
  unspawned : ∀ p, s.spawned ≤ p → s.servers p = .none
  worker_lt : ∀ p < s.spawned, (s.servers p).worker < job.nrMapper
  /-- While the servers are forked, those of the ports to come do not exist. -/
  forked : ∀ i, s.ctrl = .fork i → ∀ p < s.spawned, (s.servers p).worker < i
  /-- A client leads to a process of its own worker. -/
  linked : ∀ w p, s.linked w = some p → p < s.spawned ∧ (s.servers p).worker = w
  /-- A connection is found to be gone only after the process is. -/
  gone : ∀ w p : ℕ, s.clientPool[w]? = some (.disconnected p) → (s.servers p).alive = false
  /-- A worker has at most one live process. -/
  alone : ∀ p q, (s.servers p).alive = true → (s.servers q).alive = true →
    (s.servers p).worker = (s.servers q).worker → p = q
  /-- A client leads to the live process of its worker until that is replaced. -/
  superseded : ∀ w p q, s.linked w = some p → (s.servers q).alive = true →
    (s.servers q).worker = w → q = p ∨ ∃ ph, s.ctrl = .reconnect ph w
  /-- A live process that no client leads to has been sent nothing. -/
  unlinked : ∀ p, (s.servers p).alive = true → s.linked (s.servers p).worker ≠ some p →
    (s.servers p).sent = []
  /-- Only a client that is disconnected is replaced. -/
  down : ∀ (ph : Phase) (w : ℕ), s.ctrl = .refork ph w ∨ s.ctrl = .reconnect ph w →
    ∃ p : ℕ, s.clientPool[w]? = some (.disconnected p)
  /-- A task is sent only through a connection that has been made. -/
  initial : ∀ w : ℕ, s.clientPool[w]? = some .initial → s.ctrl.due w = false

theorem topology_init (d : Disk) : Topology job (.init d) where
  globals := rfl
  unspawned := fun _ _ => rfl
  worker_lt := fun _ hp => absurd hp (Nat.not_lt_zero _)
  forked := fun _ _ _ hp => absurd hp (Nat.not_lt_zero _)
  linked := by intro w p h; cases h
  gone := by intro w p h; cases h
  alone := by intro p q h; cases h
  superseded := by intro w p q h; cases h
  unlinked := by intro p h; cases h
  down := by intro ph w h; rcases h with h | h <;> cases h
  initial := by intro w h; cases h

/-! ### Clients

Where a client leads after the pool has changed. The pool changes in four ways, and in none of
them is a client moved from one process to another without having led nowhere in between. -/

theorem State.linked_of_client {client : Client} (h : s.clientPool[w]? = some client) :
    s.linked w = client.pid? := by
  rw [State.linked, h]
  rfl

theorem State.linked_set {client : Client} {ctrl : Ctrl} (hw : w < s.clientPool.length) (w' : ℕ) :
    State.linked { s with clientPool := s.clientPool.set w client, ctrl := ctrl } w' =
      if w' = w then client.pid? else s.linked w' := by
  by_cases he : w' = w
  · subst he
    simp [State.linked, hw]
  · simp [State.linked, List.getElem?_set_ne (Ne.symm he), he]

/-- A new client at the end of the pool leads nowhere. -/
theorem State.linked_append {ctrl : Ctrl} (w : ℕ) :
    State.linked { s with clientPool := s.clientPool ++ [.initial], ctrl := ctrl } w =
      s.linked w := by
  by_cases hlt : w < s.clientPool.length
  · simp [State.linked, List.getElem?_append_left hlt]
  · have hge := Nat.le_of_not_lt hlt
    rcases Nat.eq_or_lt_of_le hge with rfl | hgt
    · simp [State.linked, Client.pid?]
    · rw [State.linked, State.linked,
        List.getElem?_eq_none (by rw [List.length_append]; exact hgt), List.getElem?_eq_none hge]

/-- Finding a connection to be gone leaves the process behind it where it is. -/
theorem State.linked_disconnect (h : s.clientPool[w]? = some (.connected p)) (w' : ℕ) :
    State.linked { s with clientPool := s.clientPool.set w (.disconnected p) } w' =
      s.linked w' := by
  rw [@State.linked_set s w (.disconnected p) s.ctrl (List.getElem?_eq_some_iff.mp h).1 w']
  split
  · rename_i he
    rw [he, State.linked_of_client h]
    rfl
  · rfl

/-- What replacing a client can show at an index. -/
theorem client_of_set {pool : List Client} {client client' : Client} {w' : ℕ}
    (h : (pool.set w client)[w']? = some client') :
    w' = w ∧ client' = client ∨ pool[w']? = some client' := by
  rw [List.getElem?_set] at h
  split at h
  · rename_i he
    split at h
    · exact .inl ⟨he.symm, (Option.some.inj h).symm⟩
    · cases h
  · exact .inr h

/-- A client that leads to a process did so before, or has just been connected to it, and then
the process is alive. -/
theorem Step.linked (hs : Step job s l s') (h : s'.linked w = some p) :
    s.linked w = some p ∨ (s'.servers p).alive = true := by
  cases hs with
  | client hc hi => exact .inl (State.linked_append w ▸ h)
  | reclient hc hw =>
    rw [State.linked_set hw] at h
    split at h
    · cases h
    · exact .inl h
  | @connect w' pid hw hlive hpw =>
    rw [@State.linked_set s w' (.connected pid) s.ctrl (List.getElem?_eq_some_iff.mp hw).1] at h
    split at h
    · obtain rfl := Option.some.inj h
      exact .inr hlive
    · exact .inl h
  | disconnect hw hdead => exact .inl (State.linked_disconnect hw w ▸ h)
  | @answer ph w' p' status hc _ _ => cases status <;> exact .inl h
  | _ => exact .inl h

/-- A worker whose task is due has a client that leads to a process, as its task was sent
through it. -/
theorem Topology.linked_of_due (h : Topology job s) (hctl : Control job s)
    (hcl : s.ctrl.clients job.nrMapper = job.nrMapper) (hw : w < job.nrMapper)
    (hdue : s.ctrl.due w = true) : ∃ p, s.linked w = some p := by
  obtain ⟨client, hclient⟩ := hctl.client hcl hw
  rw [State.linked_of_client hclient]
  cases client with
  | initial => rw [h.initial w hclient] at hdue; cases hdue
  | connected pid => exact ⟨pid, rfl⟩
  | disconnected pid => exact ⟨pid, rfl⟩

theorem Topology.lt_of_ne (h : Topology job s) (hp : s.servers p ≠ .none) : p < s.spawned :=
  Nat.lt_of_not_le fun hle => hp (h.unspawned p hle)

theorem Topology.lt_of_alive (h : Topology job s) (hp : (s.servers p).alive = true) :
    p < s.spawned := by
  refine h.lt_of_ne fun hnone => ?_
  rw [hnone] at hp
  cases hp

/-- A worker that is about to be replaced has no live process. -/
theorem Topology.dead_of_refork (h : Topology job s) (hc : s.ctrl = .refork ph w)
    (hq : (s.servers q).alive = true) : (s.servers q).worker ≠ w := by
  intro hw
  obtain ⟨p, hp⟩ := h.down ph w (.inl hc)
  rcases h.superseded w p q (State.linked_of_client hp) hq hw with rfl | ⟨ph', hc'⟩
  · rw [h.gone w q hp] at hq
    cases hq
  · rw [hc] at hc'
    cases hc'

/-- Steps that leave the pool alone, revive nobody and send only to the process behind a client
keep the topology, if the new place may be taken. These are nearly all steps. -/
theorem Topology.calm (h : Topology job s) (hglobals : s'.completed = s.completed)
    (hspawned : s'.spawned = s.spawned) (hpool : s'.clientPool = s.clientPool)
    (hworker : ∀ q, (s'.servers q).worker = (s.servers q).worker)
    (halive : ∀ q, (s'.servers q).alive = true → (s.servers q).alive = true)
    (hsent : ∀ q, (s'.servers q).sent = (s.servers q).sent ∨
      s.linked (s.servers q).worker = some q)
    (hnew : ∀ q, s.spawned ≤ q → s'.servers q = s.servers q)
    (hforked : ∀ i, s'.ctrl = .fork i → s.ctrl = .fork i)
    (hsuper : ∀ ph w, s.ctrl = .reconnect ph w → s'.ctrl = .reconnect ph w)
    (hdown : ∀ ph w, s'.ctrl = .refork ph w ∨ s'.ctrl = .reconnect ph w →
      ∃ p : ℕ, s.clientPool[w]? = some (.disconnected p))
    (hinit : ∀ w : ℕ, s.clientPool[w]? = some .initial → s'.ctrl.due w = false) :
    Topology job s' := by
  have hlink : ∀ w, s'.linked w = s.linked w := fun w => by rw [State.linked, hpool]; rfl
  refine ⟨hglobals.trans h.globals, fun p hp => ?_, fun p hp => ?_, fun i hi p hp => ?_,
    fun w p hp => ?_, fun w p hp => ?_, fun p q hp hq hw => ?_, fun w p q hp hq hw => ?_,
    fun p hp hne => ?_, fun ph w hc => ?_, fun w hw => hinit w (hpool ▸ hw)⟩
  · rw [hspawned] at hp
    rw [hnew p hp, h.unspawned p hp]
  · rw [hspawned] at hp
    rw [hworker]
    exact h.worker_lt p hp
  · rw [hspawned] at hp
    rw [hworker]
    exact h.forked i (hforked i hi) p hp
  · rw [hlink] at hp
    rw [hspawned, hworker]
    exact h.linked w p hp
  -- A connection that was found gone stays gone, as nobody is revived.
  · rw [hpool] at hp
    by_contra hne
    have hp' := halive p (Bool.eq_true_of_not_eq_false hne)
    rw [h.gone w p hp] at hp'
    cases hp'
  · rw [hworker, hworker] at hw
    exact h.alone p q (halive p hp) (halive q hq) hw
  · rw [hlink] at hp
    rw [hworker] at hw
    rcases h.superseded w p q hp (halive q hq) hw with he | ⟨ph, hc⟩
    · exact .inl he
    · exact .inr ⟨ph, hsuper ph w hc⟩
  -- What is sent goes to a process that a client leads to.
  · rw [hworker, hlink] at hne
    rcases hsent p with hs | hs
    · rw [hs]
      exact h.unlinked p (halive p hp) hne
    · exact absurd hs hne
  · obtain ⟨p, hp⟩ := hdown ph w hc
    exact ⟨p, hpool ▸ hp⟩

/-- What happens inside an existing process keeps the topology. -/
theorem Topology.inside (h : Topology job s) {v : Server} (hp : s.servers p ≠ .none)
    (hworker : v.worker = (s.servers p).worker)
    (halive : v.alive = true → (s.servers p).alive = true) (hsent : v.sent = (s.servers p).sent) :
    Topology job (s.setServer p v) := by
  have hlt := h.lt_of_ne hp
  have hother : ∀ q, q ≠ p → (s.setServer p v).servers q = s.servers q :=
    fun q hq => State.setServer_ne s v hq
  refine h.calm rfl rfl rfl (fun q => ?_) (fun q hq => ?_) (fun q => .inl ?_) (fun q hq => ?_)
    (fun _ hi => hi) (fun _ _ hc => hc) h.down h.initial
  · by_cases he : q = p
    · rw [he, State.setServer_self, hworker]
    · rw [hother q he]
  · by_cases he : q = p
    · subst he
      rw [State.setServer_self] at hq
      exact halive hq
    · rwa [hother q he] at hq
  · by_cases he : q = p
    · rw [he, State.setServer_self, hsent]
    · rw [hother q he]
  · exact hother q (by omega)

/-- The disk is no part of the topology. -/
theorem Topology.write (h : Topology job s) (d : Disk) : Topology job { s with disk := d } :=
  ⟨h.globals, h.unspawned, h.worker_lt, h.forked, h.linked, h.gone, h.alone, h.superseded,
    h.unlinked, h.down, h.initial⟩

/-- Moving on changes nothing about what is due, unless it is on to the reduce phase. -/
theorem Goto.due (h : Goto job s c) (hctl : Control job s) :
    c.phase = s.ctrl.phase ∧ (∀ w, c.due w = s.ctrl.due w) ∧
        (s.ctrl.stopping = true → c.stopping = true) ∨
      s.ctrl = .sweepEnd .map ∧ c = .dispatch .reduce 0 := by
  cases h with
  | forked hc hi => exact .inl ⟨by rw [hc]; rfl, fun w => by rw [hc]; rfl, by rw [hc]; exact id⟩
  | created hc hi =>
    exact .inl ⟨by rw [hc]; rfl, fun w => by rw [hc]; simp [Ctrl.due], by rw [hc]; exact id⟩
  | skip hc _ _ => exact .inl ⟨by rw [hc]; rfl, fun w => by rw [hc]; rfl, by rw [hc]; exact id⟩
  | down hc _ _ _ _ => exact .inl ⟨by rw [hc]; rfl, fun w => by rw [hc]; rfl, by rw [hc]; exact id⟩
  | up hc _ _ _ _ _ => exact .inl ⟨by rw [hc]; rfl, fun w => by rw [hc]; rfl, by rw [hc]; exact id⟩
  | swept hc _ => exact .inl ⟨by rw [hc]; rfl, fun w => by rw [hc]; rfl, by rw [hc]; exact id⟩
  | mapped hc _ => exact .inr ⟨hc, rfl⟩
  | reduced hc _ => exact .inl ⟨by rw [hc]; rfl, fun w => by rw [hc]; rfl, fun _ => rfl⟩
  | again hc _ => exact .inl ⟨by rw [hc]; rfl, fun w => by rw [hc]; rfl, by rw [hc]; exact id⟩
  | stopped hc _ => exact .inl ⟨by rw [hc]; rfl, fun w => by rw [hc]; rfl, fun _ => rfl⟩
  | noStatus hc hw hnone =>
    obtain ⟨w, hc, -, -⟩ := hctl.undefined_of_goto (.noStatus hc hw hnone)
    exact .inl ⟨by rw [hc]; rfl, fun w => by rw [hc]; rfl, by rw [hc]; exact id⟩
  | noClient hc hnone => exact absurd hnone (hctl.noClient hc)

theorem Topology.goto (h : Topology job s) (hctl : Control job s) (hg : Goto job s c) :
    Topology job (s.goto c) := by
  have hold : ∀ ph w, s.ctrl ≠ .reconnect ph w := by
    intro ph w hc'
    cases hg with
    | noClient hc hnone => exact absurd hnone (hctl.noClient hc)
    | _ => simp_all
  -- None of these moves begins behind a fork, where a process is superseded.
  refine h.calm rfl rfl rfl (fun _ => rfl) (fun _ hq => hq) (fun _ => .inl rfl) (fun _ _ => rfl)
    (fun i hc => ?_) (fun ph w hc => absurd hc (hold ph w)) (fun ph w hc => ?_) fun w hw => ?_
  · obtain rfl : c = .fork i := hc
    cases hg
  · -- The master goes to replace a worker from finding its connection gone.
    rcases hc with hc | hc
    · obtain rfl : c = .refork ph w := hc
      cases hg with
      | down _ _ _ _ hcl => exact ⟨_, hcl⟩
    · obtain rfl : c = .reconnect ph w := hc
      cases hg
  · rcases hg.due hctl with ⟨-, hdue, -⟩ | ⟨-, rfl⟩
    · exact (hdue w).trans (h.initial w hw)
    · simp [State.goto, Ctrl.due]

/-- A fork for a worker without a live process keeps the topology. Its client, if there is one
yet, is replaced next. -/
theorem Topology.spawn (h : Topology job s) (hw : w < job.nrMapper)
    (hdead : ∀ q, (s.servers q).alive = true → (s.servers q).worker ≠ w)
    (hforked : ∀ i, c = .fork i → w < i ∧ ∀ p < s.spawned, (s.servers p).worker < i)
    (hsuper : s.linked w = none ∨ ∃ ph, c = .reconnect ph w)
    (hold : ∀ ph w', s.ctrl ≠ .reconnect ph w')
    (hdown : ∀ ph w, c = .refork ph w ∨ c = .reconnect ph w →
      ∃ p : ℕ, s.clientPool[w]? = some (.disconnected p))
    (hinit : ∀ w : ℕ, s.clientPool[w]? = some .initial → c.due w = false) :
    Topology job ((s.spawn w).goto c) := by
  have hself : ((s.spawn w).goto c).servers s.spawned = .fresh w s.completed := State.spawn_self s w
  have hother : ∀ q, q ≠ s.spawned → ((s.spawn w).goto c).servers q = s.servers q :=
    fun q hq => State.spawn_ne s w hq
  have hlink : ∀ w' p, s.linked w' = some p → p ≠ s.spawned :=
    fun w' p hp => Nat.ne_of_lt (h.linked w' p hp).1
  refine ⟨h.globals, fun p hp => ?_, fun p hp => ?_, fun i hi p hp => ?_, fun w' p hp => ?_,
    fun w' p hp => ?_, fun p q hp hq hpq => ?_, fun w' p q hp hq hw' => ?_, fun p hp hne => ?_,
    hdown, hinit⟩
  · have hlt : s.spawned < p := hp
    rw [hother p (by omega), h.unspawned p (by omega)]
  · by_cases he : p = s.spawned
    · rw [he, hself]
      exact hw
    · rw [hother p he]
      have hlt : p < s.spawned + 1 := hp
      exact h.worker_lt p (by omega)
  · obtain ⟨hwi, hlt⟩ := hforked i hi
    by_cases he : p = s.spawned
    · rw [he, hself]
      exact hwi
    · rw [hother p he]
      have hp' : p < s.spawned + 1 := hp
      exact hlt p (by omega)
  · rw [hother p (hlink w' p hp)]
    obtain ⟨hlt, hwp⟩ := h.linked w' p hp
    exact ⟨Nat.lt_succ_of_lt hlt, hwp⟩
  · rw [hother p (hlink w' p (State.linked_of_client hp))]
    exact h.gone w' p hp
  · -- The new process is the only live one of its worker.
    by_cases hep : p = s.spawned <;> by_cases heq : q = s.spawned
    · rw [hep, heq]
    · rw [hother q heq] at hq hpq
      rw [hep, hself] at hpq
      exact absurd hpq.symm (hdead q hq)
    · rw [hother p hep] at hp hpq
      rw [heq, hself] at hpq
      exact absurd hpq (hdead p hp)
    · rw [hother p hep] at hp hpq
      rw [hother q heq] at hq hpq
      exact h.alone p q hp hq hpq
  · -- Its worker's client leads to the dead process until the master replaces it.
    by_cases he : q = s.spawned
    · rw [he, hself] at hw'
      obtain rfl : w = w' := hw'
      rcases hsuper with hnone | hre
      · have hp' : s.linked w = some p := hp
        rw [hnone] at hp'
        cases hp'
      · exact .inr hre
    · rw [hother q he] at hq hw'
      rcases h.superseded w' p q hp hq hw' with hqp | ⟨ph, hc⟩
      · exact .inl hqp
      · exact absurd hc (hold ph w')
  -- The new process has been sent nothing, whoever leads to it.
  · by_cases he : p = s.spawned
    · rw [he, hself]
      rfl
    · rw [hother p he] at hp hne ⊢
      exact h.unlinked p hp hne

/-- Changing the pool keeps the topology, if a client is only made to lead to a live process of
its worker, and made to lead nowhere if its process is dead. So `alone` passes on to the
clients. -/
theorem Topology.repool (h : Topology job s) {pool : List Client}
    (hlink : ∀ w p, State.linked { s with clientPool := pool, ctrl := c } w = some p →
      s.linked w = some p ∨ (s.servers p).alive = true ∧ (s.servers p).worker = w)
    (hgone : ∀ w p : ℕ, pool[w]? = some (.disconnected p) → (s.servers p).alive = false)
    (hkeep : ∀ p, (s.servers p).alive = true → s.linked (s.servers p).worker = some p →
      State.linked { s with clientPool := pool, ctrl := c } (s.servers p).worker = some p)
    (hforked : ∀ i, c = .fork i → s.ctrl = .fork i)
    (hsuper : ∀ ph w, s.ctrl = .reconnect ph w → c = .reconnect ph w ∨
      State.linked { s with clientPool := pool, ctrl := c } w = none)
    (hdown : ∀ ph w, c = .refork ph w ∨ c = .reconnect ph w →
      ∃ p : ℕ, pool[w]? = some (.disconnected p))
    (hinit : ∀ w : ℕ, pool[w]? = some .initial → c.due w = false) :
    Topology job { s with clientPool := pool, ctrl := c } := by
  refine ⟨h.globals, h.unspawned, h.worker_lt, fun i hi => h.forked i (hforked i hi),
    fun w p hp => ?_, hgone, h.alone, fun w p q hp hq hw => ?_, fun p hp hne => ?_, hdown, hinit⟩
  · rcases hlink w p hp with hold | ⟨hlive, hw⟩
    · exact h.linked w p hold
    · exact ⟨h.lt_of_alive hlive, hw⟩
  · rcases hlink w p hp with hold | ⟨hlive, hw'⟩
    · rcases h.superseded w p q hold hq hw with he | ⟨ph, hc⟩
      · exact .inl he
      · rcases hsuper ph w hc with hc' | hnone
        · exact .inr ⟨ph, hc'⟩
        · rw [hnone] at hp
          cases hp
    · exact .inl (h.alone q p hq hlive (hw.trans hw'.symm))
  · exact h.unlinked p hp fun hold => hne (hkeep p hp hold)

/-- A connection that is made leads to the one live process of the worker. -/
theorem Topology.connect (h : Topology job s) (hw : s.clientPool[w]? = some .initial)
    (hp : (s.servers p).alive = true) (hpw : (s.servers p).worker = w) :
    Topology job { s with clientPool := s.clientPool.set w (.connected p) } := by
  have hlen : w < s.clientPool.length := (List.getElem?_eq_some_iff.mp hw).1
  have hnone : s.linked w = none := State.linked_of_client hw
  have hlink := @State.linked_set s w (.connected p) s.ctrl hlen
  refine h.repool (c := s.ctrl) (fun w' p' hp' => ?_) (fun w' p' hp' => ?_)
    (fun p' hlive hp' => ?_) (fun _ hi => hi) (fun _ _ hc => .inl hc) (fun ph' w' hc => ?_)
    fun w' hw' => ?_
  · rw [hlink] at hp'
    split at hp'
    · obtain rfl := Option.some.inj hp'
      exact .inr ⟨hp, by omega⟩
    · exact .inl hp'
  · rcases client_of_set hp' with ⟨-, hcl⟩ | hcl
    · cases hcl
    · exact h.gone w' p' hcl
  · rw [hlink]
    split
    · rename_i he
      rw [he, hnone] at hp'
      cases hp'
    · exact hp'
  · -- A client that was found gone is not one that waits for its connection.
    obtain ⟨p', hp'⟩ := h.down ph' w' hc
    have hne : w ≠ w' := by
      intro he
      rw [← he, hw] at hp'
      cases hp'
    exact ⟨p', by rw [List.getElem?_set_ne hne, hp']⟩
  · rcases client_of_set hw' with ⟨-, hcl⟩ | hcl
    · cases hcl
    · exact h.initial w' hcl

/-- Finding a connection gone changes what is known of it, not where it leads. -/
theorem Topology.disconnect (h : Topology job s) (hw : s.clientPool[w]? = some (.connected p))
    (hp : (s.servers p).alive = false) :
    Topology job { s with clientPool := s.clientPool.set w (.disconnected p) } := by
  have hlen : w < s.clientPool.length := (List.getElem?_eq_some_iff.mp hw).1
  have hlink := State.linked_disconnect hw
  refine h.repool (c := s.ctrl) (fun w' p' hp' => .inl (hlink w' ▸ hp')) (fun w' p' hp' => ?_)
    (fun p' _ hp' => (hlink _).trans hp') (fun _ hi => hi) (fun _ _ hc => .inl hc)
    (fun ph' w' hc => ?_) fun w' hw' => ?_
  · rcases client_of_set hp' with ⟨-, hcl⟩ | hcl
    · rw [(Client.disconnected.inj hcl), hp]
    · exact h.gone w' p' hcl
  · obtain ⟨p', hp'⟩ := h.down ph' w' hc
    by_cases he : w' = w
    · subst he
      exact ⟨p, List.getElem?_set_self hlen⟩
    · exact ⟨p', by rw [List.getElem?_set_ne (Ne.symm he), hp']⟩
  · rcases client_of_set hw' with ⟨-, hcl⟩ | hcl
    · cases hcl
    · exact h.initial w' hcl

/-- The new client leads nowhere, and the process behind the old one was dead. -/
theorem Topology.reclient (h : Topology job s) (hc : s.ctrl = .reconnect ph w) :
    Topology job { s with clientPool := s.clientPool.set w .initial, ctrl := .resend ph w } := by
  obtain ⟨p, hp⟩ := h.down ph w (.inr hc)
  have hlen : w < s.clientPool.length := (List.getElem?_eq_some_iff.mp hp).1
  have hlink := @State.linked_set s w .initial (.resend ph w) hlen
  refine h.repool (fun w' p' hp' => .inl ?_) (fun w' p' hp' => ?_) (fun p' hlive hp' => ?_)
    (fun _ hi => by cases hi) (fun ph' w' hc' => .inr ?_)
    (fun _ _ hc' => by rcases hc' with hc' | hc' <;> cases hc') fun w' hw' => ?_
  · rw [hlink] at hp'
    split at hp'
    · cases hp'
    · exact hp'
  · rcases client_of_set hp' with ⟨-, hcl⟩ | hcl
    · cases hcl
    · exact h.gone w' p' hcl
  · -- A live process is not the one whose client is replaced.
    rw [hlink, if_neg]
    · exact hp'
    · intro he
      rw [he, State.linked_of_client hp] at hp'
      obtain rfl := Option.some.inj hp'
      rw [h.gone w p hp] at hlive
      cases hlive
  · rw [hc] at hc'
    obtain ⟨-, rfl⟩ := Ctrl.reconnect.inj hc'
    rw [hlink, if_pos rfl]
    rfl
  · rcases client_of_set hw' with ⟨rfl, -⟩ | hcl
    · simp [Ctrl.due]
    · have hdue := h.initial w' hcl
      rw [hc] at hdue
      cases hdue

/-- A client that is created waits for its connection; nothing is due through it. -/
theorem Topology.client {i : ℕ} (h : Topology job s) (hc : s.ctrl = .connect i) :
    Topology job
      { s with clientPool := s.clientPool ++ [.initial], ctrl := .connect (i + 1) } := by
  have hlink := @State.linked_append s (.connect (i + 1))
  refine h.repool (fun w' p' hp' => .inl (hlink w' ▸ hp')) (fun w' p' hp' => ?_)
    (fun p' _ hp' => (hlink _).trans hp') (fun _ hi => by cases hi)
    (fun ph' w' hc' => by rw [hc] at hc'; cases hc')
    (fun _ _ hc' => by rcases hc' with hc' | hc' <;> cases hc') fun _ _ => rfl
  refine h.gone w' p' ?_
  rw [List.getElem?_append] at hp'
  split at hp'
  · exact hp'
  · rw [List.getElem?_singleton] at hp'
    split at hp' <;> cases hp'

/-- Sending through a client keeps the topology: the process behind it is the one that may have
been sent something. -/
theorem Topology.send {req : Request} {phases : Phase → PhaseState} (h : Topology job s)
    (hs : Sends job s p w req phases c) (hp : s.linked w = some p) :
    Topology job { s.deliver p req with phases := phases, ctrl := c } := by
  obtain ⟨hlt, hpw⟩ := h.linked w p hp
  have hself := State.deliver_self s p req
  have hother : ∀ q, q ≠ p → (s.deliver p req).servers q = s.servers q :=
    fun q hq => State.deliver_ne s req hq
  -- The client the request goes through has been connected.
  have hmade : ∀ w' : ℕ, s.clientPool[w']? = some .initial → w' ≠ w := by
    intro w' hw' he
    rw [he] at hw'
    rw [State.linked_of_client hw'] at hp
    cases hp
  have key : (∀ i, c ≠ .fork i) → (∀ ph w, s.ctrl ≠ .reconnect ph w) →
      (∀ ph w, c ≠ .refork ph w ∧ c ≠ .reconnect ph w) →
      (∀ w', w' ≠ w → s.ctrl.due w' = false → c.due w' = false) →
      Topology job { s.deliver p req with phases := phases, ctrl := c } := by
    intro hf hr hd hi
    refine h.calm rfl rfl rfl (fun q => ?_) (fun q hq => ?_) (fun q => ?_) (fun q hq => ?_)
      (fun i hc => absurd hc (hf i)) (fun ph w hc => absurd hc (hr ph w)) (fun ph w hc => ?_)
      fun w' hw' => hi w' (hmade w' hw') (h.initial w' hw')
    · by_cases he : q = p
      · subst he
        simp only [hself]
        rfl
      · simp only [hother q he]
    · by_cases he : q = p
      · subst he
        simp only [hself] at hq
        exact hq
      · simp only [hother q he] at hq
        exact hq
    · by_cases he : q = p
      · subst he
        exact .inr (hpw.symm ▸ hp)
      · exact .inl (by simp only [hother q he])
    · exact hother q (by omega)
    · rcases hc with hc | hc
      · exact absurd hc (hd ph w).1
      · exact absurd hc (hd ph w).2
  cases hs with
  | dispatch hc hi =>
    refine key (fun _ h => by cases h) (fun _ _ h => by rw [hc] at h; cases h)
      (fun _ _ => ⟨fun h => (by cases h), fun h => (by cases h)⟩) fun w' hne hdue => ?_
    rw [hc] at hdue
    simp only [Ctrl.due, decide_eq_false_iff_not] at hdue ⊢
    omega
  | resend hc hlt =>
    refine key (fun _ h => by cases h) (fun _ _ h => by rw [hc] at h; cases h)
      (fun _ _ => ⟨fun h => (by cases h), fun h => (by cases h)⟩) fun w' hne hdue => ?_
    rw [hc] at hdue
    simp [Ctrl.due, hne] at hdue
  | noFuture hc hle =>
    refine key (fun _ h => by cases h) (fun _ _ h => by rw [hc] at h; cases h)
      (fun _ _ => ⟨fun h => (by cases h), fun h => (by cases h)⟩) fun w' hne hdue => ?_
    rw [hc] at hdue
    simp [Ctrl.due, hne] at hdue
  | poll hc =>
    refine key (fun _ h => by cases h) (fun _ _ h => by rw [hc] at h; cases h)
      (fun _ _ => ⟨fun h => (by cases h), fun h => (by cases h)⟩) fun w' hne hdue => ?_
    rw [hc] at hdue
    cases hdue
  | stop hc hi =>
    refine key (fun _ h => by cases h) (fun _ _ h => by rw [hc] at h; cases h)
      (fun _ _ => ⟨fun h => (by cases h), fun h => (by cases h)⟩) fun w' hne hdue => ?_
    rw [hc] at hdue
    cases hdue

/-- A process that waits, runs or lives exists. -/
theorem ne_none_of_inbox {k : ℕ} {req : Request} (h : (s.servers p).inbox[k]? = some req) :
    s.servers p ≠ .none := by
  intro hnone
  rw [hnone] at h
  cases h

theorem ne_none_of_running {k : ℕ} {e : Exec} (h : (s.servers p).running[k]? = some e) :
    s.servers p ≠ .none := by
  intro hnone
  rw [hnone] at h
  cases h

theorem ne_none_of_alive (h : (s.servers p).alive = true) : s.servers p ≠ .none := by
  intro hnone
  rw [hnone] at h
  cases h

/-- A step keeps the topology, given that the master's variables are in order. -/
theorem Topology.step (h : Topology job s) (hctl : Control job s) (hs : Step job s l s') :
    Topology job s' := by
  cases hs with
  | goto hg => exact h.goto hctl hg
  -- While the servers are forked there is no client yet, and a port at most once.
  | fork hc hi =>
    have hpool := hctl.pool
    rw [hc] at hpool
    have hnil : s.clientPool = [] := List.eq_nil_of_length_eq_zero hpool
    refine h.spawn hi (fun q hq hw => ?_) (fun i' he => ?_) (.inl (by rw [State.linked, hnil]; rfl))
      (fun _ _ h => by rw [hc] at h; cases h)
      (fun _ _ h => by rcases h with h | h <;> cases h) fun w' hw' => ?_
    · exact absurd hw (Nat.ne_of_lt (h.forked _ hc q (h.lt_of_alive hq)))
    · obtain rfl := Ctrl.fork.inj he
      exact ⟨Nat.lt_succ_self _, fun p hp => Nat.lt_succ_of_lt (h.forked _ hc p hp)⟩
    · rw [hnil] at hw'
      cases hw'
  | refork hc =>
    rename_i ph w
    -- The connection was found gone, so the worker has no live process.
    refine h.spawn (hctl.pending ph w (by rw [hc]; rfl)).1 (fun q hq => h.dead_of_refork hc hq)
      (fun i' he => by cases he) (.inr ⟨ph, rfl⟩) (fun _ _ h => by rw [hc] at h; cases h)
      (fun ph' w' hc' => ?_) fun w' hw' => ?_
    · rcases hc' with hc' | hc'
      · cases hc'
      · obtain ⟨rfl, rfl⟩ := Ctrl.reconnect.inj hc'
        exact h.down ph w (.inl hc)
    · have hdue := h.initial w' hw'
      rw [hc] at hdue
      cases hdue
  | client hc hi => exact h.client hc
  | reclient hc hw => exact h.reclient hc
  | send hsend hp => exact h.send hsend hp
  | status hc hi =>
    have hpool := hctl.pool
    rw [hc] at hpool
    refine h.calm rfl rfl rfl (fun _ => rfl) (fun _ hq => hq) (fun _ => .inl rfl) (fun _ _ => rfl)
      (fun _ he => by cases he) (fun _ _ he => by rw [hc] at he; cases he)
      (fun _ _ he => by rcases he with he | he <;> cases he) fun w' hw' => ?_
    -- All clients have been used by now.
    have hlt : w' < job.nrMapper := by
      rw [← show s.clientPool.length = job.nrMapper from hpool]
      exact (List.getElem?_eq_some_iff.mp hw').1
    have hdue := h.initial w' hw'
    rw [hc] at hdue
    simp only [Ctrl.due, decide_eq_false_iff_not] at hdue
    omega
  | answer hc hp hr =>
    rename_i ph w p status
    have hset : ∀ q, (((s.setServer p { s.servers p with reply := none }).credit ph w status).goto
        (.check ph (w + 1))).servers q =
          if q = p then { s.servers p with reply := none } else s.servers q := by
      intro q
      simp only [State.goto, State.credit_servers]
      exact Function.update_apply _ _ _ _
    have hsame : ∀ t : State, (t.credit ph w status).completed = t.completed ∧
        (t.credit ph w status).spawned = t.spawned ∧
        (t.credit ph w status).clientPool = t.clientPool := by
      intro t
      cases status <;> exact ⟨rfl, rfl, rfl⟩
    obtain ⟨hcomp, hspawned, hpool⟩ := hsame (s.setServer p { s.servers p with reply := none })
    refine h.calm hcomp hspawned hpool (fun q => ?_) (fun q hq => ?_) (fun q => .inl ?_)
      (fun q hq => ?_) (fun _ he => by cases he) (fun _ _ he => by rw [hc] at he; cases he)
      (fun _ _ he => by rcases he with he | he <;> cases he) fun w' hw' => ?_
    · rw [hset]
      split <;> simp_all
    · rw [hset] at hq
      split at hq <;> simp_all
    · rw [hset]
      split <;> simp_all
    · rw [hset, if_neg]
      have hlt := (h.linked w p hp).1
      omega
    · have hdue := h.initial w' hw'
      rw [hc] at hdue
      cases hdue
  | connect hw hp hpw => exact h.connect hw hp hpw
  | disconnect hw hp => exact h.disconnect hw hp
  -- What a worker does happens inside a process, and a process that does something exists.
  | start hlen hk => exact h.inside (ne_none_of_inbox hk) rfl (fun ha => ha) rfl
  | reply hlen hk => exact h.inside (ne_none_of_inbox hk) rfl (fun ha => ha) rfl
  | exit hlen hk =>
    exact h.inside (ne_none_of_inbox hk) rfl (fun ha => absurd ha (Server.not_alive_terminate _)) rfl
  | op hk hop =>
    apply Topology.write
    exact h.inside (ne_none_of_running hk) rfl (fun ha => ha) rfl
  | finish hk hprog hres => exact h.inside (ne_none_of_running hk) rfl (fun ha => ha) rfl
  | fault hk hprog hres =>
    exact h.inside (ne_none_of_running hk) rfl
      (fun ha => absurd ha (Server.not_alive_terminate _)) rfl
  | kill ha =>
    exact h.inside (ne_none_of_alive ha) rfl (fun ha => absurd ha (Server.not_alive_terminate _)) rfl

/-- The topology holds in every state of every run. -/
theorem topology_of_reaches {ok : State → Label → Prop} {d : Disk}
    (h : Transition.Reaches (MapReduceCpp.step job) ok (.init d) s) : Topology job s :=
  h.invariant_of (fun _ hr => control_of_reaches hr)
    (fun _ _ _ hI hP _ hstep => hP.step hI (step_cases hstep)) (topology_init d)

end MapReduceCpp
