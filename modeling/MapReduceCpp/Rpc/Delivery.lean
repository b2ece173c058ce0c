import MapReduceCpp.Rpc.Matching
import MapReduceCpp.Lib.Fairness
import Mathlib.Data.Prod.Lex

/-!
# MapReduceCpp.Rpc.Delivery

Every call is answered, if nothing fails.

While the server lives, no write or read fails and no handler asks for the end of its
session, nothing is lost: a call that is not waiting has been executed, and one that has
been executed has a response. Every message has a number of hops before it, so that all
steps but calls bring the connection closer to rest (`hops_lt`), and at rest all calls
have been answered. So a call is answered in every run in which a message that can move
does not stay where it is forever, however many other calls are made.
-/

namespace MapReduceCpp.Rpc

variable {host : Host} {s s' : Conn} {e : Event} {c : Call}

/-! ### Nothing is lost

The converse of `Transit` for a connection at which nothing fails: what it says there is at most
is there indeed. -/

/-- Nothing but responses waits in the session's write strand, so nobody has asked for the end. -/
def Conn.Plain (s : Conn) : Prop := ∀ p ∈ s.writeStrand, ∃ r, p = .write r

/-- A connection that has not failed, and of which nobody has asked for the end, with what it
has not lost. -/
structure Healthy (s : Conn) : Prop where
  alive : s.alive = true
  exit : s.exit = false
  closed : s.closed = false
  plain : s.Plain
  outbox : s.outbox.stuck = false
  writer : s.writer.stuck = false
  reading : s.reading = true ∨ s.state = .initial
  fresh : s.state = .initial → s.calls = []
  /-- A call waits or has been executed. -/
  kept : ∀ c ∈ s.calls, c ∈ s.waiting ∨ ∃ run, (c, run) ∈ s.ended
  /-- What has been executed has its response. -/
  responded : ∀ x ∈ s.ended, ∃ r ∈ s.responses, r.id = x.1.number

theorem healthy_init : Healthy .init where
  alive := rfl
  exit := rfl
  closed := rfl
  plain := by intro p hp; cases hp
  outbox := rfl
  writer := rfl
  reading := .inr rfl
  fresh := fun _ => rfl
  kept := by intro c hc; cases hc
  responded := by intro x hx; cases hx

/-- Without `exit_` the chain of writes goes on. -/
theorem written_stuck {α : Type} {w w' : Writer α} {x : α}
    (h : w.written false = some (x, w')) : w'.stuck = w.stuck := by
  unfold Writer.written at h
  split at h
  · cases h
  · rename_i hstuck
    split at h
    · cases h
    · obtain ⟨-, rfl⟩ := Prod.mk.inj (Option.some.inj h)
      exact (Bool.eq_false_iff.mpr hstuck).symm

/-- What the ends of a connection have in common in two states. Messages are no part of it. -/
structure SameLink (s s' : Conn) : Prop where
  alive : s'.alive = s.alive
  exit : s'.exit = s.exit
  closed : s'.closed = s.closed
  plain : s.Plain → s'.Plain
  outbox : s'.outbox.stuck = s.outbox.stuck
  writer : s'.writer.stuck = s.writer.stuck
  reading : s'.reading = s.reading
  state : s'.state = s.state

theorem sameLink_handle (p : Posted) : SameLink s (s.handle p) := by
  cases p with
  | post c =>
    simp only [Conn.handle]
    split <;> exact ⟨rfl, rfl, rfl, id, Bool.or_false _, rfl, rfl, rfl⟩
  | erase _ => exact ⟨rfl, rfl, rfl, id, rfl, rfl, rfl, rfl⟩

theorem sameLink_respond (r : Response) : SameLink s (s.respond r) := by
  simp only [Conn.respond]
  split <;> exact ⟨rfl, rfl, rfl, id, rfl, rfl, rfl, rfl⟩

/-- The client of a healthy connection finds it open. -/
theorem Healthy.not_gone (h : Healthy s) : ¬ (s.alive = false ∨ s.closed = true) := by
  simp [h.alive, h.closed]

/-- A step at which nothing fails makes the connection or leaves it as it is. The chains of
writes go on, as nobody sets `exit_`. -/
theorem link_of_smooth (h : Healthy s) (hsmooth : Smooth host s e)
    (hstep : connStep host s e = some s') :
    SameLink s s' ∨ e = .connect ∧ s' = { s with state := .connected, reading := true } := by
  cases connStep_cases hstep with
  | connect => exact .inr ⟨rfl, rfl⟩
  | call => exact .inl ⟨rfl, rfl, rfl, id, rfl, rfl, rfl, rfl⟩
  | @strand p rest _ hstrand =>
    have hl := @sameLink_handle { s with strand := rest } p
    exact .inl ⟨hl.alive, hl.exit, hl.closed, hl.plain, hl.outbox, hl.writer, hl.reading, hl.state⟩
  | sent _ hw => exact .inl ⟨rfl, rfl, rfl, id, written_stuck hw, rfl, rfl, rfl⟩
  | sendFails => exact hsmooth.elim
  | receive => exact .inl ⟨rfl, rfl, rfl, id, rfl, rfl, rfl, rfl⟩
  | start => exact .inl ⟨rfl, rfl, rfl, id, rfl, rfl, rfl, rfl⟩
  | @finish k c run served hk hserve =>
    obtain ⟨resp, hresp⟩ := hsmooth c hk
    obtain rfl := Except.ok.inj (hserve.symm.trans hresp)
    refine .inl ⟨rfl, rfl, rfl, fun hplain p hp => ?_, rfl, rfl, rfl, rfl⟩
    rcases List.mem_append.mp hp with hp | hp
    · exact hplain p hp
    · exact ⟨resp, List.mem_singleton.mp hp⟩
  | @fault k c run fault hk hserve =>
    obtain ⟨resp, hresp⟩ := hsmooth c hk
    cases hserve.symm.trans hresp
  | @writeStrand p rest hstrand =>
    obtain ⟨r, rfl⟩ := h.plain p (hstrand ▸ List.mem_cons_self)
    refine .inl ⟨rfl, rfl, rfl, fun hplain p hp => ?_, rfl, ?_, rfl, rfl⟩
    · exact hplain p (hstrand ▸ List.mem_cons_of_mem _ hp)
    · simp only [Conn.handleSession, Writer.write, h.exit, Bool.false_and, Bool.or_false]
  | written _ hw =>
    rw [h.exit] at hw
    exact .inl ⟨rfl, rfl, h.exit.trans h.closed.symm, id, rfl, written_stuck hw, rfl, rfl⟩
  | writeFails => exact hsmooth.elim
  | hangUp _ hexit => cases h.exit.symm.trans hexit
  | @read r wire resp _ _ hwire hresp =>
    have hl := @sameLink_respond { s with toClient := wire, received := r :: s.received } resp
    exact .inl ⟨hl.alive, hl.exit, hl.closed, hl.plain, hl.outbox, hl.writer, hl.reading, hl.state⟩
  | unreadable => exact .inl ⟨rfl, rfl, rfl, id, rfl, rfl, rfl, rfl⟩
  | disconnect _ _ hgone => exact absurd hgone h.not_gone
  | readFails => exact hsmooth.elim
  | die => exact hsmooth.elim

/-- A call is made on a connection that has been made, and numbered by the calls before it. -/
theorem connStep_call {name : Str} {args : List Obj}
    (h : connStep host s (.call name args) = some s') :
    s.state ≠ .initial ∧ s'.calls = s.calls ++ [⟨s.calls.length + 1, name, args⟩] := by
  generalize he : Event.call name args = e at h
  cases connStep_cases h with
  | @call c hstate _ hnumber =>
    obtain ⟨number, _, _⟩ := c
    obtain ⟨rfl, rfl⟩ := Event.call.inj he
    obtain rfl := hnumber
    exact ⟨hstate, rfl⟩
  | _ => simp at he

/-- Such a step keeps the connection healthy, provided that the client's thread has not ended,
which `Matched` excludes. -/
theorem Healthy.step (h : Healthy s) (ht : Transit host s) (hsmooth : Smooth host s e)
    (hm' : Matched s') (hstep : connStep host s e = some s') : Healthy s' := by
  have hflow := flow_of_step hstep
  have hlink : (s'.alive = true ∧ s'.exit = false ∧ s'.closed = false ∧ s'.Plain) ∧
      s'.outbox.stuck = false ∧ s'.writer.stuck = false ∧
      (s'.reading = true ∨ s'.state = .initial) ∧ (s'.state = .initial → s.state = .initial) := by
    rcases link_of_smooth h hsmooth hstep with hl | ⟨-, rfl⟩
    · refine ⟨⟨hl.alive.trans h.alive, hl.exit.trans h.exit, hl.closed.trans h.closed,
        hl.plain h.plain⟩, hl.outbox.trans h.outbox, hl.writer.trans h.writer, ?_, ?_⟩
      · rw [hl.reading, hl.state]
        exact h.reading
      · rw [hl.state]
        exact id
    · exact ⟨⟨h.alive, h.exit, h.closed, h.plain⟩, h.outbox, h.writer, .inl rfl,
        fun hinit => by cases hinit⟩
  obtain ⟨⟨halive, hexit, hclosed, hplain⟩, houtbox, hwriter, hreading, hstate⟩ := hlink
  cases hflow with
  | move hcalls hended hwaiting hresponses =>
    refine ⟨halive, hexit, hclosed, hplain, houtbox, hwriter, hreading,
      fun hi => hcalls.trans (h.fresh (hstate hi)), ?_, ?_⟩
    · rw [hcalls, hwaiting, hended]
      exact h.kept
    · rw [hended, hresponses]
      exact h.responded
  -- Nothing was lost: every way to lose a message is a failure.
  | lose hfail =>
    have hcrashed := hfail h.alive h.closed hsmooth
    rw [hm'.fine] at hcrashed
    cases hcrashed
  | @issue c hevent hnumber hcalls hended hwaiting hresponses =>
    obtain ⟨name, args, rfl⟩ := hevent
    refine ⟨halive, hexit, hclosed, hplain, houtbox, hwriter, hreading,
      fun hi => absurd (hstate hi) (connStep_call hstep).1, fun c' hc' => ?_, ?_⟩
    · rw [hcalls] at hc'
      rw [hwaiting, hended]
      rcases List.mem_append.mp hc' with hc' | hc'
      · exact (h.kept c' hc').imp (Multiset.mem_cons_of_mem ·) id
      · exact .inl (List.mem_singleton.mp hc' ▸ Multiset.mem_cons_self _ _)
    · rw [hended, hresponses]
      exact h.responded
  | @finish c run served hevent hserve hcalls hended hwaiting hresponses =>
    obtain ⟨k, rfl, hk⟩ := hevent
    have hc : c ∈ s.calls := ht.waiting c (hwaiting ▸ Multiset.mem_cons_self c _)
    obtain ⟨r, hr⟩ := hsmooth c hk
    obtain rfl := Except.ok.inj (hserve.symm.trans hr)
    refine ⟨halive, hexit, hclosed, hplain, houtbox, hwriter, hreading,
      fun hi => hcalls.trans (h.fresh (hstate hi)), fun c' hc' => ?_, fun x hx => ?_⟩
    · rw [hended]
      rcases h.kept c' (hcalls ▸ hc') with hwait | ⟨run', hrun'⟩
      · rw [hwaiting] at hwait
        rcases Multiset.mem_cons.mp hwait with rfl | hwait
        · exact .inr ⟨run, List.mem_cons_self⟩
        · exact .inl hwait
      · exact .inr ⟨run', List.mem_cons_of_mem _ hrun'⟩
    · rw [hended] at hx
      rw [hresponses]
      rcases List.mem_cons.mp hx with rfl | hx
      · exact ⟨r, by simp [Served.answer], (answers_of_message (ht.number_lt hc) hr rfl).id⟩
      · obtain ⟨r', hr', hid⟩ := h.responded x hx
        exact ⟨r', Multiset.mem_add.mpr (.inl hr'), hid⟩

/-! ### Bringing messages closer

Every message has a number of steps to go: 9 for a call that has just been made, down to 1 for
the handler that erases its entry. The sum over all queues is the distance to rest. -/

/-- The steps that a handler of the strand has before it, its own included. -/
def Posted.hops : Posted → ℕ
  | post _ => 9
  | erase _ => 1

/-- The steps that are left until nothing is on its way. -/
def Conn.hops (s : Conn) : ℕ :=
  (s.strand.map Posted.hops).sum + 8 * s.outbox.queue.length + 7 * s.toServer.length +
    6 * s.tasks.length + 5 * s.running.length + 4 * s.writeStrand.length +
    3 * s.writer.queue.length + 2 * s.toClient.length + if s.state = .initial then 1 else 0

/-- The event is not a call. -/
def Event.Moves : Event → Prop
  | .call _ _ => False
  | _ => True

theorem hops_handle (p : Posted) : (s.handle p).hops + 1 = s.hops + p.hops := by
  cases p with
  | post c =>
    simp only [Conn.handle]
    split <;> simp only [Conn.hops, Writer.write, List.length_append, List.length_singleton,
      Posted.hops] <;> omega
  | erase id => rfl

theorem hops_respond (h : s'.crashed = false) {r : Response} (hr : s.respond r = s') :
    s'.hops = s.hops + 1 := by
  subst hr
  simp only [Conn.respond] at h ⊢
  split at h
  · cases h
  · rename_i hsat
    rw [if_neg hsat]
    simp only [Conn.hops, List.map_append, List.sum_append, List.map_singleton, List.sum_singleton,
      Posted.hops]
    omega

/-- Every step but a call brings some message closer. -/
theorem hops_lt (h : Healthy s) (ht : Transit host s) (hm : Matched s) (hsmooth : Smooth host s e)
    (hmoves : e.Moves) (hstep : connStep host s e = some s') : s'.hops < s.hops := by
  have hfine := (hm.step ht hstep).1.fine
  cases connStep_cases hstep with
  | connect hinit _ => simp [Conn.hops, hinit]
  | call => exact hmoves.elim
  | @strand p rest _ hstrand =>
    have hhandle := @hops_handle { s with strand := rest } p
    have hrest : s.hops = ({ s with strand := rest } : Conn).hops + p.hops := by
      simp only [Conn.hops, hstrand, List.map_cons, List.sum_cons]
      omega
    omega
  | sent _ hw =>
    simp only [Conn.hops, h.alive, if_true, Writer.written_eq hw, List.length_append,
      List.length_cons, List.length_nil]
    omega
  | sendFails => exact hsmooth.elim
  | receive _ hwire =>
    simp only [Conn.hops, hwire, List.length_append, List.length_cons, List.length_nil]
    omega
  | start _ hk =>
    have hlen := (List.getElem?_eq_some_iff.mp hk).1
    simp only [Conn.hops, List.length_append, List.length_singleton,
      List.length_eraseIdx_of_lt hlen]
    omega
  | @finish k c run served hk hserve =>
    obtain ⟨resp, hresp⟩ := hsmooth c hk
    obtain rfl := Except.ok.inj (hserve.symm.trans hresp)
    have hlen := (List.getElem?_eq_some_iff.mp hk).1
    have hposted : (Served.answer resp).posted = [.write resp] := rfl
    simp only [Conn.hops, hposted, List.length_append, List.length_singleton,
      List.length_eraseIdx_of_lt hlen]
    omega
  | @fault k c run fault hk hserve =>
    obtain ⟨resp, hresp⟩ := hsmooth c hk
    cases hserve.symm.trans hresp
  | @writeStrand p rest hstrand =>
    obtain ⟨r, rfl⟩ := h.plain p (hstrand ▸ List.mem_cons_self)
    simp only [Conn.handleSession]
    simp only [Conn.hops, hstrand, Writer.write, List.length_append, List.length_cons,
      List.length_nil]
    omega
  | written _ hw =>
    simp only [Conn.hops, Writer.written_eq hw, List.length_append, List.length_cons,
      List.length_nil]
    omega
  | writeFails => exact hsmooth.elim
  | hangUp _ hexit => cases h.exit.symm.trans hexit
  | read _ _ hwire =>
    rw [hops_respond hfine rfl]
    simp only [Conn.hops, hwire, List.length_cons]
    omega
  -- Every response that comes can be converted.
  | unreadable => cases hfine
  | disconnect _ _ hgone => exact absurd hgone h.not_gone
  | readFails => exact hsmooth.elim
  | die => exact hsmooth.elim

/-! ### Rest

Whichever queue is not empty has a step that moves its first message. So a connection that
cannot move has nothing on its way, and then every call has been answered. -/

/-- Some end of the task of a call leads to a response. A call that cannot be answered, such as
one with a negative index, would be waited for in vain. -/
def Understood (host : Host) (c : Call) : Prop :=
  ∃ run resp, serve host.funcs host.suppressExceptions run c.message = .ok (.answer resp)

/-- As long as a call has not been answered something can move. The queues are gone through from
the client to the server and back. -/
theorem exists_move (h : Healthy s) (ht : Transit host s) (hm : Matched s)
    (hthreads : 0 < host.threads) (hunderstood : ∀ c ∈ s.calls, Understood host c)
    (hc : c ∈ s.calls) (hopen : s.promises c.number = none) :
    ∃ e s', e.Moves ∧ Smooth host s e ∧ connStep host s e = some s' := by
  have hstate : s.state ≠ .initial := fun hinit => by
    rw [h.fresh hinit] at hc
    cases hc
  have hfine := hm.fine
  have hreading := h.reading.resolve_right hstate
  rcases hstrand : s.strand with _ | ⟨p, rest⟩
  swap
  · exact ⟨.strand, _, trivial, trivial, (ConnStep.strand hfine hstrand).enabled⟩
  rcases houtbox : s.outbox.queue with _ | ⟨c', rest⟩
  swap
  · have hwritten : s.outbox.written false = some (c', ⟨rest, false⟩) := by
      simp [Writer.written, h.outbox, houtbox]
    exact ⟨.sent, _, trivial, trivial, (ConnStep.sent hfine hwritten).enabled⟩
  rcases hserver : s.toServer with _ | ⟨c', rest⟩
  swap
  · exact ⟨.receive, _, trivial, trivial, (ConnStep.receive h.exit hserver).enabled⟩
  rcases hrunning : s.running with _ | ⟨c', rest⟩
  swap
  -- A handler can end, whether or not there are other tasks.
  · have hc' : c' ∈ s.calls := ht.waiting c' (by simp [Conn.waiting, hrunning])
    obtain ⟨run, resp, hserve⟩ := hunderstood c' hc'
    have hk : s.running[0]? = some c' := by rw [hrunning, List.getElem?_cons_zero]
    refine ⟨.finish 0 run, _, trivial, fun c'' hc'' => ?_, (ConnStep.finish hk hserve).enabled⟩
    obtain rfl := Option.some.inj (hk.symm.trans hc'')
    exact ⟨resp, hserve⟩
  rcases htasks : s.tasks with _ | ⟨c', rest⟩
  swap
  · have hthread : s.running.length < host.threads := by rwa [hrunning, List.length_nil]
    have hk : s.tasks[0]? = some c' := by rw [htasks, List.getElem?_cons_zero]
    exact ⟨.start 0, _, trivial, trivial, (ConnStep.start hthread hk).enabled⟩
  rcases hwrite : s.writeStrand with _ | ⟨r, rest⟩
  swap
  · exact ⟨.writeStrand, _, trivial, trivial, (ConnStep.writeStrand hwrite).enabled⟩
  rcases hwriter : s.writer.queue with _ | ⟨r, rest⟩
  swap
  · have hwritten : s.writer.written s.exit = some (r, ⟨rest, false⟩) := by
      simp [Writer.written, h.writer, hwriter, h.exit]
    exact ⟨.written, _, trivial, trivial, (ConnStep.written h.closed hwritten).enabled⟩
  rcases hclient : s.toClient with _ | ⟨r, rest⟩
  swap
  · obtain ⟨-, -, resp, hresp, -⟩ := hm.read ht hclient
    exact ⟨.read, _, trivial, trivial, (ConnStep.read hfine hreading hclient hresp).enabled⟩
  -- With nothing on its way the call has been executed and its response been read.
  have hnone : s.waiting = 0 := by
    simp [Conn.waiting, hstrand, houtbox, hserver, htasks, hrunning]
  obtain ⟨run, hended⟩ := (h.kept c hc).resolve_left (by rw [hnone]; exact Multiset.notMem_zero c)
  obtain ⟨r, hr, hid⟩ := h.responded _ hended
  have hr : r ∈ s.received := by simpa [Conn.responses, hwrite, hwriter, hclient] using hr
  obtain ⟨n, a, hn, ha⟩ := hm.given r hr
  obtain rfl : n = c.number := by exact_mod_cast hn.symm.trans hid
  rw [hopen] at ha
  cases ha

/-! ### Every call is answered

Rest alone would not do, as new calls can be made forever. Each of them uses up one of the `2 ^
32` numbers, which stands in front of the hops in the rank. -/

/-- A step of a connection at which nothing fails, and which makes no call that the server
cannot answer. -/
structure Undisturbed (host : Host) (s : Conn) (e : Event) : Prop where
  few : Few s e
  smooth : Smooth host s e
  understood : ∀ name args, e = .call name args → Understood host ⟨s.calls.length + 1, name, args⟩

/-- What is known along such a run. -/
structure Steady (host : Host) (s : Conn) : Prop where
  healthy : Healthy s
  transit : Transit host s
  matched : Matched s
  understood : ∀ c ∈ s.calls, Understood host c

/-- What is known is kept by such a step. -/
theorem Steady.step (h : Steady host s) (hok : Undisturbed host s e)
    (hstep : connStep host s e = some s') : Steady host s' := by
  have hm' := (h.matched.step h.transit hstep).1
  refine ⟨h.healthy.step h.transit hok.smooth hm' hstep, h.transit.step hok.few hstep, hm',
    fun c hc => ?_⟩
  cases flow_of_step hstep with
  | move hcalls => exact h.understood c (hcalls ▸ hc)
  | lose _ hcalls => exact h.understood c (hcalls ▸ hc)
  | finish _ _ hcalls => exact h.understood c (hcalls ▸ hc)
  | issue hevent =>
    obtain ⟨name, args, rfl⟩ := hevent
    rw [(connStep_call hstep).2] at hc
    rcases List.mem_append.mp hc with hc | hc
    · exact h.understood c hc
    · obtain rfl := List.mem_singleton.mp hc
      exact hok.understood name args rfl

/-- So it is known along the whole run. -/
theorem steady_of_reaches (h : Transition.Reaches (connStep host) (Undisturbed host) .init s) :
    Steady host s :=
  h.invariant (P := Steady host) (fun _ _ _ hs hok hstep => hs.step hok hstep)
    ⟨healthy_init, transit_init, matched_init, by intro c hc; cases hc⟩

theorem calls_subset (h : connStep host s e = some s') : s.calls ⊆ s'.calls := by
  cases flow_of_step h with
  | move hcalls => exact hcalls ▸ List.Subset.refl _
  | lose _ hcalls => exact hcalls ▸ List.Subset.refl _
  | finish _ _ hcalls => exact hcalls ▸ List.Subset.refl _
  | issue _ _ hcalls => exact hcalls ▸ List.subset_append_left _ _

/-- A call uses up a number, and everything else brings a message closer. -/
theorem rank_lt (h : Steady host s) (hok : Undisturbed host s e)
    (hstep : connStep host s e = some s') :
    toLex (2 ^ 32 - s'.calls.length, s'.hops) < toLex (2 ^ 32 - s.calls.length, s.hops) := by
  by_cases hmoves : e.Moves
  · have hlt := hops_lt h.healthy h.transit h.matched hok.smooth hmoves hstep
    rw [Prod.Lex.toLex_lt_toLex]
    cases flow_of_step hstep with
    | move hcalls => exact .inr ⟨by rw [hcalls], hlt⟩
    | lose _ hcalls => exact .inr ⟨by rw [hcalls], hlt⟩
    | finish _ _ hcalls => exact .inr ⟨by rw [hcalls], hlt⟩
    | issue hevent =>
      obtain ⟨name, args, rfl⟩ := hevent
      exact hmoves.elim
  · cases e with
    | call name args =>
      have hlen := hok.few name args rfl
      rw [Prod.Lex.toLex_lt_toLex, (connStep_call hstep).2]
      refine .inl ?_
      simp only [List.length_append, List.length_singleton]
      omega
    | _ => exact absurd trivial hmoves

/-- A call comes closer to its answer with every step. There is one activity, that something
moves, and it helps as long as the call is open. -/
theorem ranking_answered (hthreads : 0 < host.threads) :
    Transition.Ranking (connStep host) (Undisturbed host) (Undisturbed host)
      (fun (_ : Unit) _ e => e.Moves) (fun s => Steady host s ∧ c ∈ s.calls)
      (fun s => (s.promises c.number).isSome = true)
      (fun s => toLex (2 ^ 32 - s.calls.length, s.hops))
      (fun _ s => s.promises c.number = none) where
  exists_helpful s _ hopen := ⟨(), by simpa using hopen⟩
  enabled := by
    intro _ s ⟨hs, hc⟩ hopen
    obtain ⟨e, s', hmoves, hsmooth, hstep⟩ :=
      exists_move hs.healthy hs.transit hs.matched hthreads hs.understood hc hopen
    have hnocall : ∀ name args, e ≠ .call name args := by
      rintro name args rfl
      exact hmoves
    exact ⟨e, s', hmoves, ⟨fun name args he => absurd he (hnocall name args), hsmooth,
      fun name args he => absurd he (hnocall name args)⟩, hstep⟩
  progress := by
    intro _ s e s' ⟨hs, _⟩ _ hok hstep
    exact .inr (.inl (rank_lt hs hok hstep))

/-- **Every call is answered.** In a run of a connection in which no process dies and no
write or read fails, in which every call can be answered and every handler leads to a
response and asks neither its session nor its server to end, each call that is made gets
the answer that its own execution has led to, in whichever order the messages and the
threads of the server move. All that the run has to satisfy is that something moves at
some time if something can move at all times. -/
theorem calls_answered {r : Transition.Run (connStep host) (Undisturbed host) .init}
    (hthreads : 0 < host.threads) (hfair : r.Fair fun (_ : Unit) _ e => e.Moves) {n : ℕ}
    (hc : c ∈ (r.state n).calls) :
    ∃ m ≥ n, ∃ run served resp, (c, run) ∈ (r.state m).ended ∧
      serve host.funcs host.suppressExceptions run c.message = .ok served ∧
      served.response = some resp ∧
      (r.state m).promises c.number = some (Conn.answerOf c.name resp) := by
  have hsteady : ∀ m, Steady host (r.state m) := fun m => steady_of_reaches (r.reaches m)
  have hmade : ∀ m ≥ n, c ∈ (r.state m).calls := by
    intro m hm
    induction m, hm using Nat.le_induction with
    | base => exact hc
    | succ m _ ih =>
      cases hl : r.label m with
      | none =>
        rw [r.idle m hl]
        exact ih
      | some e => exact calls_subset (r.next m e hl).2 ih
  obtain ⟨m, hm, hsome⟩ := (ranking_answered (c := c) hthreads).eventually hfair
    (fun m hm => ⟨hsteady m, hmade m hm⟩) (fun m _ e hl => (r.next m e hl).1)
  obtain ⟨a, ha⟩ := Option.isSome_iff_exists.mp hsome
  obtain ⟨c', run, served, resp, hended, hnumber, hserve, hresp, rfl⟩ :=
    (hsteady m).transit.answer (hsteady m).matched ha
  obtain rfl := (hsteady m).transit.eq_of_number ((hsteady m).transit.ended _ hended)
    (hmade m hm) hnumber
  exact ⟨m, hm, run, served, resp, hended, hserve, hresp, ha⟩

/-- The rest of the sample run. -/
def sampleRest : List Event :=
  [.finish 0 (.returned .nil, .clear), .writeStrand, .written, .read, .strand]

/-- Whether a response is written, and nothing else is posted. -/
def answered : Except Fault Served → Bool
  | .ok ⟨some _, false, false⟩ => true
  | _ => false

theorem exists_of_answered {result : Except Fault Served} (h : answered result = true) :
    ∃ resp, result = .ok (.answer resp) := by
  unfold answered at h
  split at h
  · exact ⟨_, rfl⟩
  · cases h

/-- A test of `Undisturbed`. -/
def undisturbedTest (host : Host) (s : Conn) : Event → Bool
  | .sendFails | .writeFails | .readFails | .die => false
  | .finish k run =>
    s.running[k]?.all fun c => answered (serve host.funcs host.suppressExceptions run c.message)
  | .call name args =>
    fewTest s (.call name args) &&
      answered (serve host.funcs host.suppressExceptions (.returned .nil, .clear)
        (Call.message ⟨s.calls.length + 1, name, args⟩))
  | _ => true

theorem undisturbed_of_test (h : undisturbedTest host s e = true) : Undisturbed host s e := by
  cases e with
  | call name args =>
    simp only [undisturbedTest, Bool.and_eq_true] at h
    obtain ⟨hfew, hanswered⟩ := h
    refine ⟨few_of_test hfew, trivial, fun name' args' he => ?_⟩
    obtain ⟨rfl, rfl⟩ := Event.call.inj he
    exact ⟨_, exists_of_answered hanswered⟩
  | finish k run =>
    simp only [undisturbedTest, Option.all_eq_true] at h
    exact ⟨fun _ _ he => (by cases he), fun c hc => exists_of_answered (h c hc),
      fun _ _ he => (by cases he)⟩
  | sendFails => cases h
  | writeFails => cases h
  | readFails => cases h
  | die => cases h
  | _ => exact ⟨fun _ _ he => (by cases he), trivial, fun _ _ he => (by cases he)⟩

/-- Both calls of the sample are answered. -/
theorem calls_answered_sample :
    ∃ r : Transition.Run (connStep sampleHost) (Undisturbed sampleHost) .init,
      ∃ n, ∃ c ∈ (r.state n).calls, ∃ m ≥ n, ∃ run served resp, (c, run) ∈ (r.state m).ended ∧
        serve sampleHost.funcs sampleHost.suppressExceptions run c.message = .ok served ∧
        served.response = some resp ∧
        (r.state m).promises c.number = some (Conn.answerOf c.name resp) := by
  have hrun : (Transition.run (Transition.guarded (undisturbedTest sampleHost) (connStep sampleHost))
      (sampleEvents ++ sampleRest) .init).map (fun s => (s.hops, s.calls.length)) =
      some (0, 2) := by decide +kernel
  obtain ⟨s, hs, heq⟩ := Option.map_eq_some_iff.mp hrun
  obtain ⟨hhops, hcalls⟩ := Prod.mk.inj heq
  have hreach := Transition.reaches_of_tested (fun _ _ => undisturbed_of_test) hs
  have hsteady := steady_of_reaches hreach
  -- With nothing on its way there is nothing to wait for.
  have hend : ∀ _ : Unit, ¬ Transition.Enabled (connStep sampleHost) (Undisturbed sampleHost)
      (fun _ e => e.Moves) s := by
    rintro _ ⟨e, s', hmoves, hok, hstep⟩
    have hlt := hops_lt hsteady.healthy hsteady.transit hsteady.matched hok.smooth hmoves hstep
    omega
  obtain ⟨r, hfair, -, hrest⟩ :=
    Transition.exists_run_of_rest (fun _ _ => undisturbed_of_test) hs hend
  obtain ⟨c, hc⟩ := List.exists_mem_of_length_pos (hcalls ▸ Nat.zero_lt_two)
  have hmade : c ∈ (r.state (sampleEvents ++ sampleRest).length).calls := hrest _ le_rfl ▸ hc
  exact ⟨r, _, c, hmade, calls_answered (by decide) hfair hmade⟩

end MapReduceCpp.Rpc
