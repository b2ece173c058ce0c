import MapReduceCpp.Rpc.Connection
import Mathlib.Algebra.Order.Group.Multiset
import Mathlib.Tactic.Abel

/-!
# MapReduceCpp.Rpc.Transit

Calls and responses on their way over a connection.

Whichever queue a call waits in, it is one call, so all that a step can do to the calls
as a whole is to issue one, to execute one or to lose some (`Flow`). Hence no call is
executed twice and none has two responses, whatever is lost and in whichever order the
threads of the server and the handlers of the client run (`transit_of_reaches`).
-/

namespace MapReduceCpp.Rpc

variable {host : Host} {s s' : Conn} {e : Event}

/-! ### Numbers

A call is known by its number, from 1 on. The `int` that counts the calls wraps, the key of an
entry is the number modulo `2 ^ 32`, and below that the two agree. -/

namespace Call

variable {c : Call}

/-- Below `2 ^ 32` the key is the number itself. -/
theorem key_eq (h : c.number < 2 ^ 32) : c.key = c.number := by
  unfold key idx
  have hmod : Int.bmod c.number (2 ^ 32) % 2 ^ 32 = (c.number : ℤ) % 2 ^ 32 := Int.bmod_emod
  rw [hmod, Int.emod_eq_of_lt (Int.natCast_nonneg _) (by exact_mod_cast h)]

/-- An index that is not negative is the number of the call. -/
theorem idx_eq (h : c.number < 2 ^ 32) (hnonneg : 0 ≤ c.idx) : c.idx = c.number := by
  have hkey := key_eq h
  unfold key at hkey
  rwa [Int.emod_eq_of_lt hnonneg] at hkey
  unfold idx
  exact lt_of_lt_of_le (Int.bmod_lt (by decide)) (by decide)

end Call

/-- A call that is answered is answered under its number: the dispatcher takes no index but one
that is not negative. -/
theorem answers_of_message {c : Call} {run : Ending × Locals} {served : Served} {r : Response}
    (h : c.number < 2 ^ 32)
    (hserve : serve host.funcs host.suppressExceptions run c.message = .ok served)
    (hresp : served.response = some r) : r.Answers c.number := by
  obtain ⟨i, hi, hlo, -, hr⟩ := answers_of_serve hserve hresp
  obtain rfl := Obj.integer.inj hi
  rwa [Call.idx_eq h hlo] at hr

/-! ### What a step does to the calls

A multiset forgets the order and the queue, and so most steps do nothing. To see this for each
step is all the work; afterwards no queue is looked at again. -/

namespace Conn

/-- The calls that wait to be executed or are being executed. -/
def waiting (s : Conn) : Multiset Call :=
  ↑(s.strand.filterMap Posted.call?) + ↑s.outbox.queue + ↑s.toServer + ↑s.tasks + ↑s.running

/-- The responses, read ones included. -/
def responses (s : Conn) : Multiset Response :=
  ↑(s.writeStrand.filterMap SessionPosted.response?) + ↑s.writer.queue + ↑s.toClient + ↑s.received

end Conn

/-- Taking an element out of a queue. -/
theorem coe_eraseIdx {α : Type} {xs : List α} {k : ℕ} {x : α} (h : xs[k]? = some x) :
    (xs : Multiset α) = x ::ₘ ↑(xs.eraseIdx k) := by
  obtain ⟨hk, rfl⟩ := List.getElem?_eq_some_iff.mp h
  exact Multiset.coe_eq_coe.mpr (List.getElem_cons_eraseIdx_perm hk).symm

/-- A step at which nothing fails: no process dies, no write or read fails, and a task that
ends has a response and does not ask for the end of its session. -/
def Smooth (host : Host) (s : Conn) : Event → Prop
  | .sendFails | .writeFails | .readFails | .die => False
  | .finish k run => ∀ c, s.running[k]? = some c →
      ∃ resp, serve host.funcs host.suppressExceptions run c.message = .ok (.answer resp)
  | _ => True

/-- What a step does to calls and responses. Losing covers every fault there is, and a task
whose response is disabled ends without one. -/
inductive Flow (host : Host) (s : Conn) (e : Event) (s' : Conn) : Prop
  /-- They move on, from one queue to the next. -/
  | move (hcalls : s'.calls = s.calls) (hended : s'.ended = s.ended)
      (hwaiting : s'.waiting = s.waiting) (hresponses : s'.responses = s.responses)
  /-- Some are lost, for which there has to be a reason. -/
  | lose (hfail : s.alive = true → s.closed = false → Smooth host s e → s'.crashed = true)
      (hcalls : s'.calls = s.calls) (hended : s'.ended = s.ended)
      (hwaiting : s'.waiting ≤ s.waiting) (hresponses : s'.responses ≤ s.responses)
  /-- A call is made. -/
  | issue {c : Call} (hevent : ∃ name args, e = .call name args)
      (hnumber : c.number = s.calls.length + 1)
      (hcalls : s'.calls = s.calls ++ [c]) (hended : s'.ended = s.ended)
      (hwaiting : s'.waiting = c ::ₘ s.waiting)
      (hresponses : s'.responses = s.responses)
  /-- A call has been executed, and is answered unless there is no response. -/
  | finish {c : Call} {run : Ending × Locals} {served : Served}
      (hevent : ∃ k, e = .finish k run ∧ s.running[k]? = some c)
      (hserve : serve host.funcs host.suppressExceptions run c.message = .ok served)
      (hcalls : s'.calls = s.calls) (hended : s'.ended = (c, run) :: s.ended)
      (hwaiting : s.waiting = c ::ₘ s'.waiting)
      (hresponses : s'.responses = s.responses + (served.response.toList : Multiset Response))

@[simp] theorem filterMap_post (c : Call) (ps : List Posted) :
    (.post c :: ps).filterMap Posted.call? = c :: ps.filterMap Posted.call? := rfl

@[simp] theorem filterMap_erase (id : ℤ) (ps : List Posted) :
    (.erase id :: ps).filterMap Posted.call? = ps.filterMap Posted.call? := rfl

/-- Of what a task posts the response alone is a response. -/
@[simp] theorem Served.responses_posted (served : Served) :
    served.posted.filterMap SessionPosted.response? = served.response.toList := by
  obtain ⟨response, exit, stop⟩ := served
  cases response <;> cases exit <;> cases stop <;> rfl

/-- A message that has been written was in the queue. -/
theorem Writer.written_eq {α : Type} {exit : Bool} {w w' : Writer α} {x : α}
    (h : w.written exit = some (x, w')) : w.queue = x :: w'.queue := by
  unfold written at h
  split at h
  · cases h
  · split at h
    · cases h
    · rename_i item rest hq
      obtain ⟨rfl, rfl⟩ := Prod.mk.inj (Option.some.inj h)
      exact hq

/-- A write that fails leaves the queue as it is, its own item included. -/
theorem Writer.fail_eq {α : Type} {w w' : Writer α} (h : w.fail = some w') :
    w'.queue = w.queue := by
  unfold fail at h
  split at h
  · cases h
  · obtain rfl := Option.some.inj h
    rfl

namespace Conn

theorem coe_concat {α : Type} (xs : List α) (x : α) :
    ((xs ++ [x] : List α) : Multiset α) = x ::ₘ ↑xs := by
  rw [← Multiset.coe_add, Multiset.coe_singleton, add_comm, Multiset.singleton_add]

@[simp] theorem waiting_handle (p : Posted) :
    (s.handle p).waiting = (p.call?.toList : Multiset Call) + s.waiting := by
  cases p with
  | post c =>
    simp only [handle]
    split <;> simp only [waiting, Writer.write, coe_concat, Multiset.add_cons, Multiset.cons_add,
      Posted.call?, Option.toList_some, Multiset.coe_singleton, Multiset.singleton_add]
  | erase id =>
    simp only [handle, waiting, Posted.call?, Option.toList_none, Multiset.coe_nil, zero_add]

/-- A handler that leaves the strand hands its call on. -/
theorem waiting_strand {p : Posted} {rest : List Posted} (h : s.strand = p :: rest) :
    ({ s with strand := rest }.handle p).waiting = s.waiting := by
  rw [waiting_handle]
  simp only [waiting, h]
  cases p <;> simp [Posted.call?]

@[simp] theorem calls_handle (p : Posted) : (s.handle p).calls = s.calls := by
  cases p with
  | post c =>
    simp only [handle]
    split <;> rfl
  | erase id => rfl

@[simp] theorem ended_handle (p : Posted) : (s.handle p).ended = s.ended := by
  cases p with
  | post c =>
    simp only [handle]
    split <;> rfl
  | erase id => rfl

@[simp] theorem responses_handle (p : Posted) : (s.handle p).responses = s.responses := by
  cases p with
  | post c =>
    simp only [handle]
    split <;> rfl
  | erase id => rfl

@[simp] theorem waiting_respond (r : Response) : (s.respond r).waiting = s.waiting := by
  simp only [respond]
  split
  · rfl
  · simp only [waiting, List.filterMap_append, filterMap_erase, List.filterMap_nil, List.append_nil]

@[simp] theorem calls_respond (r : Response) : (s.respond r).calls = s.calls := by
  simp only [respond]
  split <;> rfl

@[simp] theorem ended_respond (r : Response) : (s.respond r).ended = s.ended := by
  simp only [respond]
  split <;> rfl

@[simp] theorem responses_respond (r : Response) : (s.respond r).responses = s.responses := by
  simp only [respond]
  split <;> rfl

@[simp] theorem waiting_handleSession (p : SessionPosted) :
    (s.handleSession p).waiting = s.waiting := by
  cases p <;> rfl

@[simp] theorem calls_handleSession (p : SessionPosted) : (s.handleSession p).calls = s.calls := by
  cases p <;> rfl

@[simp] theorem ended_handleSession (p : SessionPosted) : (s.handleSession p).ended = s.ended := by
  cases p <;> rfl

/-- A handler that leaves the write strand hands its response on. -/
theorem responses_writeStrand {p : SessionPosted} {rest : List SessionPosted}
    (h : s.writeStrand = p :: rest) :
    ({ s with writeStrand := rest }.handleSession p).responses = s.responses := by
  cases p with
  | write r =>
    simp only [handleSession, responses, h, Writer.write, List.filterMap_cons,
      SessionPosted.response?, ← Multiset.cons_coe, coe_concat, Multiset.add_cons, Multiset.cons_add]
  | exit => simp only [handleSession, responses, h, List.filterMap_cons, SessionPosted.response?]
  | closeSessions =>
    simp only [handleSession, responses, h, List.filterMap_append, List.filterMap_cons,
      List.filterMap_nil, SessionPosted.response?, List.append_nil]
  | close => simp only [handleSession, responses, h, List.filterMap_cons, SessionPosted.response?]

/-- The end of the process takes calls along, -/
theorem waiting_die_le : s.die.waiting ≤ s.waiting := by
  simp only [waiting, die, Multiset.coe_nil, add_zero, add_assoc]
  exact add_le_add le_rfl (Multiset.le_add_right _ _)

/-- and responses that have not been written. -/
theorem responses_die_le : s.die.responses ≤ s.responses := by
  simp only [responses, die, Writer.empty, List.filterMap_nil, Multiset.coe_nil, zero_add]
  exact add_le_add (Multiset.le_add_left _ _) le_rfl

end Conn

/-- Every step is one of these. -/
theorem flow_of_step (h : connStep host s e = some s') : Flow host s e s' := by
  cases connStep_cases h with
  | connect => exact .move rfl rfl rfl rfl
  | @call c _ _ hnumber =>
    refine .issue ⟨c.name, c.args, rfl⟩ hnumber rfl rfl ?_ rfl
    simp [Conn.waiting, Posted.call?]
  | @strand p rest _ hstrand =>
    refine .move (Conn.calls_handle p) (Conn.ended_handle p) (Conn.waiting_strand hstrand) ?_
    rw [Conn.responses_handle]
    rfl
  | sent _ hw =>
    -- On the wire the call is still waiting, unless nobody reads it.
    by_cases hlive : s.alive = true
    · refine .move rfl rfl ?_ rfl
      simp only [Conn.waiting, Writer.written_eq hw, ← Multiset.cons_coe, if_pos hlive,
        Conn.coe_concat, Multiset.add_cons, Multiset.cons_add]
    · refine .lose (fun h' _ _ => absurd h' hlive) rfl rfl ?_ le_rfl
      simp only [Conn.waiting, Writer.written_eq hw, ← Multiset.cons_coe, if_neg hlive,
        Multiset.add_cons, Multiset.cons_add]
      exact Multiset.le_cons_self _ _
  | sendFails _ hw =>
    refine .move rfl rfl ?_ rfl
    simp only [Conn.waiting, Writer.fail_eq hw]
  | receive _ hwire =>
    refine .move rfl rfl ?_ rfl
    simp only [Conn.waiting, hwire, ← Multiset.cons_coe, Conn.coe_concat, Multiset.add_cons,
      Multiset.cons_add]
  | start _ hk =>
    refine .move rfl rfl ?_ rfl
    simp only [Conn.waiting, coe_eraseIdx hk, Conn.coe_concat, Multiset.add_cons,
      Multiset.cons_add]
  | @finish k c run served hk hserve =>
    -- The one step at which a call leaves and a response comes.
    refine .finish ⟨k, rfl, hk⟩ hserve rfl rfl ?_ ?_
    · simp only [Conn.waiting, coe_eraseIdx hk, Multiset.add_cons]
    · simp only [Conn.responses, List.filterMap_append, Served.responses_posted,
        ← Multiset.coe_add]
      abel
  | @fault k c run fault hk hserve =>
    refine .lose (fun _ _ hsmooth => ?_) rfl rfl Conn.waiting_die_le Conn.responses_die_le
    -- The exception goes on into the thread, and the process is over.
    obtain ⟨resp, hok⟩ := hsmooth c hk
    rw [hserve] at hok
    cases hok
  | @writeStrand p rest hstrand =>
    refine .move (Conn.calls_handleSession p) (Conn.ended_handleSession p) ?_
      (Conn.responses_writeStrand hstrand)
    rw [Conn.waiting_handleSession]
    rfl
  | written _ hw =>
    refine .move rfl rfl rfl ?_
    simp only [Conn.responses, Writer.written_eq hw, ← Multiset.cons_coe, Conn.coe_concat,
      Multiset.add_cons, Multiset.cons_add]
  | writeFails hw =>
    refine .move rfl rfl rfl ?_
    simp only [Conn.responses, Writer.fail_eq hw]
  | hangUp => exact .move rfl rfl rfl rfl
  | read _ _ hwire =>
    refine .move (Conn.calls_respond _) (Conn.ended_respond _) ?_ ?_
    · rw [Conn.waiting_respond]
      rfl
    · rw [Conn.responses_respond]
      simp only [Conn.responses, hwire, ← Multiset.cons_coe, Multiset.add_cons, Multiset.cons_add]
  | unreadable _ _ hwire =>
    -- A response that cannot be converted ends the client's thread.
    refine .lose (fun _ _ _ => rfl) rfl rfl le_rfl ?_
    simp only [Conn.responses, hwire, ← Multiset.cons_coe, Multiset.add_cons, Multiset.cons_add]
    exact Multiset.le_cons_self _ _
  | disconnect _ _ hgone =>
    refine .lose (fun hlive hopen _ => ?_) rfl rfl le_rfl ?_
    · rcases hgone with hdead | hclosed
      · cases hlive.symm.trans hdead
      · cases hopen.symm.trans hclosed
    · simp only [Conn.responses, Multiset.coe_nil, add_zero]
      exact add_le_add (Multiset.le_add_right _ _) le_rfl
  | readFails => exact .move rfl rfl rfl rfl
  | die =>
    exact .lose (fun _ _ hsmooth => hsmooth.elim) rfl rfl Conn.waiting_die_le Conn.responses_die_le

/-! ### At most once

The count of a number over all queues and the history of executions is at most 1. A call makes
it 1, an execution moves it from one side to the other, and a loss lowers it. The responses are
counted by the executions. -/

/-- No call makes the index of the calls wrap around to one in use. -/
def Few (s : Conn) (e : Event) : Prop :=
  ∀ name args, e = .call name args → s.calls.length + 1 < 2 ^ 32

/-- What is known of calls and responses. -/
structure Transit (host : Host) (s : Conn) : Prop where
  few : s.calls.length < 2 ^ 32
  /-- The calls are numbered in the order in which they are made. -/
  numbers : ∀ i c, s.calls[i]? = some c → c.number = i + 1
  waiting : ∀ c ∈ s.waiting, c ∈ s.calls
  ended : ∀ x ∈ s.ended, x.1 ∈ s.calls
  /-- A call is in one place, and once it has been executed in none. -/
  once : ∀ n, (s.waiting.map Call.number).count n + (s.ended.map fun x => x.1.number).count n ≤ 1
  /-- A response is what the dispatcher made of a call that has been executed. -/
  responded : ∀ r ∈ s.responses, ∃ x ∈ s.ended, ∃ served,
    serve host.funcs host.suppressExceptions x.2 x.1.message = .ok served ∧
      served.response = some r
  /-- There is no response but to a call that has been executed, and only one. -/
  single : ∀ n : ℕ, (s.responses.map Response.id).count (n : ℤ) ≤
    (s.ended.map fun x => x.1.number).count n

namespace Transit

variable {c : Call}

/-- A call has one of the numbers so far. -/
theorem number_le (h : Transit host s) (hc : c ∈ s.calls) :
    0 < c.number ∧ c.number ≤ s.calls.length := by
  obtain ⟨i, hi⟩ := List.getElem?_of_mem hc
  have hlt := (List.getElem?_eq_some_iff.mp hi).1
  rw [h.numbers i c hi]
  omega

theorem number_lt (h : Transit host s) (hc : c ∈ s.calls) : c.number < 2 ^ 32 :=
  lt_of_le_of_lt (h.number_le hc).2 h.few

theorem eq_of_number (h : Transit host s) {c' : Call} (hc : c ∈ s.calls) (hc' : c' ∈ s.calls)
    (hn : c.number = c'.number) : c = c' := by
  obtain ⟨i, hi⟩ := List.getElem?_of_mem hc
  obtain ⟨j, hj⟩ := List.getElem?_of_mem hc'
  rw [h.numbers i c hi, h.numbers j c' hj] at hn
  obtain rfl := Nat.add_right_cancel hn
  exact Option.some.inj (hi.symm.trans hj)

end Transit

theorem transit_init : Transit host .init where
  few := by decide
  numbers := by intro i c hi; cases hi
  waiting := by intro c hc; cases hc
  ended := by intro x hx; cases hx
  once := by intro n; simp [Conn.waiting, Conn.init, Writer.empty]
  responded := by intro r hr; cases hr
  single := by intro n; simp [Conn.responses, Conn.init, Writer.empty]

/-- A step keeps calls and responses in order, by the five things it can do to them. -/
theorem Transit.step (h : Transit host s) (hfew : Few s e) (hstep : connStep host s e = some s') :
    Transit host s' := by
  cases flow_of_step hstep with
  | move hcalls hended hwaiting hresponses =>
    refine ⟨hcalls ▸ h.few, hcalls ▸ h.numbers, ?_, ?_, ?_, ?_, ?_⟩
    · rw [hwaiting, hcalls]
      exact h.waiting
    · rw [hended, hcalls]
      exact h.ended
    · rw [hwaiting, hended]
      exact h.once
    · rw [hresponses, hended]
      exact h.responded
    · rw [hresponses, hended]
      exact h.single
  | lose _ hcalls hended hwaiting hresponses =>
    refine ⟨hcalls ▸ h.few, hcalls ▸ h.numbers, fun c hc => ?_, fun x hx => ?_, fun n => ?_,
      fun r hr => ?_, fun n => ?_⟩
    · rw [hcalls]
      exact h.waiting c (Multiset.mem_of_le hwaiting hc)
    · rw [hcalls]
      exact h.ended x (hended ▸ hx)
    · rw [hended]
      have hle := Multiset.count_le_of_le n (Multiset.map_le_map (f := Call.number) hwaiting)
      have honce := h.once n
      omega
    · rw [hended]
      exact h.responded r (Multiset.mem_of_le hresponses hr)
    · rw [hended]
      exact (Multiset.count_le_of_le _ (Multiset.map_le_map hresponses)).trans (h.single n)
  | @issue c hevent hnumber hcalls hended hwaiting hresponses =>
    obtain ⟨name, args, rfl⟩ := hevent
    -- The number of the new call has not been given to a call before.
    have hwnew : (s.waiting.map Call.number).count c.number = 0 := by
      refine Multiset.count_eq_zero.mpr fun hmem => ?_
      obtain ⟨c', hc', hn⟩ := Multiset.mem_map.mp hmem
      have := (h.number_le (h.waiting c' hc')).2
      omega
    have henew : (s.ended.map fun x => x.1.number).count c.number = 0 := by
      refine List.count_eq_zero.mpr fun hmem => ?_
      obtain ⟨x, hx, hn⟩ := List.mem_map.mp hmem
      have := (h.number_le (h.ended x hx)).2
      omega
    refine ⟨?_, fun i c' hi => ?_, fun c' hc' => ?_, fun x hx => ?_, fun n => ?_, ?_, ?_⟩
    · rw [hcalls, List.length_append]
      exact hfew name args rfl
    · rw [hcalls, List.getElem?_append] at hi
      split at hi
      · exact h.numbers i c' hi
      · rename_i hlen
        have hi0 : i - s.calls.length = 0 := by
          have := (List.getElem?_eq_some_iff.mp hi).1
          simp only [List.length_singleton] at this
          omega
        rw [hi0] at hi
        obtain rfl := Option.some.inj hi
        omega
    · rw [hcalls, List.mem_append, List.mem_singleton]
      rw [hwaiting, Multiset.mem_cons] at hc'
      exact hc'.symm.imp (h.waiting c') id
    · rw [hcalls]
      exact List.mem_append_left _ (h.ended x (hended ▸ hx))
    · rw [hended, hwaiting, Multiset.map_cons, Multiset.count_cons]
      have honce := h.once n
      split
      · rename_i hn
        rw [hn, hwnew, henew]
      · exact honce
    · rw [hresponses, hended]
      exact h.responded
    · rw [hresponses, hended]
      exact h.single
  | @finish c run served _ hserve hcalls hended hwaiting hresponses =>
    have hc : c ∈ s.calls := h.waiting c (hwaiting ▸ Multiset.mem_cons_self c _)
    refine ⟨hcalls ▸ h.few, hcalls ▸ h.numbers, fun c' hc' => ?_, fun x hx => ?_, fun n => ?_,
      fun r hr => ?_, fun n => ?_⟩
    · rw [hcalls]
      exact h.waiting c' (hwaiting ▸ Multiset.mem_cons_of_mem hc')
    · rw [hended, List.mem_cons] at hx
      rw [hcalls]
      rcases hx with rfl | hx
      · exact hc
      · exact h.ended x hx
    · have honce := h.once n
      rw [hwaiting, Multiset.map_cons, Multiset.count_cons] at honce
      rw [hended, List.map_cons, List.count_cons]
      simp only [beq_iff_eq, @eq_comm _ c.number n] at honce ⊢
      omega
    · rw [hended]
      rw [hresponses, Multiset.mem_add] at hr
      rcases hr with hr | hr
      · obtain ⟨x, hx, hxr⟩ := h.responded r hr
        exact ⟨x, List.mem_cons_of_mem _ hx, hxr⟩
      · exact ⟨(c, run), List.mem_cons_self, served, hserve,
          Option.mem_toList.mp (Multiset.mem_coe.mp hr)⟩
    · have hsingle := h.single n
      rw [hresponses, hended, Multiset.map_add, Multiset.count_add, List.map_cons, List.count_cons]
      -- At most one response more, under the number of the call that has just been executed.
      cases hresp : served.response with
      | none => simpa using hsingle.trans (Nat.le_add_right _ _)
      | some r =>
        have hid := (answers_of_message (h.number_lt hc) hserve hresp).id
        simp only [Option.toList_some, Multiset.coe_singleton, Multiset.map_singleton, hid,
          Multiset.count_singleton, Nat.cast_inj, beq_iff_eq, @eq_comm _ n c.number]
        omega

/-- Calls and responses are in order in every state of every run with few calls. -/
theorem transit_of_reaches (h : Transition.Reaches (connStep host) Few .init s) : Transit host s :=
  h.invariant (P := Transit host) (fun _ _ _ hs hok hstep => hs.step hok hstep) transit_init

end MapReduceCpp.Rpc
