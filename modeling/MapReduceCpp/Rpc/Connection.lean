import MapReduceCpp.Rpc.Dispatcher
import MapReduceCpp.Lib.Transition
import Mathlib.Logic.Function.Basic

/-!
# MapReduceCpp.Rpc.Connection

A client of `rpclib` and the server behind it, as a step relation.

The calls of one thread go through the client's strand, which enters each into
`ongoing_calls_` and hands its message to the write queue; the queue writes one message
at a time. The server posts a task for every message it reads, any free thread takes up
any task, and what a task answers goes back through a strand and a write queue of its
own. The client finds the promise of a response by the id alone, and erases the entry in
a later handler of the strand.

A handler can ask for the end of its session, or of all sessions of the server, of which
the model has this one. The request goes through the write strand, behind the response.
From then on the session reads no message and begins no write; tasks that have been posted
still run. Its socket is closed behind the write that is under way, by a handler of the
strand, or when the session is about to read again. A task has a plain pointer to its
session, which `close_sessions` may destroy before it ends; the model goes on there with a
session whose socket is closed, and says nothing of what the pointer does.

The environment connects the client, ends handlers, fails writes and reads, and kills the
server. A task that runs into something undefined ends the server as an exception does. A
message is on the wire as a whole: one of which not all bytes arrive is not
unpacked. `calls`, `ended` and `received` are histories that no code reads.

`ConnStep` says of `connStep` what each event can do and under which guards, so that an
invariant is proved by cases on it and a run is exhibited by its cases.
-/

namespace MapReduceCpp.Rpc

/-- A call, with its number from 1 on. -/
structure Call where
  number : ℕ
  name : Str
  args : List Obj

namespace Call

/-- The value of `call_idx_`, an `int` that wraps around. -/
def idx (c : Call) : ℤ := Int.bmod c.number (2 ^ 32)

/-- The key of the call in `ongoing_calls_`, where the index is converted to a `uint32_t`. -/
def key (c : Call) : ℤ := c.idx % 2 ^ 32

/-- What `async_call` packs. -/
def message (c : Call) : Obj :=
  .array [.integer 0, .integer c.idx, .str c.name, .array c.args]

end Call

/-- What becomes of a future. -/
inductive Answer
  | value (result : Obj)
  /-- `rpc_error`, with the name of the function. -/
  | rpcError (func : Str) (error : Obj)
  /-- The promise was destroyed without an answer. -/
  | brokenPromise

/-- `as<bool>` on what a future holds. -/
def Answer.asBool : Answer → Option Bool
  | value (.boolean b) => some b
  | _ => none

/-- An entry of `ongoing_calls_`. One that `operator[]` has made has a promise whose
future nobody holds. -/
structure Entry where
  func : Str
  promise : Option ℕ
  satisfied : Bool

/-- A handler posted to the client's strand. -/
inductive Posted
  | post (c : Call)
  | erase (id : ℤ)

def Posted.call? : Posted → Option Call
  | post c => some c
  | erase _ => none

/-- A handler posted to the write strand of the session. -/
inductive SessionPosted
  | write (r : Response)
  /-- `exit_ = true`, behind `post_exit` of a handler. -/
  | exit
  /-- `parent_->close_sessions()`, behind `stop` of a handler. -/
  | closeSessions
  /-- `socket_.close()`, posted by `close`. -/
  | close

def SessionPosted.response? : SessionPosted → Option Response
  | write r => some r
  | _ => none

/-- What a task posts, in this order: the response, and behind it the end. -/
def Served.posted (served : Served) : List SessionPosted :=
  served.response.toList.map .write ++ (if served.exit then [.exit] else []) ++
    if served.stop then [.closeSessions] else []

/-- `async_writer`: the queue, the first element of which is being written unless the
chain of writes has come to an end with items left in the queue. -/
structure Writer (α : Type) where
  queue : List α
  stuck : Bool

namespace Writer

variable {α : Type}

def empty : Writer α := ⟨[], false⟩

/-- `write`. It starts a chain of writes if the queue was empty; with `exit_` set that
writes nothing, and as the queue is not empty any more no later call starts a chain. -/
def write (exit : Bool) (w : Writer α) (item : α) : Writer α :=
  ⟨w.queue ++ [item], w.stuck || (exit && w.queue.isEmpty)⟩

/-- The end of a write: the item leaves the queue, and the chain goes on behind it unless
`exit_` is set. -/
def written (exit : Bool) (w : Writer α) : Option (α × Writer α) :=
  if w.stuck then none
  else
    match w.queue with
    | [] => none
    | item :: rest => some (item, ⟨rest, exit && !rest.isEmpty⟩)

/-- A write that fails leaves its item in front, so no other write ever starts. -/
def fail (w : Writer α) : Option (Writer α) :=
  if w.stuck ∨ w.queue.isEmpty then none else some { w with stuck := true }

end Writer

/-- `client::connection_state`, as far as the code sets it. -/
inductive ConnectionState
  | initial
  | connected
  | disconnected
  deriving DecidableEq, Repr

/-- The server's functions, its setting for exceptions and its threads. -/
structure Host where
  funcs : Funcs
  suppressExceptions : Bool
  threads : ℕ

/-- The two ends of a connection and the wire between. The order of the queues is that of the
strands; only the tasks of the server are taken up in any order. -/
structure Conn where
  state : ConnectionState
  /-- Whether the client goes on reading; it stops at any error. -/
  reading : Bool
  /-- The calls so far, whose number is `call_idx_`. -/
  calls : List Call
  strand : List Posted
  ongoingCalls : ℤ → Option Entry
  /-- The futures of the calls, by number. -/
  promises : ℕ → Option Answer
  /-- An exception has left a handler of the client's thread. -/
  crashed : Bool
  outbox : Writer Call
  toServer : List Call
  alive : Bool
  /-- The tasks that wait for a thread. -/
  tasks : List Call
  running : List Call
  writeStrand : List SessionPosted
  writer : Writer Response
  /-- `exit_` of the session. -/
  exit : Bool
  /-- The socket of the session has been closed. -/
  closed : Bool
  toClient : List Response
  /-- The tasks that have ended, with what their handlers did. -/
  ended : List (Call × Ending × Locals)
  /-- The responses that the client has read. -/
  received : List Response

namespace Conn

/-- A client that has been created, and a server that listens. -/
def init : Conn where
  state := .initial
  reading := false
  calls := []
  strand := []
  ongoingCalls := fun _ => none
  promises := fun _ => none
  crashed := false
  outbox := .empty
  toServer := []
  alive := true
  tasks := []
  running := []
  writeStrand := []
  writer := .empty
  exit := false
  closed := false
  toClient := []
  ended := []
  received := []

/-- The end of the server's process. What it has written may still arrive. -/
def die (s : Conn) : Conn :=
  { s with
    alive := false
    toServer := []
    tasks := []
    running := []
    writeStrand := []
    writer := .empty }

/-- A handler of the client's strand. `insert` keeps an entry that is there, and the
promise that was to be inserted is destroyed. -/
def handle (s : Conn) : Posted → Conn
  | .post c =>
    let s := { s with outbox := s.outbox.write false c }
    match s.ongoingCalls c.key with
    | none =>
      { s with ongoingCalls :=
          Function.update s.ongoingCalls c.key (some ⟨c.name, some c.number, false⟩) }
    | some _ => { s with promises := Function.update s.promises c.number (some .brokenPromise) }
  | .erase id => { s with ongoingCalls := Function.update s.ongoingCalls id none }

/-- What a response does to the promise of a function's entry. -/
def answerOf (func : Str) (r : Response) : Answer :=
  match r.error with
  | some error => .rpcError func error
  | none => .value (r.result.getD .nil)

/-- The body of the loop in `do_read`. A promise that has its answer cannot be given another:
`set_value` throws, and so does `set_exception` in the handler of that, which ends the client's
thread. `operator[]` makes an entry where there is none. -/
def respond (s : Conn) (r : Response) : Conn :=
  let entry := (s.ongoingCalls r.id).getD ⟨[], none, false⟩
  if entry.satisfied then { s with crashed := true }
  else
    { s with
      ongoingCalls := Function.update s.ongoingCalls r.id (some { entry with satisfied := true })
      promises :=
        match entry.promise with
        | none => s.promises
        | some n => Function.update s.promises n (some (answerOf entry.func r))
      strand := s.strand ++ [.erase r.id] }

/-- A handler of the session's write strand. `close_sessions` sets `exit_` and posts the
end of the socket. -/
def handleSession (s : Conn) : SessionPosted → Conn
  | .write r => { s with writer := s.writer.write s.exit r }
  | .exit => { s with exit := true }
  | .closeSessions => { s with exit := true, writeStrand := s.writeStrand ++ [.close] }
  | .close => { s with closed := true }

end Conn

/-- The steps of a connection. -/
inductive Event
  /-- The client gets its connection. -/
  | connect
  /-- `async_call`. -/
  | call (name : Str) (args : List Obj)
  /-- The client's thread runs the next handler of the strand. -/
  | strand
  /-- The client has written a message. -/
  | sent
  /-- The client fails to write a message. -/
  | sendFails
  /-- The server reads a message and posts a task for it. -/
  | receive
  /-- A thread of the server takes up a task. -/
  | start (k : ℕ)
  /-- A task ends, its handler as given. -/
  | finish (k : ℕ) (run : Ending × Locals)
  /-- A thread of the server runs the next handler of the session's write strand. -/
  | writeStrand
  /-- The server has written a response. -/
  | written
  /-- The server fails to write a response. -/
  | writeFails
  /-- The session finds `exit_` set when it is about to read again. -/
  | hangUp
  /-- The client reads a response. -/
  | read
  /-- The client finds the connection closed or reset. -/
  | disconnect
  /-- The client fails to read in another way. -/
  | readFails
  /-- The server is killed. -/
  | die

variable (host : Host)

/-- One step. -/
def connStep (s : Conn) : Event → Option Conn
  | .connect =>
    if s.state = .initial ∧ s.alive then some { s with state := .connected, reading := true }
    else none
  -- `wait_conn` lets calls through once the connection has been made.
  | .call name args =>
    if s.state = .initial ∨ s.crashed then none
    else
      let c : Call := ⟨s.calls.length + 1, name, args⟩
      some { s with calls := s.calls ++ [c], strand := s.strand ++ [.post c] }
  | .strand =>
    if s.crashed then none
    else
      match s.strand with
      | [] => none
      | p :: rest => some ({ s with strand := rest }.handle p)
  -- A message that is written to a dead server is lost on the way.
  | .sent =>
    if s.crashed then none
    else
      (s.outbox.written false).map fun (c, outbox) =>
        { s with outbox := outbox, toServer := if s.alive then s.toServer ++ [c] else s.toServer }
  | .sendFails =>
    if s.crashed then none else s.outbox.fail.map fun outbox => { s with outbox := outbox }
  -- `exit_` is tested behind each message.
  | .receive =>
    if s.exit then none
    else
      match s.toServer with
      | [] => none
      | c :: rest => some { s with toServer := rest, tasks := s.tasks ++ [c] }
  | .start k =>
    if s.running.length < host.threads then
      s.tasks[k]?.map fun c =>
        { s with tasks := s.tasks.eraseIdx k, running := s.running ++ [c] }
    else none
  -- An exception that the dispatcher lets through ends the process.
  | .finish k run =>
    s.running[k]?.map fun c =>
      match serve host.funcs host.suppressExceptions run c.message with
      | .error _ => s.die
      | .ok served =>
        { s with
          running := s.running.eraseIdx k
          writeStrand := s.writeStrand ++ served.posted
          ended := (c, run) :: s.ended }
  | .writeStrand =>
    match s.writeStrand with
    | [] => none
    | p :: rest => some ({ s with writeStrand := rest }.handleSession p)
  -- With `exit_` set the end of a write is the end of the socket.
  | .written =>
    if s.closed then none
    else
      (s.writer.written s.exit).map fun (r, writer) =>
        { s with writer := writer, toClient := s.toClient ++ [r], closed := s.exit }
  | .writeFails =>
    s.writer.fail.map fun writer => { s with writer := writer, closed := s.closed || s.exit }
  | .hangUp => if s.alive ∧ s.exit then some { s with closed := true } else none
  | .read =>
    if s.crashed ∨ s.reading = false then none
    else
      match s.toClient with
      | [] => none
      | r :: rest =>
        match Response.ofObject r.getData with
        -- The exception of a conversion leaves the handler.
        | .error _ => some { s with toClient := rest, crashed := true }
        | .ok resp => some ({ s with toClient := rest, received := r :: s.received }.respond resp)
  -- What has arrived and has not been read is dropped with the connection.
  | .disconnect =>
    if s.crashed = false ∧ s.reading = true ∧ (s.alive = false ∨ s.closed = true) then
      some { s with state := .disconnected, reading := false, toClient := [] }
    else none
  | .readFails =>
    if s.crashed = false ∧ s.reading = true then some { s with reading := false } else none
  | .die => if s.alive then some s.die else none

/-- The steps as a relation, with the guards and the successor of each written out. The two
events that may end in an exception have two cases each. -/
inductive ConnStep (s : Conn) : Event → Conn → Prop
  | connect (hinit : s.state = .initial) (halive : s.alive = true) :
      ConnStep s .connect { s with state := .connected, reading := true }
  | call {c : Call} (hstate : s.state ≠ .initial) (hcrashed : s.crashed = false)
      (hnumber : c.number = s.calls.length + 1) :
      ConnStep s (.call c.name c.args)
        { s with calls := s.calls ++ [c], strand := s.strand ++ [.post c] }
  | strand {p : Posted} {rest : List Posted} (hcrashed : s.crashed = false)
      (hstrand : s.strand = p :: rest) :
      ConnStep s .strand ({ s with strand := rest }.handle p)
  | sent {c : Call} {outbox : Writer Call} (hcrashed : s.crashed = false)
      (hwritten : s.outbox.written false = some (c, outbox)) :
      ConnStep s .sent
        { s with
          outbox := outbox
          toServer := if s.alive then s.toServer ++ [c] else s.toServer }
  | sendFails {outbox : Writer Call} (hcrashed : s.crashed = false)
      (hfail : s.outbox.fail = some outbox) :
      ConnStep s .sendFails { s with outbox := outbox }
  | receive {c : Call} {wire : List Call} (hexit : s.exit = false) (hwire : s.toServer = c :: wire) :
      ConnStep s .receive { s with toServer := wire, tasks := s.tasks ++ [c] }
  | start {k : ℕ} {c : Call} (hthread : s.running.length < host.threads)
      (hk : s.tasks[k]? = some c) :
      ConnStep s (.start k) { s with tasks := s.tasks.eraseIdx k, running := s.running ++ [c] }
  | finish {k : ℕ} {c : Call} {run : Ending × Locals} {served : Served}
      (hk : s.running[k]? = some c)
      (hserve : serve host.funcs host.suppressExceptions run c.message = .ok served) :
      ConnStep s (.finish k run)
        { s with
          running := s.running.eraseIdx k
          writeStrand := s.writeStrand ++ served.posted
          ended := (c, run) :: s.ended }
  | fault {k : ℕ} {c : Call} {run : Ending × Locals} {fault : Fault}
      (hk : s.running[k]? = some c)
      (hserve : serve host.funcs host.suppressExceptions run c.message = .error fault) :
      ConnStep s (.finish k run) s.die
  | writeStrand {p : SessionPosted} {rest : List SessionPosted}
      (hstrand : s.writeStrand = p :: rest) :
      ConnStep s .writeStrand ({ s with writeStrand := rest }.handleSession p)
  | written {r : Response} {writer : Writer Response} (hclosed : s.closed = false)
      (hwritten : s.writer.written s.exit = some (r, writer)) :
      ConnStep s .written
        { s with writer := writer, toClient := s.toClient ++ [r], closed := s.exit }
  | writeFails {writer : Writer Response} (hfail : s.writer.fail = some writer) :
      ConnStep s .writeFails { s with writer := writer, closed := s.closed || s.exit }
  | hangUp (halive : s.alive = true) (hexit : s.exit = true) : ConnStep s .hangUp { s with closed := true }
  | read {r : Response} {wire : List Response} {resp : Response} (hcrashed : s.crashed = false)
      (hreading : s.reading = true) (hwire : s.toClient = r :: wire)
      (hresp : Response.ofObject r.getData = .ok resp) :
      ConnStep s .read ({ s with toClient := wire, received := r :: s.received }.respond resp)
  | unreadable {r : Response} {wire : List Response} {fault : Fault}
      (hcrashed : s.crashed = false) (hreading : s.reading = true)
      (hwire : s.toClient = r :: wire) (hresp : Response.ofObject r.getData = .error fault) :
      ConnStep s .read { s with toClient := wire, crashed := true }
  | disconnect (hcrashed : s.crashed = false) (hreading : s.reading = true)
      (hgone : s.alive = false ∨ s.closed = true) :
      ConnStep s .disconnect { s with state := .disconnected, reading := false, toClient := [] }
  | readFails (hcrashed : s.crashed = false) (hreading : s.reading = true) :
      ConnStep s .readFails { s with reading := false }
  | die (halive : s.alive = true) : ConnStep s .die s.die

variable {host : Host} {s s' : Conn} {e : Event}

/-- Every step is one of these. It is proved once, and no later proof unfolds `connStep` to see
what an event has done. -/
theorem connStep_cases (h : connStep host s e = some s') : ConnStep host s e s' := by
  cases e with
  | connect =>
    simp only [connStep] at h
    split at h
    · rename_i hinit
      obtain rfl := Option.some.inj h
      exact .connect hinit.1 hinit.2
    · simp at h
  | call name args =>
    simp only [connStep] at h
    split at h
    · simp at h
    · rename_i hopen
      obtain ⟨hstate, hcrashed⟩ := not_or.mp hopen
      obtain rfl := Option.some.inj h
      exact .call (c := ⟨_, name, args⟩) hstate (Bool.eq_false_iff.mpr hcrashed) rfl
  | strand =>
    simp only [connStep] at h
    split at h
    · simp at h
    · rename_i hcrashed
      split at h
      · simp at h
      · rename_i p rest hstrand
        obtain rfl := Option.some.inj h
        exact .strand (Bool.eq_false_iff.mpr hcrashed) hstrand
  | sent =>
    simp only [connStep] at h
    split at h
    · simp at h
    · rename_i hcrashed
      obtain ⟨⟨c, w⟩, hw, rfl⟩ := Option.map_eq_some_iff.mp h
      exact .sent (Bool.eq_false_iff.mpr hcrashed) hw
  | sendFails =>
    simp only [connStep] at h
    split at h
    · simp at h
    · rename_i hcrashed
      obtain ⟨w, hw, rfl⟩ := Option.map_eq_some_iff.mp h
      exact .sendFails (Bool.eq_false_iff.mpr hcrashed) hw
  | receive =>
    simp only [connStep] at h
    split at h
    · simp at h
    · rename_i hexit
      split at h
      · simp at h
      · rename_i c wire hwire
        obtain rfl := Option.some.inj h
        exact .receive (Bool.eq_false_iff.mpr hexit) hwire
  | start k =>
    simp only [connStep] at h
    split at h
    · rename_i hthread
      obtain ⟨c, hk, rfl⟩ := Option.map_eq_some_iff.mp h
      exact .start hthread hk
    · simp at h
  | finish k run =>
    obtain ⟨c, hk, hs'⟩ := Option.map_eq_some_iff.mp h
    split at hs'
    · rename_i fault hserve
      obtain rfl := hs'
      exact .fault hk hserve
    · rename_i served hserve
      obtain rfl := hs'
      exact .finish hk hserve
  | writeStrand =>
    simp only [connStep] at h
    split at h
    · simp at h
    · rename_i p rest hstrand
      obtain rfl := Option.some.inj h
      exact .writeStrand hstrand
  | written =>
    simp only [connStep] at h
    split at h
    · simp at h
    · rename_i hclosed
      obtain ⟨⟨r, w⟩, hw, rfl⟩ := Option.map_eq_some_iff.mp h
      exact .written (Bool.eq_false_iff.mpr hclosed) hw
  | writeFails =>
    obtain ⟨w, hw, rfl⟩ := Option.map_eq_some_iff.mp h
    exact .writeFails hw
  | hangUp =>
    simp only [connStep] at h
    split at h
    · rename_i hexit
      obtain rfl := Option.some.inj h
      exact .hangUp hexit.1 hexit.2
    · simp at h
  | read =>
    simp only [connStep] at h
    split at h
    · simp at h
    · rename_i hopen
      obtain ⟨hcrashed, hreading⟩ := not_or.mp hopen
      rw [Bool.not_eq_true] at hcrashed
      rw [Bool.not_eq_false] at hreading
      split at h
      · simp at h
      · rename_i r wire hwire
        split at h
        · rename_i fault hresp
          obtain rfl := Option.some.inj h
          exact .unreadable hcrashed hreading hwire hresp
        · rename_i resp hresp
          obtain rfl := Option.some.inj h
          exact .read hcrashed hreading hwire hresp
  | disconnect =>
    simp only [connStep] at h
    split at h
    · rename_i hgone
      obtain rfl := Option.some.inj h
      exact .disconnect hgone.1 hgone.2.1 hgone.2.2
    · simp at h
  | readFails =>
    simp only [connStep] at h
    split at h
    · rename_i hopen
      obtain rfl := Option.some.inj h
      exact .readFails hopen.1 hopen.2
    · simp at h
  | die =>
    simp only [connStep] at h
    split at h
    · rename_i halive
      obtain rfl := Option.some.inj h
      exact .die halive
    · simp at h

/-- And every one of these is a step. -/
theorem ConnStep.enabled (h : ConnStep host s e s') : connStep host s e = some s' := by
  cases h with
  | connect hinit halive => simp [connStep, hinit, halive]
  | @call c hstate hcrashed hnumber =>
    obtain ⟨number, name, args⟩ := c
    obtain rfl := hnumber
    simp [connStep, hstate, hcrashed]
  | strand hcrashed hstrand => simp [connStep, hcrashed, hstrand]
  | sent hcrashed hwritten => simp [connStep, hcrashed, hwritten]
  | sendFails hcrashed hfail => simp [connStep, hcrashed, hfail]
  | receive hexit hwire => simp [connStep, hexit, hwire]
  | start hthread hk => simp [connStep, hthread, hk]
  | finish hk hserve => simp [connStep, hk, hserve]
  | fault hk hserve => simp [connStep, hk, hserve]
  | writeStrand hstrand => simp [connStep, hstrand]
  | written hclosed hwritten => simp [connStep, hclosed, hwritten]
  | writeFails hfail => simp [connStep, hfail]
  | hangUp halive hexit => simp [connStep, halive, hexit]
  | read hcrashed hreading hwire hresp => simp [connStep, hcrashed, hreading, hwire, hresp]
  | unreadable hcrashed hreading hwire hresp =>
    simp [connStep, hcrashed, hreading, hwire, hresp]
  | disconnect hcrashed hreading hgone => simp [connStep, hcrashed, hreading, hgone]
  | readFails hcrashed hreading => simp [connStep, hcrashed, hreading]
  | die halive => simp [connStep, halive]

end MapReduceCpp.Rpc
