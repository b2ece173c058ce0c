import MapReduceCpp.Job
import MapReduceCpp.Lib.Transition

/-!
# MapReduceCpp.Process

`MapReduceMaster::process` as a step relation over the master, the worker
processes it forks and the messages between them.

The master is a program counter (`Ctrl`) over its local variables; one step is
what it does between two points at which another party can act, so the test of a
connection and the call that follows it are two steps, as are the fork, the new
client and the task that is sent again. A worker process (`Server`) holds the
globals it got from the fork, the requests that wait for one of its two threads
and the controllers it runs, each a `FileProg` that performs one file operation a
step. The environment connects and disconnects clients and kills processes.

Of `rpclib` the steps assume this much. A call waits until the connection of its
client has been made once; on a connection that is gone the request is lost and no
answer comes. A request that arrives is executed at most once, in any order, by
one of the threads of `async_run(2)`, and its answer comes from that process. A
fault that leaves a handler ends the process.

Two things are drawn together. The execution of a poll is the moment at which its
answer is on the wire: the handlers of `is_map_done` and `is_reduce_done` do nothing
but read a flag, so an answer that is lost with its process is a poll that was not
executed. And a worker sits in `cin >> b` while its threads work, and returns from
`process` when that read comes back (three times in the source, behind
`async_run(2)`): its standard input is taken to block, as the comment there has it,
and where it ends instead the process ends at some step, which is a kill.

`sent` and `returned` are histories that no code reads: all requests addressed to
a process, and the controller calls it has completed with the codes the handlers
drop.
-/

namespace MapReduceCpp

/-- The two phases of a run. Their loops are the same code over their own
variables. -/
inductive Phase
  | map
  | reduce
  deriving DecidableEq, Repr

/-- A `"map"` or `"reduce"` task: the controller and the `idx` it is called with. -/
structure Task where
  phase : Phase
  id : ℕ
  deriving DecidableEq, Repr

/-- A request to a worker: `"map"` or `"reduce"`, `"is_map_done"` or
`"is_reduce_done"`, or `"stop_server"`. -/
inductive Request
  | task (t : Task)
  | isDone (ph : Phase)
  | stopServer
  deriving DecidableEq, Repr

/-- A handler in the middle of its controller: what is left to do and the files it
has open. -/
structure Exec where
  task : Task
  prog : FileProg Path Char TaskResult
  opened : List Path

/-- A worker process. -/
structure Server where
  /-- The index of the port it listens on. -/
  worker : ℕ
  alive : Bool
  /-- `map_completed` and `reduce_completed`. -/
  completed : Phase → Bool
  /-- Requests that have arrived and wait for a thread. -/
  inbox : List Request
  running : List Exec
  /-- The answer to an `isDone` request that is on its way to the master. -/
  reply : Option (Phase × Bool)
  /-- All requests addressed to this process. -/
  sent : List Request
  /-- The controller calls that have returned, with their codes. -/
  returned : List (Task × ℤ)

/-- The connection of a client: not yet made, made, or found to be gone. -/
inductive Client
  | initial
  | connected (pid : ℕ)
  | disconnected (pid : ℕ)
  deriving DecidableEq, Repr

/-- The process behind a client. -/
def Client.pid? : Client → Option ℕ
  | initial => none
  | connected pid => some pid
  | disconnected pid => some pid

/-- The variables of one heart-beat loop: `map_future_pool`, `map_task_status` and
`nr_map_done`, or their `reduce` namesakes. Nothing ever waits for a future or reads it, so it
is known by the process that is to complete it. -/
structure PhaseState where
  futurePool : List ℕ
  taskStatus : List ℕ
  nrDone : ℕ

/-- Where the master is in `process`. -/
inductive Ctrl
  /-- The head of the loop that forks the servers. -/
  | fork (i : ℕ)
  /-- The head of the loop that creates the clients. -/
  | connect (i : ℕ)
  /-- The head of the loop that sends the tasks. -/
  | dispatch (ph : Phase) (i : ℕ)
  /-- The head of the sweep, up to `is_server_down`. -/
  | check (ph : Phase) (w : ℕ)
  /-- Behind the finding that the server is down. -/
  | refork (ph : Phase) (w : ℕ)
  /-- Behind the `sleep(1)` that follows the fork. -/
  | reconnect (ph : Phase) (w : ℕ)
  /-- About to send the task again. -/
  | resend (ph : Phase) (w : ℕ)
  /-- About to call `is_map_done` or `is_reduce_done`. -/
  | poll (ph : Phase) (w : ℕ)
  /-- Inside that call. -/
  | await (ph : Phase) (w : ℕ)
  /-- Behind the sweep. -/
  | sweepEnd (ph : Phase)
  /-- The head of the loop that stops the servers. -/
  | stop (i : ℕ)
  /-- `return 0`. -/
  | returned
  /-- A vector was accessed out of bounds. -/
  | undefined
  deriving DecidableEq, Repr

/-- The state of a run. -/
structure State where
  ctrl : Ctrl
  /-- The master's own `map_completed` and `reduce_completed`, which a fork copies. -/
  completed : Phase → Bool
  clientPool : List Client
  phases : Phase → PhaseState
  /-- The number of processes forked so far; they are numbered from 0. -/
  spawned : ℕ
  servers : ℕ → Server
  disk : Disk

/-! ### Servers

What can happen to one process, whoever causes it. Nothing here looks at the rest of the state,
so that the invariants of a process can be shown without the others. -/

namespace Server

/-- A process that does not exist. -/
def none : Server := ⟨0, false, fun _ => false, [], [], Option.none, [], []⟩

/-- A process right after the fork. -/
def fresh (w : ℕ) (completed : Phase → Bool) : Server :=
  ⟨w, true, completed, [], [], Option.none, [], []⟩

/-- The end of a process, with all it was doing. An answer it has already sent is not lost. -/
def terminate (v : Server) : Server := { v with alive := false, inbox := [], running := [] }

/-- A request is sent to a process. If that is dead the request is lost, and nobody is told:
`async_call` has gone on long before. -/
def receive (v : Server) (req : Request) : Server :=
  { v with sent := v.sent ++ [req], inbox := if v.alive then v.inbox ++ [req] else v.inbox }

/-- The end of a handler: the code is dropped and the flag set. A fault goes on
into the thread's main function and ends the process. -/
def finish (v : Server) (k : ℕ) (t : Task) : Outcome → Server
  | .ok code =>
    { v with
      running := v.running.eraseIdx k
      completed := Function.update v.completed t.phase true
      returned := v.returned ++ [(t, code)] }
  | .error _ => v.terminate

end Server

/-! ### The master

The code of `process` in the order in which it stands there, cut wherever a worker, a client's
connection or a signal can come between. -/

/-- What the handler of a task runs. -/
def Job.program (job : Job) : Task → FileProg Path Char TaskResult
  | ⟨.map, idx⟩ => job.mapTask idx
  | ⟨.reduce, idx⟩ => job.reduceTask idx

/-- The size of the status vector of a phase, and the count that ends it. -/
def Job.count (job : Job) : Phase → ℕ
  | .map => job.nrMapper
  | .reduce => job.nrReducer

namespace State

/-- Replace one process. -/
def setServer (s : State) (pid : ℕ) (v : Server) : State :=
  { s with servers := Function.update s.servers pid v }

/-- Replace the variables of one phase. -/
def setPhase (s : State) (ph : Phase) (p : PhaseState) : State :=
  { s with phases := Function.update s.phases ph p }

/-- Go on elsewhere. -/
def goto (s : State) (c : Ctrl) : State := { s with ctrl := c }

/-- `fork()`: a new process for a port, with the master's globals. -/
def spawn (s : State) (w : ℕ) : State :=
  { s.setServer s.spawned (.fresh w s.completed) with spawned := s.spawned + 1 }

/-- A message to a process. -/
def deliver (s : State) (pid : ℕ) (req : Request) : State :=
  s.setServer pid ((s.servers pid).receive req)

/-- The process behind `client_pool[w]`. -/
def linked (s : State) (w : ℕ) : Option ℕ := s.clientPool[w]?.bind Client.pid?

/-- `client_pool[w]->async_call`: send a request and go on, or wait until the connection has
been made. A connection that is known to be gone does not wait: the request goes to the dead
process and is lost. -/
def asyncCall (s : State) (w : ℕ) (req : Request) (next : ℕ → State → State) : Option State :=
  match s.clientPool[w]? with
  | none => some (s.goto .undefined)
  | some client => client.pid?.map fun pid => next pid (s.deliver pid req)

/-- The answer `status` of a worker is noted in the variables of the phase. The counter goes up
with every true answer; that no worker is asked again after one is not seen here. -/
def credit (s : State) (ph : Phase) (w : ℕ) (status : Bool) : State :=
  if status then
    s.setPhase ph
      { s.phases ph with
        taskStatus := (s.phases ph).taskStatus.set w 1, nrDone := (s.phases ph).nrDone + 1 }
  else s

end State

variable (job : Job)

/-- One step of the master. -/
def masterStep (s : State) : Option State :=
  match s.ctrl with
  | .fork i =>
    if i < job.nrMapper then some ((s.spawn i).goto (.fork (i + 1)))
    else some (s.goto (.connect 0))
  | .connect i =>
    if i < job.nrMapper then
      some { s with clientPool := s.clientPool ++ [.initial], ctrl := .connect (i + 1) }
    else some (s.goto (.dispatch .map 0))
  -- Both phases send `nr_mapper` tasks; only the status vector and the exit test
  -- of the second know `nr_reducer`.
  | .dispatch ph i =>
    if i < job.nrMapper then
      s.asyncCall i (.task ⟨ph, i⟩) fun pid s =>
        (s.setPhase ph { s.phases ph with futurePool := (s.phases ph).futurePool ++ [pid] }).goto
          (.dispatch ph (i + 1))
    else
      some ((s.setPhase ph
        { s.phases ph with taskStatus := List.replicate (job.count ph) 0, nrDone := 0 }).goto
          (.check ph 0))
  | .check ph w =>
    if w < job.nrMapper then
      match (s.phases ph).taskStatus[w]? with
      | none => some (s.goto .undefined)
      | some 1 => some (s.goto (.check ph (w + 1)))
      | some _ =>
        match s.clientPool[w]? with
        | none => some (s.goto .undefined)
        -- `is_server_down` is false of a connection that was never made.
        | some (.disconnected _) => some (s.goto (.refork ph w))
        | some _ => some (s.goto (.poll ph w))
    else some (s.goto (.sweepEnd ph))
  | .refork ph w => some ((s.spawn w).goto (.reconnect ph w))
  | .reconnect ph w =>
    if w < s.clientPool.length then
      some { s with clientPool := s.clientPool.set w .initial, ctrl := .resend ph w }
    else some (s.goto .undefined)
  | .resend ph w =>
    s.asyncCall w (.task ⟨ph, w⟩) fun pid s =>
      if w < (s.phases ph).futurePool.length then
        (s.setPhase ph
          { s.phases ph with futurePool := (s.phases ph).futurePool.set w pid }).goto
            (.check ph (w + 1))
      else s.goto .undefined
  | .poll ph w => s.asyncCall w (.isDone ph) fun _ s => s.goto (.await ph w)
  -- `call` is the blocking one, and it blocks the whole sweep.
  -- No timeout is set, so the call returns with an answer or not at all.
  | .await ph w =>
    match s.linked w with
    | none => none
    | some pid =>
      match (s.servers pid).reply with
      | none => none
      | some (ph', status) =>
        if ph' = ph then
          some (((s.setServer pid { s.servers pid with reply := none }).credit ph w status).goto
            (.check ph (w + 1)))
        else none
  | .sweepEnd ph =>
    if (s.phases ph).nrDone = job.count ph then
      -- Nothing looks at the connections between the two phases.
      match ph with
      | .map => some (s.goto (.dispatch .reduce 0))
      | .reduce => some (s.goto (.stop 0))
    else some (s.goto (.check ph 0))
  | .stop i =>
    if i < job.nrMapper then
      s.asyncCall i .stopServer fun _ s => s.goto (.stop (i + 1))
    else some (s.goto .returned)
  | .returned => none
  | .undefined => none

/-! ### The workers and the environment

A worker takes part in three ways: a thread takes up a request, a handler performs its next file
operation, or it ends. All else is done to it. -/

/-- The files a program has open after its next operation. -/
def openedAfter : FileProg Path Char TaskResult → List Path → List Path
  | .create p _, opened => p :: opened
  | .close p _, opened => opened.filter (· ≠ p)
  | _, opened => opened

/-- A thread of a process takes up the `k`-th waiting request. The two threads are those of
`async_run(2)`, and both may be inside controllers, in which case even a poll waits. -/
def Server.execute (v : Server) (k : ℕ) : Option Server :=
  -- A poll or `stop_server` needs a thread as well, but is over within the step.
  if v.running.length < 2 then
    match v.inbox[k]? with
    | Option.none => Option.none
    | some (.task t) =>
      some
        { v with inbox := v.inbox.eraseIdx k, running := v.running ++ [⟨t, job.program t, []⟩] }
    | some (.isDone ph) =>
      some { v with inbox := v.inbox.eraseIdx k, reply := some (ph, v.completed ph) }
    | some .stopServer => some v.terminate
  else Option.none

/-- A process goes on with its `k`-th handler: the next file operation, or the end of the
controller and what the handler makes of its outcome. -/
def fileStep (s : State) (pid k : ℕ) : Option State :=
  let v := s.servers pid
  match v.running[k]? with
  | none => none
  | some e =>
    match e.prog with
    | .done res => some (s.setServer pid (v.finish k e.task res.outcome))
    | prog =>
      (prog.step .all s.disk).map fun next =>
        { s.setServer pid
            { v with running := v.running.set k ⟨e.task, next.1, openedAfter prog e.opened⟩ } with
          disk := next.2 }

/-- The steps of the system. -/
inductive Label
  /-- The master goes on. -/
  | master
  /-- A client's connection is made to the process at its port. -/
  | connect (w pid : ℕ)
  /-- A client finds that the process behind it is gone. -/
  | disconnect (w : ℕ)
  /-- A process takes up a request. -/
  | execute (pid k : ℕ)
  /-- A process goes on with a controller. -/
  | file (pid k : ℕ)
  /-- A process is killed. -/
  | kill (pid : ℕ)
  deriving DecidableEq, Repr

/-- One step of the system. -/
def step (s : State) : Label → Option State
  | .master => masterStep job s
  | .connect w pid =>
    if s.clientPool[w]? = some .initial ∧ (s.servers pid).alive ∧ (s.servers pid).worker = w then
      some { s with clientPool := s.clientPool.set w (.connected pid) }
    else none
  | .disconnect w =>
    match s.clientPool[w]? with
    | some (.connected pid) =>
      if (s.servers pid).alive then none
      else some { s with clientPool := s.clientPool.set w (.disconnected pid) }
    | _ => none
  | .execute pid k => ((s.servers pid).execute job k).map (s.setServer pid)
  | .file pid k => fileStep s pid k
  | .kill pid =>
    if (s.servers pid).alive then some (s.setServer pid (s.servers pid).terminate) else none

/-- No process is killed. A worker may still end by a fault of its own, or because it is told
to. -/
def CrashFree (_ : State) (l : Label) : Prop := ∀ pid, l ≠ .kill pid

/-- The state in which `process` is called, over a data directory. -/
def State.init (d : Disk) : State :=
  ⟨.fork 0, fun _ => false, [], fun _ => ⟨[], [], 0⟩, 0, fun _ => .none, d⟩

end MapReduceCpp
