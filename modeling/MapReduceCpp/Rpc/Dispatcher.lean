import MapReduceCpp.Basic

/-!
# MapReduceCpp.Rpc.Dispatcher

What a server of `rpclib` makes of one message.

A message is a msgpack object. An array of four elements is a call, one of three a
notification, and any other array is ignored. A call names a function bound by the
server; what the dispatcher answers depends on how that function ends, and the session
puts over it what the handler has asked for through `this_handler`. Behind the response
the session posts what the handler has asked for through `this_session` and
`this_server`, unless the handler has disabled the response, which disables these two as
well. Only some faults are turned into an answer: without `suppress_exceptions` an
exception of a handler, like one of the conversion of the message itself, goes on into
the thread that runs the session and ends the process.
-/

namespace MapReduceCpp.Rpc

/-- A msgpack object. Of a floating point number there are the bits, of an extension its
type with the data behind it. -/
inductive Obj
  | nil
  | boolean (b : Bool)
  | integer (n : ℤ)
  | float32 (bits : ℕ)
  | float64 (bits : ℕ)
  | str (s : Str)
  | bin (s : Str)
  | ext (s : Str)
  | array (xs : List Obj)
  | map (kvs : List (Obj × Obj))

/-- `msgpack::type_error`. -/
def typeError : Fault := .exception "std::bad_cast".toList

namespace Obj

/-- `convert` to an integer type with the given range. -/
def toInteger (lo hi : ℤ) : Obj → Except Fault ℤ
  | integer n => if lo ≤ n ∧ n ≤ hi then .ok n else .error typeError
  | _ => .error typeError

/-- `convert` to `int8_t`. -/
def toInt8 : Obj → Except Fault ℤ := toInteger (-2 ^ 7) (2 ^ 7 - 1)

/-- `convert` to `uint32_t`. -/
def toUInt32 : Obj → Except Fault ℤ := toInteger 0 (2 ^ 32 - 1)

/-- `convert` to `int`. -/
def toInt : Obj → Except Fault ℤ := toInteger (-2 ^ 31) (2 ^ 31 - 1)

/-- `convert` to `string`. -/
def toStr : Obj → Except Fault Str
  | str s | bin s => .ok s
  | _ => .error typeError

/-- `convert` to `bool`. -/
def toBool : Obj → Except Fault Bool
  | boolean b => .ok b
  | _ => .error typeError

/-- `via.array`, read without a look at the type. On anything but an array this reads the wrong
member of a union. -/
def viaArray : Obj → Except Fault (List Obj)
  | array xs => .ok xs
  | _ => .error .undefined

/-- `is_nil`. -/
def isNil : Obj → Bool
  | nil => true
  | _ => false

end Obj

/-! ### Responses

A response is made by the dispatcher and packed by the session. On the way a handler's wishes
are put into it, by two functions that do not ask whether there is room for them. -/

/-- `detail::response`; an id is a `uint32_t`. -/
structure Response where
  id : ℤ
  error : Option Obj
  result : Option Obj
  isEmpty : Bool

namespace Response

/-- `make_result`. -/
def makeResult (id : ℤ) (result : Obj) : Response := ⟨id, none, some result, false⟩

/-- `make_error` with a text. -/
def makeError (id : ℤ) (error : Str) : Response := ⟨id, some (.str error), none, false⟩

/-- `response::empty`: nothing is to be written. -/
def empty : Response := ⟨0, none, none, true⟩

/-- `capture_result`. -/
def captureResult (r : Response) (o : Obj) : Response := { r with result := some o }

/-- `capture_error`. Where there is no error yet it sets one through a null pointer. -/
def captureError (r : Response) (o : Obj) : Except Fault Response :=
  match r.error with
  | none => .error .undefined
  | some _ => .ok { r with error := some o }

/-- `get_data`, before it is packed. -/
def getData (r : Response) : Obj :=
  .array [.integer 1, .integer r.id, r.error.getD .nil, r.result.getD .nil]

/-- The converting constructor of `response`, from the array of four that a client has read. An
index that is no `uint32_t` is the exception of its conversion. -/
def ofObject (o : Obj) : Except Fault Response :=
  match o with
  | .array xs => do
    let _ ← (xs[0]?.getD (Obj.integer 0)).toUInt32
    let id ← (xs[1]?.getD (Obj.integer 0)).toUInt32
    let error := xs[2]?.getD .nil
    .ok ⟨id, if error.isNil then none else some error, some (xs[3]?.getD .nil), false⟩
  | _ => .error typeError

end Response

/-! ### The dispatcher

The branches of `dispatch_call` and `dispatch_notification` are those of the source, with what
each `catch` makes of an exception. `run` stands for the bound function, as this is all that the
dispatcher sees of it. -/

/-- What a handler can leave in the thread's `this_handler`, `this_session` and
`this_server`. -/
structure Locals where
  error : Obj
  resp : Obj
  respEnabled : Bool
  /-- `this_session().exit_`, set by `post_exit`. -/
  exit : Bool
  /-- `this_server().stopping_`, set by `stop`. -/
  stopping : Bool

/-- `this_handler().clear()`, `this_session().clear()` and `this_server().cancel_stop()`,
with which every task begins. -/
def Locals.clear : Locals := ⟨.nil, .nil, true, false, false⟩

/-- How a bound function ends. -/
inductive Ending
  | returned (result : Obj)
  | clientError (what : Str)
  /-- Any other `std::exception`. -/
  | exception (what : Str)
  /-- `respond_error` throws this. -/
  | handlerError
  | handlerSpecResponse
  /-- Something that is not an exception of the standard library was thrown, or the
  behaviour is undefined. -/
  | other (fault : Fault)

/-- A bound function: the number of its parameters, and whether arguments can be
converted to them. -/
structure Bound where
  argsCount : ℕ
  converts : List Obj → Bool

/-- `funcs_`. -/
abbrev Funcs := List (Str × Bound)

/-- `funcs_.find(name)`. -/
def Funcs.find (funcs : Funcs) (name : Str) : Option Bound :=
  (List.find? (fun e => e.1 = name) funcs).map Prod.snd

/-- `dispatcher::bind`, with `enforce_unique_name`. -/
def Funcs.bind (funcs : Funcs) (name : Str) (f : Bound) : Except Fault Funcs :=
  if (funcs.find name).isSome then
    .error (.exception ("Function name already bound: '".toList ++ name ++
      "'. Please use unique function names".toList))
  else .ok (funcs ++ [(name, f)])

/-- The text of the `client_error` that `enforce_arg_count` throws. -/
def wrongArity (func : Str) (found expected : ℕ) : Str :=
  "client error C0002: Function '".toList ++ func ++
    "' was called with an invalid number of arguments. Expected: ".toList ++
    MapReduceCpp.toStr expected ++ ", got: ".toList ++ MapReduceCpp.toStr found

/-- The functor that `bind` stores: it counts the arguments, converts them and calls the
function. A wrong number is a client error, a failed conversion an exception like any of the
function's own. -/
def Bound.adaptor (f : Bound) (name : Str) (args : List Obj) (run : Ending × Locals)
    (handler : Locals) : Ending × Locals :=
  -- The parameters are passed as what has been found and the arguments as what is expected,
  -- so the text has the two numbers in each other's place.
  if args.length ≠ f.argsCount then (.clientError (wrongArity name f.argsCount args.length), handler)
  else if f.converts args then run
  else (.exception "std::bad_cast".toList, handler)

/-- The answer to a call of a function that is not there, or that has left its answer to
`this_handler`. -/
def notFound (id : ℤ) (name : Str) (argc : ℕ) : Response :=
  .makeError id ("rpclib: server could not find function '".toList ++ name ++
    "' with argument count ".toList ++ MapReduceCpp.toStr argc ++ ".".toList)

/-- The text that tells of an exception. -/
def threw (name : Str) (argc : ℕ) : Str :=
  "rpclib: function '".toList ++ name ++ "' (called with ".toList ++
    MapReduceCpp.toStr argc ++ " arg(s)) threw an exception. ".toList

section Dispatch

variable (funcs : Funcs) (suppress : Bool) (run : Ending × Locals) (handler : Locals)

/-- `dispatch_call`. Once the message has been converted it answers whatever happens, or throws. -/
def dispatchCall (type id name args : Obj) : Except Fault (Response × Locals) := do
  let _ ← type.toInt8
  let id ← id.toUInt32
  let name ← name.toStr
  let args ← args.viaArray
  match funcs.find name with
  | some f =>
    match f.adaptor name args run handler with
    | (.returned result, handler) => .ok (.makeResult id result, handler)
    | (.clientError what, handler) => .ok (.makeError id ("rpclib: ".toList ++ what), handler)
    | (.exception what, handler) =>
      if suppress then
        .ok (.makeError id (threw name args.length ++
          "The exception contained this information: ".toList ++ what ++ ".".toList), handler)
      else .error (.exception what)
    -- These two fall through to the answer for a function that is not there, which the session
    -- puts the handler's own over.
    | (.handlerError, handler) => .ok (notFound id name args.length, handler)
    | (.handlerSpecResponse, handler) => .ok (notFound id name args.length, handler)
    | (.other fault, handler) =>
      if suppress then
        .ok (.makeError id (threw name args.length ++
          "The exception is not derived from std::exception. No further information available.".toList),
          handler)
      else .error fault
  | none => .ok (notFound id name args.length, handler)

/-- `dispatch_notification`. What it returns is never written. -/
def dispatchNotification (type name args : Obj) : Except Fault (Response × Locals) := do
  let _ ← type.toInt8
  let name ← name.toStr
  match funcs.find name with
  | some f =>
    let args ← args.viaArray
    match f.adaptor name args run handler with
    | (.returned _, handler) => .ok (.empty, handler)
    | (.handlerError, handler) => .ok (.empty, handler)
    | (.handlerSpecResponse, handler) => .ok (.empty, handler)
    -- Here a client error is caught by nobody either.
    | (.clientError what, handler) =>
      if suppress then .ok (.empty, handler) else .error (.exception what)
    | (.exception what, handler) =>
      if suppress then .ok (.empty, handler) else .error (.exception what)
    | (.other fault, handler) => if suppress then .ok (.empty, handler) else .error fault
  | none => .ok (.empty, handler)

/-- `dispatch`. -/
def dispatch (msg : Obj) : Except Fault (Response × Locals) := do
  match ← msg.viaArray with
  | [type, name, args] => dispatchNotification funcs suppress run handler type name args
  | [type, id, name, args] => dispatchCall funcs suppress run handler type id name args
  | _ => .ok (.empty, handler)

/-- An error that the handler has set comes before a special response, and that before
the result. -/
def Locals.capture (handler : Locals) (resp : Response) : Except Fault Response :=
  if !handler.error.isNil then resp.captureError handler.error
  else if !handler.resp.isNil then .ok (resp.captureResult handler.resp)
  else .ok resp

/-- What the task of a message posts to the write strand of its session: a write, the end
of the session and the end of all sessions of the server. -/
structure Served where
  response : Option Response
  exit : Bool
  stop : Bool

/-- A response, and nothing else. -/
def Served.answer (resp : Response) : Served := ⟨some resp, false, false⟩

/-- The task that a session posts for a message. `dispatch` begins with cleared locals, so no
handler sees what an earlier one on its thread has left. -/
def serve (msg : Obj) : Except Fault Served := do
  let (resp, handler) ← dispatch funcs suppress run .clear msg
  if !handler.respEnabled then .ok ⟨none, false, false⟩
  else
    let resp ← handler.capture resp
    .ok ⟨if resp.isEmpty then none else some resp, handler.exit, handler.stopping⟩

end Dispatch

/-! ### The response to a call

From the cases of the dispatcher it is one fact that the client needs: the response carries the
id of the call, is written, and is read back as it was. -/

/-- A response that arrives as what it is: it has the id of the call, it is written, and
its error is an error. -/
structure Response.Answers (r : Response) (id : ℤ) : Prop where
  id : r.id = id
  written : r.isEmpty = false
  error : r.error ≠ some .nil

theorem Response.makeResult_answers (id : ℤ) (o : Obj) : (makeResult id o).Answers id :=
  ⟨rfl, rfl, by simp [makeResult]⟩

theorem Response.makeError_answers (id : ℤ) (text : Str) : (makeError id text).Answers id :=
  ⟨rfl, rfl, by simp [makeError]⟩

variable {funcs : Funcs} {suppress : Bool} {run : Ending × Locals} {handler : Locals}

/-- The computations that a successful one is made of. -/
theorem exists_of_bind {α β : Type} {x : Except Fault α} {f : α → Except Fault β} {b : β}
    (h : x >>= f = .ok b) : ∃ a, x = .ok a ∧ f a = .ok b := by
  cases x with
  | error fault => cases h
  | ok a => exact ⟨a, rfl, h⟩

/-- A conversion to an integer type succeeds on the integers of its range, and on nothing else. -/
theorem Obj.toInteger_eq_ok {lo hi : ℤ} {o : Obj} {n : ℤ} :
    o.toInteger lo hi = .ok n ↔ o = .integer n ∧ lo ≤ n ∧ n ≤ hi := by
  cases o with
  | integer m =>
    simp only [toInteger]
    split
    · rename_i hm
      constructor
      · intro h
        obtain rfl := Except.ok.inj h
        exact ⟨rfl, hm⟩
      · rintro ⟨h, -⟩
        rw [Obj.integer.inj h]
    · rename_i hm
      constructor
      · intro h
        cases h
      · rintro ⟨h, hn⟩
        obtain rfl := Obj.integer.inj h
        exact absurd hn hm
  | _ => simp [toInteger]

/-- Whatever a call leads to, it is answered under its id. -/
theorem answers_of_dispatchCall {type id name args : Obj} {resp : Response × Locals}
    (h : dispatchCall funcs suppress run handler type id name args = .ok resp) :
    ∃ i, id = .integer i ∧ 0 ≤ i ∧ i < 2 ^ 32 ∧ resp.1.Answers i := by
  obtain ⟨_, -, h₁⟩ := exists_of_bind h
  obtain ⟨i, hid, h₂⟩ := exists_of_bind h₁
  obtain ⟨f, -, h₃⟩ := exists_of_bind h₂
  obtain ⟨xs, -, h₄⟩ := exists_of_bind h₃
  obtain ⟨rfl, hlo, hhi⟩ := Obj.toInteger_eq_ok.mp hid
  refine ⟨i, rfl, hlo, by omega, ?_⟩
  split at h₄
  · split at h₄
    · obtain rfl := Except.ok.inj h₄
      exact Response.makeResult_answers _ _
    · obtain rfl := Except.ok.inj h₄
      exact Response.makeError_answers _ _
    · split at h₄
      · obtain rfl := Except.ok.inj h₄
        exact Response.makeError_answers _ _
      · cases h₄
    · obtain rfl := Except.ok.inj h₄
      exact Response.makeError_answers _ _
    · obtain rfl := Except.ok.inj h₄
      exact Response.makeError_answers _ _
    · split at h₄
      · obtain rfl := Except.ok.inj h₄
        exact Response.makeError_answers _ _
      · cases h₄
  · obtain rfl := Except.ok.inj h₄
    exact Response.makeError_answers _ _

/-- **A response is one to its request.** Whatever functions are bound and however a
handler ends, what is written back for a call is a response with the id of the call. -/
theorem answers_of_serve {type id name args : Obj} {served : Served} {resp : Response}
    (h : serve funcs suppress run (.array [type, id, name, args]) = .ok served)
    (hresp : served.response = some resp) :
    ∃ i, id = .integer i ∧ 0 ≤ i ∧ i < 2 ^ 32 ∧ resp.Answers i := by
  obtain ⟨⟨r, handler⟩, hdispatch, h₁⟩ := exists_of_bind h
  -- Conversion and dispatch have succeeded, as a response was posted.
  obtain ⟨i, rfl, hlo, hhi, hr⟩ := answers_of_dispatchCall hdispatch
  refine ⟨i, rfl, hlo, hhi, ?_⟩
  simp only at h₁
  split at h₁
  · obtain rfl := Except.ok.inj h₁
    cases hresp
  obtain ⟨r', hcapture, h₂⟩ := exists_of_bind h₁
  -- What the handler has asked for changes the error or the result only.
  have hr' : r'.Answers i := by
    unfold Locals.capture at hcapture
    split at hcapture
    · rename_i herr
      unfold Response.captureError at hcapture
      split at hcapture
      · cases hcapture
      · obtain rfl := Except.ok.inj hcapture
        refine ⟨hr.id, hr.written, fun he => ?_⟩
        rw [Option.some.inj he] at herr
        cases herr
    · split at hcapture
      · obtain rfl := Except.ok.inj hcapture
        exact ⟨hr.id, hr.written, hr.error⟩
      · obtain rfl := Except.ok.inj hcapture
        exact hr
  obtain rfl := Except.ok.inj h₂
  simp only at hresp
  split at hresp
  · cases hresp
  · obtain rfl := Option.some.inj hresp
    exact hr'

/-- The client reads back what the server has written. -/
theorem Response.Answers.ofObject {r : Response} {i : ℤ} (h : r.Answers i) (hlo : 0 ≤ i)
    (hhi : i < 2 ^ 32) :
    Response.ofObject r.getData = .ok ⟨i, r.error, some (r.result.getD .nil), false⟩ := by
  obtain ⟨id, error, result, isEmpty⟩ := r
  obtain ⟨rfl, rfl, herr⟩ := h
  have hid : (Obj.integer id).toUInt32 = .ok id :=
    Obj.toInteger_eq_ok.mpr ⟨rfl, hlo, Int.le_sub_one_of_lt hhi⟩
  have hone : (Obj.integer 1).toUInt32 = .ok 1 := rfl
  have hnil : (if (error.getD .nil).isNil then none else some (error.getD .nil)) = error := by
    cases error with
    | none => rfl
    | some o => cases o <;> simp_all [Obj.isNil]
  simp only [getData, Response.ofObject, List.getElem?_cons_zero, List.getElem?_cons_succ,
    Option.getD_some, hone, hid, hnil]
  rfl

end MapReduceCpp.Rpc
