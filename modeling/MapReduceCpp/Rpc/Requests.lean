import MapReduceCpp.Process
import MapReduceCpp.Rpc.Delivery

/-!
# MapReduceCpp.Rpc.Requests

What a server can answer, and the requests of the master as its calls.

An index that has wrapped around is negative and no `uint32_t`: from then on every call
ends the server. Before that a call fails on the server only if it has as many arguments
as its function has parameters and they are of other types (`understood_iff`). What the
master sends to a worker is neither (`Request.fits`), so what is written back is what the
handler has returned (`Request.serve_returned`).
-/

namespace MapReduceCpp

namespace Rpc

variable {host : Host} {c : Call}

/-! ### What a server can answer

The dispatcher converts the four fields of a message one after the other and then the arguments.
The index is converted first, so that one that has wrapped around ends the server before its
function is even looked up.

Of the conversions of the arguments only a wrong number of them is reported to the caller. A
wrong type is an exception that leaves the handler of the read, unless the server suppresses
exceptions, and no worker does. -/

theorem Call.idx_of_lt (h : c.number < 2 ^ 31) : c.idx = c.number := by
  unfold idx
  refine Int.bmod_eq_of_le ?_ ?_ <;> omega

/-- Before the index wraps around the message carries the number of the call. -/
theorem Call.message_eq (h : c.number < 2 ^ 31) :
    c.message = .array [.integer 0, .integer c.number, .str c.name, .array c.args] := by
  rw [message, idx_of_lt h]

/-- Every number of a call is a `uint32_t`, although the client counts with an `int`. -/
theorem toUInt32_natCast {n : ℕ} (h : n < 2 ^ 32) : (Obj.integer n).toUInt32 = .ok (n : ℤ) :=
  Obj.toInteger_eq_ok.mpr ⟨rfl, Int.natCast_nonneg _, by omega⟩

variable {funcs : Funcs} {suppress : Bool} {run : Ending × Locals} {msg : Obj}

/-- A handler that asks for nothing gets the response of the dispatcher written. -/
theorem serve_of_dispatch {resp : Response}
    (h : dispatch funcs suppress run .clear msg = .ok (resp, .clear))
    (hwritten : resp.isEmpty = false) :
    serve funcs suppress run msg = .ok (.answer resp) := by
  have hcapture : Locals.clear.capture resp = .ok resp := rfl
  have henabled : Locals.clear.respEnabled = true := rfl
  simp only [serve, h, hcapture, henabled, hwritten, bind, Except.bind]
  rfl

/-- An exception that leaves the dispatcher leaves the session as well. -/
theorem serve_of_error {fault : Fault} (h : dispatch funcs suppress run .clear msg = .error fault) :
    serve funcs suppress run msg = .error fault := by
  simp only [serve, h, bind, Except.bind]

/-- An array of four is a call. -/
theorem dispatch_four {type id name args : Obj} {handler : Locals} :
    dispatch funcs suppress run handler (.array [type, id, name, args]) =
      dispatchCall funcs suppress run handler type id name args := rfl

/-- A call whose index cannot be converted ends in that exception. -/
theorem dispatchCall_error {id name args : Obj} {fault : Fault} {handler : Locals}
    (h : id.toUInt32 = .error fault) :
    dispatchCall funcs suppress run handler (.integer 0) id name args = .error fault := by
  have hzero : (Obj.integer 0).toInt8 = .ok 0 := rfl
  simp only [dispatchCall, hzero, h, bind, Except.bind]

/-- A call as the server reads it. -/
structure Call.Fits (host : Host) (c : Call) : Prop where
  /-- The index has not wrapped around. -/
  small : c.number < 2 ^ 31
  /-- Where the function is known and the number of arguments is right, they have its types. -/
  converts : host.suppressExceptions = true ∨ ∀ f, host.funcs.find c.name = some f →
    c.args.length = f.argsCount → f.converts c.args = true

/-- An index that has wrapped around cannot be converted. -/
theorem Call.toUInt32_idx (h : 2 ^ 31 ≤ c.number) (hc : c.number < 2 ^ 32) :
    (Obj.integer c.idx).toUInt32 = .error typeError := by
  have hneg : c.idx < 0 := by
    by_contra! hnonneg
    have hidx := idx_eq hc hnonneg
    have hlt : c.idx < (2 ^ 32 + 1) / 2 := Int.bmod_lt (by decide)
    omega
  simp only [Obj.toUInt32, Obj.toInteger,
    if_neg (fun hle : 0 ≤ c.idx ∧ _ => absurd hle.1 (not_le.mpr hneg))]

/-- To be understood a call needs one handler that returns, and `nil` is always there to be
returned. -/
theorem Call.Fits.understood (h : c.Fits host) : Understood host c := by
  suffices hdispatch : ∃ resp, dispatch host.funcs host.suppressExceptions (.returned .nil, .clear)
      .clear c.message = .ok (resp, .clear) ∧ resp.isEmpty = false by
    obtain ⟨resp, hdispatch, hwritten⟩ := hdispatch
    exact ⟨_, resp, serve_of_dispatch hdispatch hwritten⟩
  have hzero : (Obj.integer 0).toInt8 = .ok 0 := rfl
  have hid : (Obj.integer c.number).toUInt32 = .ok (c.number : ℤ) :=
    toUInt32_natCast (h.small.trans (by decide))
  rw [Call.message_eq h.small, dispatch_four]
  simp only [dispatchCall, hzero, hid, Obj.toStr, Obj.viaArray, bind, Except.bind]
  cases hfind : host.funcs.find c.name with
  | none => exact ⟨_, rfl, rfl⟩
  | some f =>
    by_cases hlen : c.args.length = f.argsCount
    · by_cases hconv : f.converts c.args = true
      · simp only [Bound.adaptor, hlen, hconv, ne_eq, not_true, if_false, if_true]
        exact ⟨_, rfl, rfl⟩
      · have hsuppress := h.converts.resolve_right fun hall => hconv (hall f hfind hlen)
        simp only [Bound.adaptor, hlen, hconv, ne_eq, not_true, if_false, hsuppress, if_true]
        exact ⟨_, rfl, rfl⟩
    · simp only [Bound.adaptor, hlen, ne_eq, not_false_eq_true, if_true]
      exact ⟨_, rfl, rfl⟩

/-- A call that does not fit ends in the exception of its conversion. -/
theorem Call.serve_of_not_fits (hc : c.number < 2 ^ 32) (hnot : ¬ c.Fits host) :
    serve host.funcs host.suppressExceptions run c.message = .error typeError := by
  refine serve_of_error ?_
  rcases Nat.lt_or_ge c.number (2 ^ 31) with hsmall | hwrapped
  · obtain ⟨hsuppress, f, hfind, hlen, hconv⟩ : ¬ host.suppressExceptions = true ∧
        ∃ f, host.funcs.find c.name = some f ∧ c.args.length = f.argsCount ∧
          ¬ f.converts c.args = true := by
      -- What is left of a call that does not fit, once its index is in range.
      by_contra! hfits
      exact hnot ⟨hsmall, or_iff_not_imp_left.mpr hfits⟩
    have hzero : (Obj.integer 0).toInt8 = .ok 0 := rfl
    have hid : (Obj.integer c.number).toUInt32 = .ok (c.number : ℤ) := toUInt32_natCast hc
    rw [message_eq hsmall, dispatch_four]
    simp only [dispatchCall, hzero, hid, Obj.toStr, Obj.viaArray, bind, Except.bind, hfind,
      Bound.adaptor, hlen, hconv, ne_eq, not_true, if_false, hsuppress]
    rfl
  · exact dispatch_four.trans (dispatchCall_error (toUInt32_idx hwrapped hc))

/-- **A call is answered or ends the server.** Whatever is bound, a call that does not
fit cannot be answered: the exception of its conversion is caught by nobody, whatever the
handler would have done. One that fits can. -/
theorem understood_iff (hc : c.number < 2 ^ 32) :
    (Understood host c ↔ c.Fits host) ∧ (¬ c.Fits host →
      ∀ run, serve host.funcs host.suppressExceptions run c.message = .error typeError) := by
  refine ⟨⟨fun ⟨run, resp, hserve⟩ => ?_, Call.Fits.understood⟩,
    fun hnot run => Call.serve_of_not_fits hc hnot⟩
  by_contra hnot
  rw [Call.serve_of_not_fits hc hnot] at hserve
  cases hserve

/-- The call with which the index wraps around ends the server, whatever it calls. -/
theorem understood_iff_wrapped :
    ¬ Understood sampleHost ⟨2 ^ 31, "is_map_done".toList, []⟩ ∧
      serve sampleHost.funcs sampleHost.suppressExceptions (.returned (.boolean true), .clear)
        (Call.message ⟨2 ^ 31, "is_map_done".toList, []⟩) = .error typeError := by
  have hnot : ¬ Call.Fits sampleHost ⟨2 ^ 31, "is_map_done".toList, []⟩ :=
    fun h => absurd h.small (lt_irrefl _)
  obtain ⟨hiff, hfault⟩ := @understood_iff sampleHost ⟨2 ^ 31, "is_map_done".toList, []⟩
    (Nat.pow_lt_pow_right Nat.one_lt_two (by decide : 31 < 32))
  exact ⟨fun h => hnot (hiff.mp h), hfault hnot _⟩

/-! ### The worker's functions

The list is that of the calls to `bind` in `process`, with the parameters of the lambdas. A
request names one of them and passes what it takes (`find`), so that the dispatcher does nothing
to it but to run its handler (`adaptor`). The back way, from a call to its request, is
`Call.request`; it is defined on every call and is the inverse on those of the master. -/

/-- A function without parameters. -/
def Bound.noArgs : Bound := ⟨0, fun _ => true⟩

/-- A function of one `int`. -/
def Bound.oneInt : Bound where
  argsCount := 1
  converts
    | [x] => x.toInt.isOk
    | _ => false

/-- What `process` binds in every worker. -/
def workerBinds : List (Str × Bound) :=
  [("map".toList, .oneInt), ("reduce".toList, .oneInt), ("exit".toList, .noArgs),
    ("is_map_done".toList, .noArgs), ("is_reduce_done".toList, .noArgs),
    ("stop_server".toList, .noArgs)]

/-- The server of a worker, with the threads of `async_run(2)`. -/
def worker : Host := ⟨workerBinds, false, 2⟩

/-- The six names differ, so no `bind` throws. -/
theorem bind_workerBinds :
    List.foldlM (fun (funcs : Funcs) b => funcs.bind b.1 b.2) [] workerBinds =
      .ok worker.funcs := by
  rfl

end Rpc

open Rpc

namespace Request

/-- The function that the master names. -/
def func : Request → Str
  | task ⟨.map, _⟩ => "map".toList
  | task ⟨.reduce, _⟩ => "reduce".toList
  | isDone .map => "is_map_done".toList
  | isDone .reduce => "is_reduce_done".toList
  | stopServer => "stop_server".toList

/-- The arguments that it passes. -/
def args : Request → List Obj
  | task t => [.integer t.id]
  | isDone _ => []
  | stopServer => []

/-- The numbers of the workers are values of an `int`. -/
def InRange : Request → Prop
  | task t => t.id < 2 ^ 31
  | isDone _ => True
  | stopServer => True

/-- The request as the `n`-th call of a client. -/
def call (req : Request) (n : ℕ) : Call := ⟨n, req.func, req.args⟩

/-- The worker has bound what the master calls, with as many parameters as it passes and of
types that its arguments convert to. -/
theorem find (req : Request) (h : req.InRange) :
    ∃ f, worker.funcs.find req.func = some f ∧ req.args.length = f.argsCount ∧
      f.converts req.args = true := by
  cases req with
  | task t =>
    obtain ⟨ph, id⟩ := t
    have hint : (Obj.integer id).toInt = .ok (id : ℤ) :=
      Obj.toInteger_eq_ok.mpr ⟨rfl, by omega, by simp only [InRange] at h; omega⟩
    have hconv : Bound.oneInt.converts [.integer id] = true := by
      simp only [Bound.oneInt, hint, Except.isOk, Except.toBool]
    cases ph with
    | map => exact ⟨.oneInt, rfl, rfl, hconv⟩
    | reduce => exact ⟨.oneInt, rfl, rfl, hconv⟩
  | isDone ph => cases ph <;> exact ⟨.noArgs, rfl, rfl, rfl⟩
  | stopServer => exact ⟨.noArgs, rfl, rfl, rfl⟩

variable {n : ℕ} {req : Request} {run : Ending × Locals}

/-- A request of the master fits its worker as long as the index has not wrapped around. -/
theorem fits (hn : n < 2 ^ 31) (h : req.InRange) : (req.call n).Fits worker := by
  obtain ⟨f, hfind, -, hconv⟩ := req.find h
  refine ⟨hn, .inr fun f' hfind' _ => ?_⟩
  obtain rfl := Option.some.inj (hfind.symm.trans hfind')
  exact hconv

/-- The dispatcher of the worker runs the handler of a request. -/
theorem adaptor (h : req.InRange) (run : Ending × Locals) :
    ∃ f, worker.funcs.find req.func = some f ∧ f.adaptor req.func req.args run .clear = run := by
  obtain ⟨f, hfind, hlen, hconv⟩ := req.find h
  exact ⟨f, hfind, by simp [Bound.adaptor, hlen, hconv]⟩

/-- What the handler returns is written back. -/
theorem serve_returned (hn : n < 2 ^ 31) (h : req.InRange) (result : Obj) :
    serve worker.funcs worker.suppressExceptions (.returned result, .clear) (req.call n).message =
      .ok (.answer (.makeResult n result)) := by
  refine serve_of_dispatch ?_ rfl
  obtain ⟨f, hfind, hadaptor⟩ := adaptor h (.returned result, .clear)
  have hid : (Obj.integer n).toUInt32 = .ok (n : ℤ) := toUInt32_natCast (hn.trans (by decide))
  have hzero : (Obj.integer 0).toInt8 = .ok 0 := rfl
  rw [Call.message_eq hn, dispatch_four]
  simp only [call, dispatchCall, hzero, hid, Obj.toStr, Obj.viaArray, bind, Except.bind,
    hfind, hadaptor]

/-- An exception that the handler throws ends the worker. -/
theorem serve_threw (hn : n < 2 ^ 31) (h : req.InRange) {fault : Fault}
    (hrun : (∃ what, run = (.exception what, .clear) ∧ fault = .exception what) ∨
      run = (.other fault, .clear)) :
    serve worker.funcs worker.suppressExceptions run (req.call n).message = .error fault := by
  refine serve_of_error ?_
  obtain ⟨f, hfind, hadaptor⟩ := adaptor h run
  have hid : (Obj.integer n).toUInt32 = .ok (n : ℤ) := toUInt32_natCast (hn.trans (by decide))
  have hzero : (Obj.integer 0).toInt8 = .ok 0 := rfl
  have hsuppress : worker.suppressExceptions = false := rfl
  rw [Call.message_eq hn, dispatch_four]
  rcases hrun with ⟨what, rfl, rfl⟩ | rfl <;>
    simp only [call, dispatchCall, hzero, hid, Obj.toStr, Obj.viaArray, bind, Except.bind, hfind,
      hadaptor, hsuppress, Bool.false_eq_true, if_false]

end Request

/-- The request that a call of the master carries. -/
def Rpc.Call.request (c : Call) : Request :=
  match c.args with
  | [.integer id] => .task ⟨if c.name = "map".toList then .map else .reduce, id.toNat⟩
  | _ =>
    if c.name = "is_map_done".toList then .isDone .map
    else if c.name = "is_reduce_done".toList then .isDone .reduce
    else .stopServer

/-- The request is found again in the call that carries it. -/
@[simp] theorem Request.request_call (req : Request) (n : ℕ) : (req.call n).request = req := by
  cases req with
  | task t =>
    obtain ⟨ph, id⟩ := t
    cases ph <;> rfl
  | isDone ph => cases ph <;> rfl
  | stopServer => rfl

end MapReduceCpp
