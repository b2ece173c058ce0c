import MapReduceCpp.Utility

/-!
# MapReduceCpp.Controller

The two units of work of `MapReduceMaster.h`: `map_controller_module` and
`reduce_controller_module`, with the `MapReduceInterface` object they drive.

A controller is a `FileProg`: each open, read, append and close is one operation,
and everything between two operations is computed in one go. Its result is the
value it returns, or the fault that leaves it, together with the interface object
as it stood at that moment (`TaskResult`). The object is the fresh one the factory
makes for the generator registered under `"MapReduce"`. Besides the two emission
buffers it carries the calls made to the user functions, which no code reads: they
are what "the reduce function is called once for each key" is about.

The `catch` clauses are part of the model. `catch(int e)` covers `Fault.int` and
nothing else, so every other fault leaves the controller.
-/

namespace MapReduceCpp

open InputStream Grouping
open Std (ExtTreeMap)

/-! ### The user functions

A user function sees its arguments and nothing else, and can do nothing but emit and end. It is
given as what it has emitted by then and how it ends, so a call that throws halfway through its
emissions is one of its values. -/

/-- The user's `map_fn` and `reduce_fn`: what a call emits and how it ends,
`none` when it returns. -/
structure MapReduceInterface where
  mapFn : Str → Str → List (Str × Str) × Option Fault
  reduceFn : Str → List Str → List (Str × List Str) × Option Fault

/-- The state of a `MapReduceInterface` object: the emitted pairs and lists, and
the history of the calls made through it. -/
structure MapReduceObject where
  emittedIntermediates : List (Str × Str) := []
  emittedOutputs : List (Str × List Str) := []
  mapCalls : List (Str × Str) := []
  reduceCalls : List (Str × List Str) := []

/-- `emitIntermediate`, once for each pair. -/
def MapReduceObject.emitIntermediate (obj : MapReduceObject) (ps : List (Str × Str)) :
    MapReduceObject :=
  { obj with emittedIntermediates := obj.emittedIntermediates ++ ps }

/-- `emit`, once for each entry. -/
def MapReduceObject.emit (obj : MapReduceObject) (es : List (Str × List Str)) : MapReduceObject :=
  { obj with emittedOutputs := obj.emittedOutputs ++ es }

/-- `map_reduce_fn->map_fn(k1, v1)`. What was emitted before a throw stays emitted. -/
def MapReduceInterface.callMap (iface : MapReduceInterface) (obj : MapReduceObject)
    (k1 v1 : Str) : Option Fault × MapReduceObject :=
  ((iface.mapFn k1 v1).2,
    { obj.emitIntermediate (iface.mapFn k1 v1).1 with mapCalls := obj.mapCalls ++ [(k1, v1)] })

/-- `map_reduce_fn->reduce_fn(k2, v2_list)`. It enters the history of calls whether it returns
or throws. -/
def MapReduceInterface.callReduce (iface : MapReduceInterface) (obj : MapReduceObject)
    (k2 : Str) (v2List : List Str) : Option Fault × MapReduceObject :=
  ((iface.reduceFn k2 v2List).2,
    { obj.emit (iface.reduceFn k2 v2List).1 with
        reduceCalls := obj.reduceCalls ++ [(k2, v2List)] })

/-- How a controller ends: the code it returns or the fault that leaves it. -/
abbrev Outcome := Except Fault ℤ

/-- The outcome of a controller and its interface object. -/
structure TaskResult where
  outcome : Outcome
  object : MapReduceObject

/-! ### `map_controller_module`

In the order of the source: the input is opened and tested, the record loop runs over its lines
inside a `try`, and only then are the temp files opened, all of them, written to and closed.
None of these opens is tested. -/

/-- The body of the record loop: a line that hashes to this mapper goes through
`map_fn`. -/
def mapRecord (H : Hashers) (iface : MapReduceInterface) (nrMapper mapperId : ℕ)
    (recordNumber : ℤ) (str : Str) (obj : MapReduceObject) : Option Fault × MapReduceObject :=
  if hashInRange H.int recordNumber nrMapper = mapperId then
    iface.callMap obj (toStr recordNumber) str
  else (none, obj)

/-- Go on with the next record number, or end with the fault of computing it: `record_number` is
an `int` that every line increments. -/
def advance (next : Except Fault ℤ) (obj : MapReduceObject)
    (rest : ℤ → Option Outcome × MapReduceObject) : Option Outcome × MapReduceObject :=
  match next with
  | .error fault => (some (.error fault), obj)
  | .ok recordNumber => rest recordNumber

/-- The record loop around its body; every line advances the record number. `none`
means the loop ran to its end. -/
def mapRecords (body : ℤ → Str → MapReduceObject → Option Fault × MapReduceObject) :
    List Str → ℤ → MapReduceObject → Option Outcome × MapReduceObject
  | [], _, obj => (none, obj)
  | str :: rest, recordNumber, obj =>
    let mapped := body recordNumber str obj
    match mapped.1 with
    | some (.int _) => (some (.ok (-2)), mapped.2)
    | some fault => (some (.error fault), mapped.2)
    | none =>
      advance (intAdd recordNumber 1) mapped.2 fun next => mapRecords body rest next mapped.2

/-- The temp files of a mapper, all opened before the first pair is written, so that also those
that get no pair are there, and empty. -/
def openTempFiles (dataDirectory : Str) (mapperId : ℕ) :
    List ℕ → FileProg Path Char (List OFStream)
  | [] => pure []
  | reducerId :: rest => do
    let file ← ofstream (tempPath dataDirectory mapperId reducerId)
    let files ← openTempFiles dataDirectory mapperId rest
    pure (file :: files)

/-- `vector` indexing by an `int`; `none` is an index past either end, which is undefined. -/
def atIndex {α : Type} (xs : List α) (i : ℤ) : Option α :=
  if i < 0 then none else xs[i.toNat]?

/-- The text of one pair: key, a space, value, a newline. -/
def tempLine (elem : Str × Str) : Str := elem.1 ++ " ".toList ++ elem.2 ++ "\n".toList

/-- The writing loop: every emitted pair goes to the temp file at the index its key
is given by `reducerIdx`. -/
def writePairs (reducerIdx : Str → ℤ) (tempFiles : List OFStream) :
    List (Str × Str) → FileProg Path Char (Option Fault)
  | [] => pure none
  | elem :: rest =>
    match atIndex tempFiles (reducerIdx elem.1) with
    | none => pure (some .undefined)
    | some file => do
      file.put (tempLine elem)
      writePairs reducerIdx tempFiles rest

/-- The closing loop. -/
def closeTempFiles : List OFStream → FileProg Path Char Unit
  | [] => pure ()
  | file :: files => do
    file.close
    closeTempFiles files

/-- `map_controller_module`. -/
def mapControllerModule (H : Hashers) (iface : MapReduceInterface)
    (inputFileName dataDirectory : Str) (nrMapper nrReducer mapperId : ℕ) :
    FileProg Path Char TaskResult := do
  match ← FileProg.readFile (inputPath dataDirectory inputFileName) with
  | none => pure ⟨.ok (-1), {}⟩
  | some content =>
    match mapRecords (mapRecord H iface nrMapper mapperId) (lines '\n' content) 0 {} with
    | (some outcome, obj) => pure ⟨outcome, obj⟩
    | (none, obj) => do
      let tempFiles ← openTempFiles dataDirectory mapperId (List.range nrReducer)
      let reducerIdx := fun key => hashInRange H.string key nrReducer
      match ← writePairs reducerIdx tempFiles obj.emittedIntermediates with
      | some fault => pure ⟨.error fault, obj⟩
      | none => do
        closeTempFiles tempFiles
        pure ⟨.ok 0, obj⟩

/-! ### `reduce_controller_module`

The temp files of the reducer are read one by one into a map, which is reduced key by key; only
when all keys are done is the output file opened. The handler around `read_text` waits for an
`int` that is never thrown. -/

/-- Extend the accumulated map by the map of one temp file. The membership test
looks into the map the entry comes from, so the second branch is never taken. -/
def accumulate (keyValueTemp keyValueAcc : ValueMap) : ValueMap :=
  keyValueTemp.toList.foldl
    (fun acc elem =>
      if keyValueTemp.contains elem.1 then acc.insert elem.1 (acc.getD elem.1 [] ++ elem.2)
      else acc.insertIfNew elem.1 elem.2)
    keyValueAcc

/-- The loop over the mappers' temp files. The handler around `read_text` is the
only place the code -1 comes from. -/
def gatherTempFiles (dataDirectory : Str) (reducerId : ℕ) :
    List ℕ → ValueMap → FileProg Path Char (Except Outcome ValueMap)
  | [], keyValueAcc => pure (.ok keyValueAcc)
  | mapperIdx :: rest, keyValueAcc => do
    match ← readText (tempPath dataDirectory mapperIdx reducerId) with
    | .error (.int _) => pure (.error (.ok (-1)))
    | .error fault => pure (.error (.error fault))
    | .ok keyValueTemp =>
      gatherTempFiles dataDirectory reducerId rest (accumulate keyValueTemp keyValueAcc)

/-- The loop over the accumulated keys, in the order of the map. An `int` that is thrown ends it
with -3, and what was emitted is given up with it. -/
def reduceKeys (iface : MapReduceInterface) :
    List (Str × List Str) → MapReduceObject → Option Outcome × MapReduceObject
  | [], obj => (none, obj)
  | elem :: rest, obj =>
    let reduced := iface.callReduce obj elem.1 elem.2
    match reduced.1 with
    | some (.int _) => (some (.ok (-3)), reduced.2)
    | some fault => (some (.error fault), reduced.2)
    | none => reduceKeys iface rest reduced.2

/-- `reduce_controller_module`. The reducer count is a parameter it never uses. -/
def reduceControllerModule (iface : MapReduceInterface) (dataDirectory : Str)
    (_nrReducer nrMapper reducerId : ℕ) : FileProg Path Char TaskResult := do
  match ← gatherTempFiles dataDirectory reducerId (List.range nrMapper) ∅ with
  | .error outcome => pure ⟨outcome, {}⟩
  | .ok keyValueAcc =>
    match reduceKeys iface keyValueAcc.toList {} with
    | (some outcome, obj) => pure ⟨outcome, obj⟩
    | (none, obj) => do
      writeKeyValVector (outputPath dataDirectory reducerId) obj.emittedOutputs
      pure ⟨.ok 0, obj⟩

end MapReduceCpp
