import MapReduceCpp.Controller.Map

/-!
# MapReduceCpp.Controller.Reduce

What `reduce_controller_module` computes.

Folding the maps read from the temp files into the accumulated map groups the
concatenation of the pairs read, file by file (`run_gatherTempFiles`). The reduce
function is then called once for each key of that map, in increasing order, and
what it emitted replaces the output file (`run_reduceControllerModule`). Missing
temp files read as empty, so the code -1 is never returned, and a controller that
does not return 0 has written nothing (`reduceControllerModule_cleanUnless`).
-/

namespace MapReduceCpp

open InputStream Grouping
open Std (ExtTreeMap)

/-- The pairs read from a temp file; none from one that cannot be opened, as from one that is
empty. -/
def filePairs (file : Option Str) : List (Str × Str) :=
  pairUp (tokens isspace (file.getD []))

theorem readTextOf_groups_filePairs (file : Option Str) :
    Groups (readTextOf file) (filePairs file) := by
  cases file with
  | none => exact groups_empty
  | some text => exact readTextOf_groups text

/-- Every key of a map passes the membership test of the accumulating loop, since the test looks
into the map that the key was taken from. -/
theorem accumulate_eq (keyValueTemp keyValueAcc : ValueMap) :
    accumulate keyValueTemp keyValueAcc =
      keyValueTemp.toList.foldl (fun acc e => acc.insert e.1 (acc.getD e.1 [] ++ e.2))
        keyValueAcc := by
  rw [accumulate]
  refine List.foldl_ext _ _ _ fun acc elem hmem => ?_
  have hget : keyValueTemp[elem.1]? = some elem.2 :=
    ExtTreeMap.mem_toList_iff_getElem?_eq_some.mp hmem
  have hin : keyValueTemp.contains elem.1 = true := by
    rw [ExtTreeMap.contains_eq_isSome_getElem?, hget, Option.isSome_some]
  rw [if_pos hin]

/-- The body of that loop, for one entry of the map `keyValueTemp`. -/
def mergeElem (keyValueTemp keyValueAcc : ValueMap) (elem : Str × List Str) : ValueMap :=
  if keyValueTemp.contains elem.1 then
    keyValueAcc.insert elem.1 (keyValueAcc.getD elem.1 [] ++ elem.2)
  else keyValueAcc.insertIfNew elem.1 elem.2

theorem accumulate_eq_foldl (keyValueTemp keyValueAcc : ValueMap) :
    accumulate keyValueTemp keyValueAcc =
      keyValueTemp.toList.foldl (mergeElem keyValueTemp) keyValueAcc := rfl

/-- Neither branch loses a key or overwrites a list, and either leaves the key of the
entry in the map. -/
theorem mergeElem_extends (keyValueTemp keyValueAcc : ValueMap) (elem : Str × List Str) :
    Extends keyValueAcc (mergeElem keyValueTemp keyValueAcc elem) ∧
      elem.1 ∈ mergeElem keyValueTemp keyValueAcc elem := by
  unfold mergeElem
  split
  · exact ⟨extends_insert _ _ _, ExtTreeMap.mem_insert_self⟩
  · exact ⟨extends_insertIfNew _ _ _, ExtTreeMap.mem_insertIfNew_self⟩

/-- What is in the accumulated map at some point of the loop is there at its end. -/
theorem accumulate_extends {keyValueTemp : ValueMap} {merged rest : List (Str × List Str)}
    (h : keyValueTemp.toList = merged ++ rest) (keyValueAcc : ValueMap) :
    Extends (merged.foldl (mergeElem keyValueTemp) keyValueAcc)
      (accumulate keyValueTemp keyValueAcc) := by
  rw [accumulate_eq_foldl, h, List.foldl_append]
  exact extends_foldl (fun m elem => (mergeElem_extends keyValueTemp m elem).1) rest _

variable {iface : MapReduceInterface} {M R r : ℕ} {dir : Str} {acc : Access Path}

/-- The pairs a reducer reads, file by file. -/
def gathered (acc : Access Path) (d : Disk) (dir : Str) (is : List ℕ) (r : ℕ) :
    List (Str × Str) :=
  is.flatMap fun i => filePairs (acc.view d (tempPath dir i r))

/-- The accumulating loop never fails, and groups what the reducer reads: behind what the map
has been made of so far come the pairs of each file. -/
theorem run_gatherTempFiles (is : List ℕ) {keyValueAcc : ValueMap} {ps : List (Str × Str)}
    (h : Groups keyValueAcc ps) (d : Disk) :
    (gatherTempFiles dir r is keyValueAcc).run acc d =
      (.ok (ofPairs (ps ++ gathered acc d dir is r)), d) := by
  induction is generalizing keyValueAcc ps with
  | nil => simp [gatherTempFiles, gathered, h.eq_ofPairs]
  | cons i is ih =>
    have hstep := (h.merge (readTextOf_groups_filePairs (acc.view d (tempPath dir i r))))
    rw [← accumulate_eq] at hstep
    simp only [gatherTempFiles, readText, FileProg.bind_eq, FileProg.run_bind,
      FileProg.run_readFile, FileProg.pure_eq, FileProg.run_done, ih hstep]
    rw [gathered, gathered, List.flatMap_cons, List.append_assoc]

/-! ### The reduce loop

As the record loop of the mapper, but over the entries of a map, and with nothing to count. -/

/-- Reducing entries the reduce function throws on none of. -/
theorem reduceKeys_of_returns {es : List (Str × List Str)}
    (h : ∀ e ∈ es, (iface.reduceFn e.1 e.2).2 = none) (obj : MapReduceObject) :
    reduceKeys iface es obj = (none, { obj with
      emittedOutputs := obj.emittedOutputs ++ es.flatMap fun e => (iface.reduceFn e.1 e.2).1
      reduceCalls := obj.reduceCalls ++ es }) := by
  induction es generalizing obj with
  | nil => simp [reduceKeys]
  | cons e es ih =>
    rw [reduceKeys, MapReduceInterface.callReduce, h e List.mem_cons_self]
    simp only
    rw [ih fun e' h' => h e' (List.mem_cons_of_mem _ h')]
    simp [MapReduceObject.emit]

/-- The loop only runs to its end if no call throws. -/
theorem returns_of_reduceKeys {es : List (Str × List Str)} {obj : MapReduceObject}
    (h : (reduceKeys iface es obj).1 = none) : ∀ e ∈ es, (iface.reduceFn e.1 e.2).2 = none := by
  induction es generalizing obj with
  | nil => simp
  | cons e es ih =>
    rw [reduceKeys] at h
    split at h
    · simp at h
    · simp at h
    · rename_i hnone
      intro e' h'
      rcases List.mem_cons.mp h' with rfl | h'
      · exact hnone
      · exact ih h e' h'

/-- A loop that ends early with a code ends with -3. -/
theorem code_of_reduceKeys {es : List (Str × List Str)} {obj : MapReduceObject} {code : ℤ}
    (h : (reduceKeys iface es obj).1 = some (.ok code)) : code = -3 := by
  induction es generalizing obj with
  | nil => simp [reduceKeys] at h
  | cons e es ih =>
    rw [reduceKeys] at h
    split at h
    · exact (Except.ok.inj (Option.some.inj h)).symm
    · simp at h
    · exact ih h

/-- A loop that ends early does not end with code 0. -/
theorem reduceKeys_ne_ok_zero (es : List (Str × List Str)) (obj : MapReduceObject) :
    (reduceKeys iface es obj).1 ≠ some (.ok 0) := by
  intro h
  exact absurd (code_of_reduceKeys h) (by omega)

/-- The outcome of a reducer, by the first exception its loop meets. -/
def reduceOutcome : Option Fault → Outcome
  | some fault => caught (-3) fault
  | none => .ok 0

/-- The loop ends with the first exception the reduce function throws. -/
theorem reduceKeys_outcome (es : List (Str × List Str)) (obj : MapReduceObject) :
    (reduceKeys iface es obj).1.getD (.ok 0) =
      reduceOutcome (es.findSome? fun e => (iface.reduceFn e.1 e.2).2) := by
  induction es generalizing obj with
  | nil => rfl
  | cons e es ih =>
    rw [List.findSome?_cons]
    cases hcall : (iface.reduceFn e.1 e.2).2 with
    | some fault => cases fault <;>
      simp only [reduceKeys, MapReduceInterface.callReduce, hcall] <;> rfl
    | none =>
      simp only [reduceKeys, MapReduceInterface.callReduce, hcall]
      exact ih _

/-! ### The controller

Files that are missing make no difference to its code, since the loop over them cannot fail. -/

/-- The entries a reducer calls the reduce function on, in the order of their keys. -/
def reducerEntries (acc : Access Path) (d : Disk) (dir : Str) (M r : ℕ) :
    List (Str × List Str) :=
  (ofPairs (gathered acc d dir (List.range M) r)).toList

/-- The result of a reducer's loop decides the result of the controller. -/
theorem run_reduceControllerModule_eq (d : Disk) :
    (reduceControllerModule iface dir R M r).run acc d =
      match reduceKeys iface (reducerEntries acc d dir M r) {} with
      | (some outcome, obj) => (⟨outcome, obj⟩, d)
      | (none, obj) => (⟨.ok 0, obj⟩,
          if acc.canWrite (outputPath dir r) then
            Function.update d (outputPath dir r) (some (entriesText obj.emittedOutputs))
          else d) := by
  simp only [reduceControllerModule, FileProg.bind_eq, FileProg.run_bind,
    run_gatherTempFiles _ groups_empty, List.nil_append, reducerEntries]
  rcases hres : reduceKeys iface (ofPairs (gathered acc d dir (List.range M) r)).toList {} with
    ⟨_ | outcome, obj⟩
  · simp only [FileProg.run_bind, run_writeKeyValVector, FileProg.pure_eq, FileProg.run_done]
  · simp only [FileProg.pure_eq, FileProg.run_done]

theorem outcome_of_reduceControllerModule (d : Disk) :
    ((reduceControllerModule iface dir R M r).run acc d).1.outcome =
      reduceOutcome ((reducerEntries acc d dir M r).findSome? fun e =>
        (iface.reduceFn e.1 e.2).2) := by
  rw [run_reduceControllerModule_eq, ← reduceKeys_outcome _ {}]
  rcases reduceKeys iface (reducerEntries acc d dir M r) {} with ⟨_ | outcome, obj⟩ <;> rfl

/-- With no call throwing, the controller calls the reduce function once for each
entry and writes what it emitted. -/
theorem run_reduceControllerModule {d : Disk}
    (h : ∀ e ∈ reducerEntries acc d dir M r, (iface.reduceFn e.1 e.2).2 = none) :
    (reduceControllerModule iface dir R M r).run acc d =
      (⟨.ok 0, {
          emittedOutputs :=
            (reducerEntries acc d dir M r).flatMap fun e => (iface.reduceFn e.1 e.2).1
          reduceCalls := reducerEntries acc d dir M r }⟩,
        if acc.canWrite (outputPath dir r) then
          Function.update d (outputPath dir r) (some (entriesText
            ((reducerEntries acc d dir M r).flatMap fun e => (iface.reduceFn e.1 e.2).1)))
        else d) := by
  rw [run_reduceControllerModule_eq, reduceKeys_of_returns h]
  simp

/-- A controller that returns 0 was thrown at by no call. -/
theorem returns_of_reduceControllerModule {d : Disk}
    (h : ((reduceControllerModule iface dir R M r).run acc d).1.outcome = .ok 0) :
    ∀ e ∈ reducerEntries acc d dir M r, (iface.reduceFn e.1 e.2).2 = none := by
  rw [run_reduceControllerModule_eq] at h
  split at h
  · rename_i outcome obj heq
    have hne := @reduceKeys_ne_ok_zero iface (reducerEntries acc d dir M r) {}
    rw [heq] at hne
    exact absurd (congrArg some h) hne
  · rename_i obj heq
    exact returns_of_reduceKeys (congrArg Prod.fst heq)

/-- The temp files of a reducer. -/
def reducerTempPaths (dir : Str) (M r : ℕ) : Set Path := {p | ∃ m < M, p = tempPath dir m r}

theorem gatherTempFiles_within {Rd W : Set Path} {is : List ℕ}
    (h : ∀ i ∈ is, tempPath dir i r ∈ Rd) (keyValueAcc : ValueMap) :
    (gatherTempFiles dir r is keyValueAcc).Within Rd W := by
  induction is generalizing keyValueAcc with
  | nil => trivial
  | cons i is ih =>
    refine ⟨h i List.mem_cons_self, fun _ => ?_⟩
    exact ih (fun i' h' => h i' (List.mem_cons_of_mem _ h')) _

/-- The controller reads its temp files and writes its output file. -/
theorem reduceControllerModule_within :
    (reduceControllerModule iface dir R M r).Within (reducerTempPaths dir M r)
      {outputPath dir r} := by
  have htemps : ∀ i ∈ List.range M, tempPath dir i r ∈ reducerTempPaths dir M r :=
    fun i hi => ⟨i, List.mem_range.mp hi, rfl⟩
  refine (gatherTempFiles_within htemps _).bind fun res => ?_
  cases res with
  | error outcome => trivial
  | ok keyValueAcc =>
    simp only
    split
    · trivial
    · exact (writeKeyValVector_within (Set.mem_singleton _) _).bind fun _ => trivial

/-- Gathering writes nothing, whatever is done with its result. -/
theorem gatherTempFiles_cleanUnless {Q : TaskResult → Prop} (is : List ℕ) (keyValueAcc : ValueMap)
    {f : Except Outcome ValueMap → FileProg Path Char TaskResult}
    (hf : ∀ res, (f res).CleanUnless Q) :
    ((gatherTempFiles dir r is keyValueAcc).bind f).CleanUnless Q := by
  induction is generalizing keyValueAcc with
  | nil => exact hf _
  | cons i is ih => exact fun file => ih _

/-- A controller that does not return 0 has written nothing: its output file is opened behind
the last point at which it can fail. -/
theorem reduceControllerModule_cleanUnless :
    (reduceControllerModule iface dir R M r).CleanUnless (·.outcome = .ok 0) := by
  refine gatherTempFiles_cleanUnless _ _ fun res => ?_
  cases res with
  | error outcome => trivial
  | ok keyValueAcc =>
    simp only
    split
    · trivial
    · exact .of_results ((FileProg.Results.trivial _).bind fun _ _ => rfl)

end MapReduceCpp
