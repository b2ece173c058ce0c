import MapReduceCpp.Controller
import MapReduceCpp.Lib.Partition

/-!
# MapReduceCpp.Controller.Map

What `map_controller_module` computes.

The record loop applies `map_fn` to the records the mapper owns, in the order of
the input (`mapRecords_eq_applyMap`): record numbers below `2^31` neither overflow
nor change under the hash's conversion to `int`, so ownership is the residue of
the number's hash. If no call throws, the emitted pairs of reducer `r` end up in
the temp file of `r`, one line each and in emission order, and that file is
truncated first, so its earlier contents do not matter (`run_mapControllerModule`).
A controller that returns anything but 0 has not touched the disk
(`mapControllerModule_cleanUnless`).
-/

namespace MapReduceCpp

open InputStream ListPartition

/-! ### The record loop

The loop counts the lines in an `int` and hands each line that hashes to the mapper to `map_fn`.
Its first exception ends it, and a record number that is too large does as well, but only after
the line before it has been mapped. `applyMap` is what is left of it where the numbers do not
matter. -/

/-- The mapper a numbered line hashes to. It depends on the number alone, not on what is on the
line. -/
def lineOwner (H : Hashers) (nrMapper : ℕ) (line : Str × ℕ) : ℕ :=
  (H.int line.2).toNat % nrMapper

/-- The arguments of the `map_fn` call for a numbered line. -/
def record (line : Str × ℕ) : Str × Str := (toStr line.2, line.1)

/-- The records a mapper owns among the lines from record number `n` on. -/
def ownedRecords (H : Hashers) (nrMapper mapperId : ℕ) (ls : List Str) (n : ℕ) :
    List (Str × Str) :=
  (part (lineOwner H nrMapper) (ls.zipIdx n) mapperId).map record

/-- Apply `map_fn` to a list of records, as long as it does not throw. -/
def applyMap (iface : MapReduceInterface) :
    List (Str × Str) → MapReduceObject → Option Outcome × MapReduceObject
  | [], obj => (none, obj)
  | kv :: rest, obj =>
    let mapped := iface.callMap obj kv.1 kv.2
    match mapped.1 with
    | some (.int _) => (some (.ok (-2)), mapped.2)
    | some fault => (some (.error fault), mapped.2)
    | none => applyMap iface rest mapped.2

variable {H : Hashers} {iface : MapReduceInterface} {M m R : ℕ}

theorem ownedRecords_cons (l : Str) (ls : List Str) (n : ℕ) :
    ownedRecords H M m (l :: ls) n =
      (if lineOwner H M (l, n) = m then [record (l, n)] else []) ++
        ownedRecords H M m ls (n + 1) := by
  rw [ownedRecords, List.zipIdx_cons, part, List.filter_cons]
  split <;> simp_all [ownedRecords, part]

/-- A line goes through `map_fn` exactly if it hashes to the mapper. -/
theorem mapRecord_eq (hM : 0 < M) (hM' : M < 2 ^ 31) (l : Str) (n : ℕ) (obj : MapReduceObject) :
    mapRecord H iface M m n l obj =
      if lineOwner H M (l, n) = m then iface.callMap obj (toStr n) l else (none, obj) := by
  have hval := hashInRange_eq H.int (n : ℤ) hM hM'
  rw [mapRecord, hval, lineOwner]
  simp only [Int.natCast_inj]

/-- The record loop is `map_fn` over the owned records, as long as the last record number is an
`int`. -/
theorem mapRecords_eq_applyMap (hM : 0 < M) (hM' : M < 2 ^ 31) (ls : List Str) (n : ℕ)
    (obj : MapReduceObject) (hlen : n + ls.length < 2 ^ 31) :
    mapRecords (mapRecord H iface M m) ls n obj =
      applyMap iface (ownedRecords H M m ls n) obj := by
  induction ls generalizing n obj with
  | nil => rfl
  | cons l ls ih =>
    rw [List.length_cons] at hlen
    have hadd : intAdd n 1 = .ok ((n + 1 : ℕ) : ℤ) :=
      intAdd_ok ⟨by omega, by push_cast; omega⟩
    rw [ownedRecords_cons, mapRecords, mapRecord_eq hM hM']
    rw [hadd]
    by_cases ho : lineOwner H M (l, n) = m
    · rw [if_pos ho, if_pos ho, List.singleton_append, applyMap]
      rcases hcall : (iface.callMap obj (toStr n) l).1 with _ | (e | what | _) <;>
        simp only [record, hcall]
      exact ih (n + 1) _ (by omega)
    · rw [if_neg ho, if_neg ho, List.nil_append]
      exact ih (n + 1) obj (by omega)

/-- The loop only runs to its end if the record numbers are `int`s. -/
theorem length_lt_of_mapRecords {body : ℤ → Str → MapReduceObject → Option Fault × MapReduceObject}
    {ls : List Str} {n : ℕ} {obj : MapReduceObject} (hn : n < 2 ^ 31)
    (h : (mapRecords body ls n obj).1 = none) : n + ls.length < 2 ^ 31 := by
  induction ls generalizing n obj with
  | nil => exact hn
  | cons l ls ih =>
    simp only [List.length_cons]
    rcases hcall : (body n l obj).1 with _ | (e | what | _) <;> simp only [mapRecords, hcall] at h
    · by_cases hlast : n + 1 < 2 ^ 31
      · have hadd : intAdd n 1 = .ok ((n + 1 : ℕ) : ℤ) :=
          intAdd_ok ⟨by omega, by push_cast; omega⟩
        rw [hadd] at h
        have := ih hlast h
        omega
      · have hadd : intAdd n 1 = .error .undefined :=
          if_neg fun hin => hlast (by have := hin.2; omega)
        rw [hadd] at h
        exact absurd h (Option.some_ne_none _)
    all_goals exact absurd h (Option.some_ne_none _)

/-- A loop that ends early does not end with code 0. -/
theorem mapRecords_ne_ok_zero {body : ℤ → Str → MapReduceObject → Option Fault × MapReduceObject}
    (ls : List Str) (n : ℤ) (obj : MapReduceObject) :
    (mapRecords body ls n obj).1 ≠ some (.ok 0) := by
  induction ls generalizing n obj with
  | nil => simp [mapRecords]
  | cons l ls ih =>
    rcases hcall : (body n l obj).1 with _ | (e | what | _) <;> simp only [mapRecords, hcall]
    · cases hadd : intAdd n 1 with
      | error fault => simp [advance]
      | ok next => exact ih next _
    all_goals simp

/-- What a `catch(int)` clause that returns a code makes of an exception. -/
def caught (code : ℤ) : Fault → Outcome
  | .int _ => .ok code
  | fault => .error fault

/-- The outcome of a mapper, by the first exception its loop meets at a record that an
`int` can number, and by the number of lines. -/
def mapOutcome (fault : Option Fault) (length : ℕ) : Outcome :=
  match fault with
  | some fault => caught (-2) fault
  | none => if length < 2 ^ 31 then .ok 0 else .error .undefined

/-- The loop ends with the first exception its body throws, or else by the number of its lines.
By induction on the lines: an exception at a line counts only if the number of the line can be
reached. -/
theorem mapRecords_outcome {body : ℤ → Str → MapReduceObject → Option Fault × MapReduceObject}
    {thrown : Str × ℕ → Option Fault} (hbody : ∀ line obj, (body line.2 line.1 obj).1 = thrown line)
    {ls : List Str} {n : ℕ} (hn : n < 2 ^ 31) (obj : MapReduceObject) :
    (mapRecords body ls n obj).1.getD (.ok 0) =
      mapOutcome (((ls.zipIdx n).filter fun line => line.2 < 2 ^ 31).findSome? thrown)
        (n + ls.length) := by
  induction ls generalizing n obj with
  | nil =>
    simp only [mapRecords, mapOutcome, List.zipIdx_nil, List.filter_nil, List.findSome?_nil,
      List.length_nil, Nat.add_zero, if_pos hn, Option.getD_none]
  | cons l ls ih =>
    have hcall : (body n l obj).1 = thrown (l, n) := hbody (l, n) obj
    rw [List.zipIdx_cons, List.filter_cons_of_pos (by simpa using hn), List.findSome?_cons]
    cases hthrown : thrown (l, n) with
    | some fault =>
      rw [hthrown] at hcall
      cases fault <;> simp [mapRecords, hcall, mapOutcome, caught]
    | none =>
      rw [hthrown] at hcall
      simp only [mapRecords, hcall]
      by_cases hlast : n + 1 < 2 ^ 31
      · have hadd : intAdd n 1 = .ok ((n + 1 : ℕ) : ℤ) :=
          intAdd_ok ⟨by omega, by push_cast; omega⟩
        rw [hadd, advance, ih hlast, List.length_cons, Nat.add_right_comm, Nat.add_assoc]
      · -- The counter overflows, and no later record is numbered.
        have hadd : intAdd n 1 = .error .undefined :=
          if_neg fun hin => hlast (by have := hin.2; omega)
        have hnone : (ls.zipIdx (n + 1)).filter (fun line => line.2 < 2 ^ 31) = [] := by
          refine List.filter_eq_nil_iff.mpr fun line hline => ?_
          have hle := List.le_snd_of_mem_zipIdx hline
          simp only [decide_eq_true_eq]
          omega
        have hlen : ¬ n + (l :: ls).length < 2 ^ 31 := by
          simp only [List.length_cons]
          omega
        rw [hadd, hnone, advance, List.findSome?_nil]
        simp only [mapOutcome, if_neg hlen, Option.getD_some]

/-- Applying `map_fn` to records it throws on none of. -/
theorem applyMap_of_returns {recs : List (Str × Str)}
    (h : ∀ kv ∈ recs, (iface.mapFn kv.1 kv.2).2 = none) (obj : MapReduceObject) :
    applyMap iface recs obj = (none, { obj with
      emittedIntermediates :=
        obj.emittedIntermediates ++ recs.flatMap fun kv => (iface.mapFn kv.1 kv.2).1
      mapCalls := obj.mapCalls ++ recs }) := by
  induction recs generalizing obj with
  | nil => simp [applyMap]
  | cons kv rest ih =>
    rw [applyMap, MapReduceInterface.callMap, h kv List.mem_cons_self]
    simp only
    rw [ih fun kv' h' => h kv' (List.mem_cons_of_mem _ h')]
    simp [MapReduceObject.emitIntermediate]

/-- The loop only runs to its end if no call throws. -/
theorem returns_of_applyMap {recs : List (Str × Str)} {obj : MapReduceObject}
    (h : (applyMap iface recs obj).1 = none) : ∀ kv ∈ recs, (iface.mapFn kv.1 kv.2).2 = none := by
  induction recs generalizing obj with
  | nil => simp
  | cons kv rest ih =>
    rw [applyMap] at h
    split at h
    · simp at h
    · simp at h
    · rename_i hnone
      intro kv' h'
      rcases List.mem_cons.mp h' with rfl | h'
      · exact hnone
      · exact ih h kv' h'

/-! ### The temp files

Which file a pair goes to is decided by its key, and the files are opened, written and closed in
the order of their reducers. The lemmas give the contents of all files at once, as a function of
the reducer. -/

/-- The reducer a key hashes to. -/
def route (H : Hashers) (nrReducer : ℕ) (elem : Str × Str) : ℕ :=
  (H.string elem.1).toNat % nrReducer

/-- The text of a temp file that holds the given pairs. -/
def tempText (pairs : List (Str × Str)) : Str := pairs.flatMap tempLine

/-- The paths `map_controller_module` writes. -/
def tempPaths (dir : Str) (m R : ℕ) : Set Path := {p | ∃ r < R, p = tempPath dir m r}

theorem tempPath_mem {dir : Str} {r : ℕ} (hr : r < R) : tempPath dir m r ∈ tempPaths dir m R :=
  ⟨r, hr, rfl⟩

section Writing

variable {dir : Str} {acc : Access Path} {Rd W : Set Path}

/-- The stream of every temp file after all opens have succeeded. -/
def tempStreams (dir : Str) (m : ℕ) (rs : List ℕ) : List OFStream :=
  rs.map fun r => ⟨tempPath dir m r, true⟩

theorem run_openTempFiles {rs : List ℕ} (hacc : ∀ r ∈ rs, acc.canWrite (tempPath dir m r) = true)
    (d : Disk) :
    ((openTempFiles dir m rs).run acc d).1 = tempStreams dir m rs ∧
      ∀ p, ((openTempFiles dir m rs).run acc d).2 p =
        if p ∈ rs.map (tempPath dir m) then some [] else d p := by
  induction rs generalizing d with
  | nil => simp [openTempFiles, tempStreams]
  | cons r rs ih =>
    have hr : acc.canWrite (tempPath dir m r) = true := hacc r List.mem_cons_self
    obtain ⟨hfiles, hdisk⟩ := ih (fun r' h' => hacc r' (List.mem_cons_of_mem _ h'))
      (Function.update d (tempPath dir m r) (some []))
    simp only [openTempFiles, ofstream, FileProg.bind_eq, FileProg.run_bind,
      FileProg.run_createFile, FileProg.pure_eq, FileProg.run_done, hr, if_true]
    refine ⟨by rw [hfiles]; rfl, fun p => ?_⟩
    rw [hdisk]
    by_cases hp : p = tempPath dir m r
    · subst hp
      simp
    · simp only [List.map_cons, List.mem_cons, hp, false_or, ne_eq, not_false_eq_true,
        Function.update_of_ne]

/-- Writing the pairs appends each to the temp file of its reducer. By induction on the pairs,
over files that hold some text already. -/
theorem run_writePairs (reducerIdx : Str → ℤ) (hR : 0 < R)
    (hidx : ∀ elem : Str × Str, reducerIdx elem.1 = route H R elem)
    (pairs : List (Str × Str)) {d : Disk} {text : ℕ → Str}
    (hd : ∀ r < R, d (tempPath dir m r) = some (text r)) :
    ((writePairs reducerIdx (tempStreams dir m (List.range R)) pairs).run acc d).1 = none ∧
      ∀ r < R, ((writePairs reducerIdx (tempStreams dir m (List.range R)) pairs).run acc d).2
        (tempPath dir m r) = some (text r ++ tempText (part (route H R) pairs r)) := by
  induction pairs generalizing d text with
  | nil => simpa [writePairs, tempText] using hd
  | cons elem rest ih =>
    have hlt : route H R elem < R := Nat.mod_lt _ hR
    -- The hash modulo R is an index of the vector of streams.
    have hfile : atIndex (tempStreams dir m (List.range R)) (reducerIdx elem.1) =
        some ⟨tempPath dir m (route H R elem), true⟩ := by
      rw [hidx, atIndex, if_neg (by omega), Int.toNat_natCast]
      simp [tempStreams, hlt]
    have hput : ∀ r < R, Function.update d (tempPath dir m (route H R elem))
        (some (text (route H R elem) ++ tempLine elem)) (tempPath dir m r) =
          some (if route H R elem = r then text r ++ tempLine elem else text r) := by
      intro r hr
      by_cases h : route H R elem = r
      · subst h
        simp
      · rw [Function.update_of_ne fun he => h (tempPath_inj.mp he).2.symm, hd r hr, if_neg h]
    rw [writePairs, hfile]
    simp only [FileProg.bind_eq, FileProg.run_bind]
    rw [run_put_open rfl _ (hd _ hlt)]
    refine ⟨(ih hput).1, fun r hr => ?_⟩
    rw [(ih hput).2 r hr]
    by_cases h : route H R elem = r
    · simp [h, part, tempText]
    · simp [h, part, tempText]

theorem run_closeTempFiles (files : List OFStream) (d : Disk) :
    (closeTempFiles files).run acc d = ((), d) := by
  induction files with
  | nil => rfl
  | cons file files ih => simp [closeTempFiles, ih]

/-! ### Footprint

Which paths the controller may touch, and that its writing loop has a stream for every index it
computes. -/

theorem openTempFiles_within {rs : List ℕ} (h : ∀ r ∈ rs, tempPath dir m r ∈ W) :
    (openTempFiles dir m rs).Within Rd W := by
  induction rs with
  | nil => trivial
  | cons r rs ih =>
    refine ⟨h r List.mem_cons_self, fun _ => ?_⟩
    exact (ih fun r' h' => h r' (List.mem_cons_of_mem _ h')).bind fun _ => trivial

/-- One stream for each temp file, on its path. -/
theorem openTempFiles_results (rs : List ℕ) :
    (openTempFiles dir m rs).Results fun files =>
      files.map OFStream.path = rs.map (tempPath dir m) := by
  induction rs with
  | nil => rfl
  | cons r rs ih =>
    refine fun _ => ih.bind fun files h => ?_
    simp [FileProg.Results, h]

theorem mem_of_atIndex {α : Type} {xs : List α} {i : ℤ} {x : α} (h : atIndex xs i = some x) :
    x ∈ xs := by
  rw [atIndex] at h
  split at h
  · cases h
  · exact List.mem_of_getElem? h

theorem writePairs_within {reducerIdx : Str → ℤ} {files : List OFStream}
    (h : ∀ file ∈ files, file.path ∈ W) (pairs : List (Str × Str)) :
    (writePairs reducerIdx files pairs).Within Rd W := by
  induction pairs with
  | nil => trivial
  | cons elem rest ih =>
    rw [writePairs]
    cases hfile : atIndex files (reducerIdx elem.1) with
    | none => trivial
    | some file =>
      exact (put_within (h file (mem_of_atIndex hfile)) _).bind fun _ => ih

/-- With a temp file for every index, no write goes past the end. -/
theorem writePairs_results {reducerIdx : Str → ℤ} {files : List OFStream}
    (h : ∀ key, (atIndex files (reducerIdx key)).isSome) (pairs : List (Str × Str)) :
    (writePairs reducerIdx files pairs).Results (· = none) := by
  induction pairs with
  | nil => rfl
  | cons elem rest ih =>
    obtain ⟨file, hfile⟩ := Option.isSome_iff_exists.mp (h elem.1)
    rw [writePairs, hfile]
    exact (FileProg.Results.trivial _).bind fun _ _ => ih

theorem closeTempFiles_within {files : List OFStream} (h : ∀ file ∈ files, file.path ∈ W) :
    (closeTempFiles files).Within Rd W := by
  induction files with
  | nil => trivial
  | cons file files ih =>
    exact (close_within (h file List.mem_cons_self)).bind fun _ =>
      ih fun f hf => h f (List.mem_cons_of_mem _ hf)

end Writing

/-! ### The controller

Everything that is decided, is decided by what the first read gives: from then on the controller
writes or returns, and reads no more. -/

section MapController

variable {inputFileName dir : Str} {acc : Access Path}

/-- With every open succeeding and no call throwing, the controller returns 0 and each temp file
holds the emitted pairs whose key hashes to it, whatever it held before. -/
theorem run_mapControllerModule (hR : 0 < R) (hR' : R < 2 ^ 31) {d : Disk} {content : Str}
    {obj : MapReduceObject} (hwrite : ∀ r < R, acc.canWrite (tempPath dir m r) = true)
    (hd : acc.view d (inputPath dir inputFileName) = some content)
    (hkv : mapRecords (mapRecord H iface M m) (lines '\n' content) 0 {} = (none, obj)) :
    ((mapControllerModule H iface inputFileName dir M R m).run acc d).1 = ⟨.ok 0, obj⟩ ∧
      ∀ r < R, ((mapControllerModule H iface inputFileName dir M R m).run acc d).2
        (tempPath dir m r) =
          some (tempText (part (route H R) obj.emittedIntermediates r)) := by
  obtain ⟨hfiles, hempty⟩ :=
    run_openTempFiles (fun r hr => hwrite r (List.mem_range.mp hr)) d
  have hidx : ∀ elem : Str × Str, hashInRange H.string elem.1 R = route H R elem :=
    fun elem => hashInRange_eq H.string elem.1 hR hR'
  -- The opens truncate, so whatever the files held, the pairs start from nothing.
  have hblank : ∀ r < R, ((openTempFiles dir m (List.range R)).run acc d).2 (tempPath dir m r) =
      some ((fun _ => []) r) :=
    fun r hr => by rw [hempty, if_pos (List.mem_map_of_mem (List.mem_range.mpr hr))]
  obtain ⟨hnone, htexts⟩ := @run_writePairs H m R dir acc (fun key => hashInRange H.string key R)
    hR hidx obj.emittedIntermediates _ _ hblank
  have hrun : (mapControllerModule H iface inputFileName dir M R m).run acc d =
      (⟨.ok 0, obj⟩, ((writePairs (fun key => hashInRange H.string key R)
        (tempStreams dir m (List.range R)) obj.emittedIntermediates).run acc
          ((openTempFiles dir m (List.range R)).run acc d).2).2) := by
    simp only [mapControllerModule, FileProg.bind_eq, FileProg.run_bind, FileProg.run_readFile,
      hd, hkv, hfiles, hnone, run_closeTempFiles, FileProg.pure_eq,
      FileProg.run_done]
  rw [hrun]
  refine ⟨rfl, fun r hr => ?_⟩
  simpa using htexts r hr

/-- A record loop that ends early is all the controller does. -/
theorem run_mapControllerModule_early {d : Disk} {content : Str} {outcome : Outcome}
    {obj : MapReduceObject} (hd : acc.view d (inputPath dir inputFileName) = some content)
    (hkv : mapRecords (mapRecord H iface M m) (lines '\n' content) 0 {} = (some outcome, obj)) :
    (mapControllerModule H iface inputFileName dir M R m).run acc d = (⟨outcome, obj⟩, d) := by
  simp only [mapControllerModule, FileProg.bind_eq, FileProg.run_bind, FileProg.run_readFile,
    hd, hkv, FileProg.pure_eq, FileProg.run_done]

/-- Without an input file the controller returns -1. -/
theorem run_mapControllerModule_missing {d : Disk}
    (hd : acc.view d (inputPath dir inputFileName) = none) :
    (mapControllerModule H iface inputFileName dir M R m).run acc d = (⟨.ok (-1), {}⟩, d) := by
  simp only [mapControllerModule, FileProg.bind_eq, FileProg.run_bind, FileProg.run_readFile,
    hd, FileProg.pure_eq, FileProg.run_done]

/-- A controller that returns 0 found its input and ran its loop to the end. -/
theorem mapRecords_of_mapControllerModule {d : Disk} {content : Str}
    (hd : acc.view d (inputPath dir inputFileName) = some content)
    (h : ((mapControllerModule H iface inputFileName dir M R m).run acc d).1.outcome = .ok 0) :
    (mapRecords (mapRecord H iface M m) (lines '\n' content) 0 {}).1 = none := by
  have hne := @mapRecords_ne_ok_zero (mapRecord H iface M m) (lines '\n' content) 0 {}
  rcases hkv : mapRecords (mapRecord H iface M m) (lines '\n' content) 0 {} with
    ⟨_ | outcome, obj⟩
  · rfl
  · rw [run_mapControllerModule_early hd hkv] at h
    rw [hkv] at hne
    exact absurd (congrArg some h) hne

/-- The controller reads the input file and writes its own temp files. -/
theorem mapControllerModule_within :
    (mapControllerModule H iface inputFileName dir M R m).Within
      {inputPath dir inputFileName} (tempPaths dir m R) := by
  have hmem : ∀ r ∈ List.range R, tempPath dir m r ∈ tempPaths dir m R :=
    fun r hr => tempPath_mem (List.mem_range.mp hr)
  refine ⟨rfl, fun input => ?_⟩
  cases input with
  | none => trivial
  | some content =>
    simp only [FileProg.done_bind]
    split
    · trivial
    · refine (openTempFiles_within hmem).bind_results (openTempFiles_results _)
        fun files hfiles => ?_
      have hpaths : ∀ file ∈ files, file.path ∈ tempPaths dir m R := by
        intro file hf
        have hp : file.path ∈ (List.range R).map (tempPath dir m) :=
          hfiles ▸ List.mem_map_of_mem hf
        obtain ⟨r, hr, hre⟩ := List.mem_map.mp hp
        exact hre ▸ hmem r hr
      refine (writePairs_within hpaths _).bind fun fault => ?_
      cases fault with
      | none => exact (closeTempFiles_within hpaths).bind fun _ => trivial
      | some fault => trivial

/-- Everything but the writing is decided when the input is read: without an input
file the controller returns -1, a record loop that ends early ends it, and after a
complete loop it returns 0, whatever happens to its files. -/
theorem mapControllerModule_read (hR : 0 < R) (hR' : R < 2 ^ 31) :
    ∃ k, mapControllerModule H iface inputFileName dir M R m =
        .read (inputPath dir inputFileName) k ∧
      k none = .done ⟨.ok (-1), {}⟩ ∧ ∀ content,
        (∀ outcome obj, mapRecords (mapRecord H iface M m) (lines '\n' content) 0 {} =
          (some outcome, obj) → k (some content) = .done ⟨outcome, obj⟩) ∧
        ∀ obj, mapRecords (mapRecord H iface M m) (lines '\n' content) 0 {} = (none, obj) →
          (k (some content)).Results (· = ⟨.ok 0, obj⟩) := by
  refine ⟨_, rfl, rfl, fun content => ⟨fun outcome obj hkv => ?_, fun obj hkv => ?_⟩⟩
  · simp only [FileProg.done_bind, hkv]
    rfl
  · simp only [FileProg.done_bind, hkv]
    refine (openTempFiles_results _).bind fun files hfiles => ?_
    have hlen : files.length = R := by
      simpa using congrArg List.length hfiles
    have hidx : ∀ key, (atIndex files (hashInRange H.string key R)).isSome := by
      intro key
      have hval := hashInRange_eq H.string key hR hR'
      rw [hval, atIndex, if_neg (by omega), Int.toNat_natCast]
      simp [hlen, Nat.mod_lt _ hR]
    refine (writePairs_results hidx _).bind fun fault hfault => ?_
    subst hfault
    exact (FileProg.Results.trivial _).bind fun _ _ => rfl

/-- So its outcome is that of the record loop, and no failed open can change it. -/
theorem mapControllerModule_results (hR : 0 < R) (hR' : R < 2 ^ 31) :
    ∃ k, mapControllerModule H iface inputFileName dir M R m =
        .read (inputPath dir inputFileName) k ∧
      k none = .done ⟨.ok (-1), {}⟩ ∧ ∀ content, (k (some content)).Results fun t =>
        t.outcome =
          (mapRecords (mapRecord H iface M m) (lines '\n' content) 0 {}).1.getD (.ok 0) := by
  obtain ⟨k, hk, hnone, hcontent⟩ := @mapControllerModule_read H iface M m R inputFileName dir hR hR'
  refine ⟨k, hk, hnone, fun content => ?_⟩
  rcases hkv : mapRecords (mapRecord H iface M m) (lines '\n' content) 0 {} with
    ⟨_ | outcome, obj⟩
  · exact ((hcontent content).2 obj hkv).imp fun t ht => by rw [ht]; rfl
  · rw [(hcontent content).1 outcome obj hkv]
    rfl

/-- A controller that does not return 0 has written nothing. -/
theorem mapControllerModule_cleanUnless (hR : 0 < R) (hR' : R < 2 ^ 31) :
    (mapControllerModule H iface inputFileName dir M R m).CleanUnless (·.outcome = .ok 0) := by
  obtain ⟨k, hk, hnone, hcontent⟩ := @mapControllerModule_read H iface M m R inputFileName dir hR hR'
  rw [hk]
  intro input
  cases input with
  | none =>
    rw [hnone]
    trivial
  | some content =>
    rcases hkv : mapRecords (mapRecord H iface M m) (lines '\n' content) 0 {} with
      ⟨_ | outcome, obj⟩
    · exact .of_results (((hcontent content).2 obj hkv).imp fun t ht => by rw [ht])
    · rw [(hcontent content).1 outcome obj hkv]
      trivial

end MapController

end MapReduceCpp
