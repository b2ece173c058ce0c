import MapReduceCpp.Controller.Map
import MapReduceCpp.Controller.Reduce

/-!
# MapReduceCpp.Job

The tasks of one map-reduce job, and what they compute when they run one after
the other.

A `Job` is a `MapReduceMaster` together with the user functions registered with
the factory and the platform's hash functions: everything the `map` and `reduce`
handlers pass to the controllers. `tempContent` and `outputContent` say what the
temp and output files hold after their task, as functions of the input alone. One
map task establishes its row of temp files from any disk with the input on it
(`Job.run_mapTask`), one reduce task its output file from any disk with its column
of temp files on it (`Job.run_reduceTask`), and the two together settle a
sequential run in any order (`Job.mapPhase_eq`, `Job.reducePhase_eq`).
-/

namespace MapReduceCpp

open InputStream Grouping ListPartition

/-- The fields of a `MapReduceMaster`; the counts are positive `int`s. The constructor checks
neither, so a count that is not positive cannot be built here. -/
structure MapReduceMaster where
  inputFileName : Str
  outputResultDirectory : Str
  nrMapper : ℕ
  nrReducer : ℕ
  nrMapper_pos : 0 < nrMapper
  nrMapper_lt : nrMapper < 2 ^ 31
  nrReducer_pos : 0 < nrReducer
  nrReducer_lt : nrReducer < 2 ^ 31

/-- A master, the user functions and the hash functions its workers run with. -/
structure Job extends MapReduceMaster where
  hashers : Hashers
  iface : MapReduceInterface

namespace Job

variable (job : Job)

/-- The path of the input file. -/
def input : Path := inputPath job.outputResultDirectory job.inputFileName

/-- The path of a temp file. -/
def temp (m r : ℕ) : Path := tempPath job.outputResultDirectory m r

/-- The path of an output file. -/
def output (r : ℕ) : Path := outputPath job.outputResultDirectory r

/-- What the `map` handler runs. -/
def mapTask (idx : ℕ) : FileProg Path Char TaskResult :=
  mapControllerModule job.hashers job.iface job.inputFileName job.outputResultDirectory
    job.nrMapper job.nrReducer idx

/-- What the `reduce` handler runs. -/
def reduceTask (idx : ℕ) : FileProg Path Char TaskResult :=
  reduceControllerModule job.iface job.outputResultDirectory job.nrReducer job.nrMapper idx

/-- The input file is none of the files the job writes. Nothing in the program checks it: the
names are all in one directory. -/
structure InputApart : Prop where
  temp : ∀ m < job.nrMapper, ∀ r < job.nrReducer, job.input ≠ job.temp m r
  output : ∀ r < job.nrReducer, job.input ≠ job.output r

@[simp] theorem temp_inj {m r m' r' : ℕ} : job.temp m r = job.temp m' r' ↔ m = m' ∧ r = r' :=
  tempPath_inj

@[simp] theorem output_inj {r r' : ℕ} : job.output r = job.output r' ↔ r = r' :=
  outputPath_inj

@[simp] theorem temp_ne_output {m r r' : ℕ} : job.temp m r ≠ job.output r' :=
  tempPath_ne_outputPath

/-! ### The reference

What each task should read, emit and write, as functions of the input. No task is run here and
no disk looked at; the sections below say that the tasks do it. -/

variable (content : Str)

/-- The records of a mapper, in input order. -/
def records (m : ℕ) : List (Str × Str) :=
  ownedRecords job.hashers job.nrMapper m (lines '\n' content) 0

/-- What a mapper emits. -/
def emitted (m : ℕ) : List (Str × Str) :=
  (job.records content m).flatMap fun kv => (job.iface.mapFn kv.1 kv.2).1

/-- The pairs a mapper has for a reducer. -/
def routed (m r : ℕ) : List (Str × Str) :=
  part (route job.hashers job.nrReducer) (job.emitted content m) r

/-- What a mapper writes for a reducer. -/
def tempContent (m r : ℕ) : Str := tempText (job.routed content m r)

/-- What a reducer reads, mapper by mapper. It is read back from the text of the temp files, not
taken from what was emitted: where the format is not exact the two differ. -/
def shuffled (r : ℕ) : List (Str × Str) :=
  (List.range job.nrMapper).flatMap fun m => filePairs (some (job.tempContent content m r))

/-- The keys of a reducer with their value lists, in the order it reduces them. -/
def entries (r : ℕ) : List (Str × List Str) := (ofPairs (job.shuffled content r)).toList

/-- What a reducer emits. -/
def outputs (r : ℕ) : List (Str × List Str) :=
  (job.entries content r).flatMap fun e => (job.iface.reduceFn e.1 e.2).1

/-- What a reducer writes. -/
def outputContent (r : ℕ) : Str := entriesText (job.outputs content r)

/-- The result of a map task that completes. -/
def mapResult (m : ℕ) : TaskResult :=
  ⟨.ok 0, { emittedIntermediates := job.emitted content m, mapCalls := job.records content m }⟩

/-- The result of a reduce task that completes. -/
def reduceResult (r : ℕ) : TaskResult :=
  ⟨.ok 0, { emittedOutputs := job.outputs content r, reduceCalls := job.entries content r }⟩

/-- The record numbers are `int`s and `map_fn` throws on none of a mapper's records. -/
structure MapReturns (m : ℕ) : Prop where
  length_lt : (lines '\n' content).length < 2 ^ 31
  returns : ∀ kv ∈ job.records content m, (job.iface.mapFn kv.1 kv.2).2 = none

/-- `reduce_fn` throws on none of a reducer's entries. -/
def ReduceReturns (r : ℕ) : Prop :=
  ∀ e ∈ job.entries content r, (job.iface.reduceFn e.1 e.2).2 = none

/-! ### One task

A single task on a disk on which its input is. Neither what its own files hold already nor what
else is on the disk matters. -/

variable {job content}

theorem mapTask_within (m : ℕ) :
    (job.mapTask m).Within {job.input} (tempPaths job.outputResultDirectory m job.nrReducer) :=
  mapControllerModule_within

theorem reduceTask_within (r : ℕ) :
    (job.reduceTask r).Within (reducerTempPaths job.outputResultDirectory job.nrMapper r)
      {job.output r} :=
  reduceControllerModule_within

theorem mapTask_cleanUnless (m : ℕ) : (job.mapTask m).CleanUnless (·.outcome = .ok 0) :=
  mapControllerModule_cleanUnless job.nrReducer_pos job.nrReducer_lt

theorem reduceTask_cleanUnless (r : ℕ) : (job.reduceTask r).CleanUnless (·.outcome = .ok 0) :=
  reduceControllerModule_cleanUnless

theorem MapReturns.mapRecords {m : ℕ} (h : job.MapReturns content m) :
    mapRecords (mapRecord job.hashers job.iface job.nrMapper m) (lines '\n' content) 0 {} =
      (none, (job.mapResult content m).object) := by
  have hloop := @mapRecords_eq_applyMap job.hashers job.iface job.nrMapper m job.nrMapper_pos
    job.nrMapper_lt (lines '\n' content) 0 {} (by simpa using h.length_lt)
  have happly := applyMap_of_returns h.returns {}
  rw [records] at happly
  rw [Nat.cast_zero] at hloop
  rw [hloop, happly]
  simp [mapResult, emitted, records]

/-- A map task on a disk with the input on it leaves its row of temp files, whatever
they held before. -/
theorem run_mapTask {m : ℕ} {d : Disk} (h : job.MapReturns content m)
    (hd : d job.input = some content) :
    ((job.mapTask m).run .all d).1 = job.mapResult content m ∧
      ∀ r < job.nrReducer,
        ((job.mapTask m).run .all d).2 (job.temp m r) = some (job.tempContent content m r) :=
  run_mapControllerModule job.nrReducer_pos job.nrReducer_lt (fun _ _ => rfl) hd h.mapRecords

/-- A map task that returns 0 was thrown at by no call. -/
theorem mapReturns_of_outcome {m : ℕ} {d : Disk} (hd : d job.input = some content)
    (h : ((job.mapTask m).run .all d).1.outcome = .ok 0) : job.MapReturns content m := by
  have hnone := @mapRecords_of_mapControllerModule _ _ _ _ _ _ _ .all _ _ hd h
  have hlen : (0 : ℕ) + (lines '\n' content).length < 2 ^ 31 :=
    length_lt_of_mapRecords (by omega) hnone
  have hloop := @mapRecords_eq_applyMap job.hashers job.iface job.nrMapper m job.nrMapper_pos
    job.nrMapper_lt (lines '\n' content) 0 {} hlen
  rw [Nat.cast_zero] at hloop
  rw [hloop] at hnone
  exact ⟨by omega, returns_of_applyMap hnone⟩

/-- With its column of temp files on the disk, a reducer reduces its entries. -/
theorem reducerEntries_eq {r : ℕ} {d : Disk}
    (hd : ∀ m < job.nrMapper, d (job.temp m r) = some (job.tempContent content m r)) :
    reducerEntries .all d job.outputResultDirectory job.nrMapper r = job.entries content r := by
  have hgather : gathered .all d job.outputResultDirectory (List.range job.nrMapper) r =
      job.shuffled content r := by
    refine List.flatMap_congr fun m hm => ?_
    rw [Access.all_view]
    exact congrArg filePairs (hd m (List.mem_range.mp hm))
  rw [reducerEntries, hgather, entries]

/-- A reduce task on a disk with its column of temp files on it leaves its output
file. -/
theorem run_reduceTask {r : ℕ} {d : Disk} (h : job.ReduceReturns content r)
    (hd : ∀ m < job.nrMapper, d (job.temp m r) = some (job.tempContent content m r)) :
    (job.reduceTask r).run .all d =
      (job.reduceResult content r,
        Function.update d (job.output r) (some (job.outputContent content r))) := by
  have hentries := reducerEntries_eq hd
  rw [reduceTask, run_reduceControllerModule (by rw [hentries]; exact h), hentries]
  rfl

/-- A reduce task that returns 0 was thrown at by no call. -/
theorem reduceReturns_of_outcome {r : ℕ} {d : Disk}
    (hd : ∀ m < job.nrMapper, d (job.temp m r) = some (job.tempContent content m r))
    (h : ((job.reduceTask r).run .all d).1.outcome = .ok 0) : job.ReduceReturns content r := by
  have hreturns := returns_of_reduceControllerModule h
  rwa [reducerEntries_eq hd] at hreturns

/-! ### Codes

The code of a task, over all that the user functions may throw, all files that may be missing
and all opens that may fail. -/

section Codes

variable {acc : Access Path} {d : Disk} {m : ℕ}

variable (job) in
/-- The exception `map_fn` throws for a numbered line, if it is the mapper's. -/
def thrown (m : ℕ) (line : Str × ℕ) : Option Fault :=
  if lineOwner job.hashers job.nrMapper line = m then
    (job.iface.mapFn (toStr line.2) line.1).2 else none

variable (job content) in
/-- The first exception `map_fn` throws for a record of the mapper that an `int` can number.
Later ones are not reached, and neither are records beyond the range. -/
def mapFault (m : ℕ) : Option Fault :=
  (((lines '\n' content).zipIdx 0).filter fun line => line.2 < 2 ^ 31).findSome? (job.thrown m)

variable (job) in
/-- The first exception `reduce_fn` throws for what the reducer finds on a disk. -/
def reduceFault (acc : Access Path) (d : Disk) (r : ℕ) : Option Fault :=
  (reducerEntries acc d job.outputResultDirectory job.nrMapper r).findSome? fun e =>
    (job.iface.reduceFn e.1 e.2).2

theorem thrown_of_owner {line : Str × ℕ}
    (h : lineOwner job.hashers job.nrMapper line = m) :
    job.thrown m line = (job.iface.mapFn (toStr line.2) line.1).2 := if_pos h

/-- The lines a mapper's first exception can come from. -/
theorem exists_of_mapFault {fault : Fault} (h : job.mapFault content m = some fault) :
    ∃ line ∈ (lines '\n' content).zipIdx, line.2 < 2 ^ 31 ∧
      lineOwner job.hashers job.nrMapper line = m ∧
      (job.iface.mapFn (toStr line.2) line.1).2 = some fault := by
  obtain ⟨line, hline, hthrown⟩ := List.exists_of_findSome?_eq_some h
  obtain ⟨hmem, hlt⟩ := List.mem_filter.mp hline
  unfold thrown at hthrown
  split at hthrown
  · exact ⟨line, hmem, by simpa using hlt, ‹_›, hthrown⟩
  · cases hthrown

/-- Without an exception no line of the mapper throws. -/
theorem mapFault_eq_none : job.mapFault content m = none ↔
    ∀ line ∈ (lines '\n' content).zipIdx, line.2 < 2 ^ 31 →
      lineOwner job.hashers job.nrMapper line = m →
      (job.iface.mapFn (toStr line.2) line.1).2 = none := by
  unfold mapFault
  rw [List.findSome?_eq_none_iff]
  constructor
  · intro h line hline hlt howner
    rw [← thrown_of_owner howner]
    exact h line (List.mem_filter.mpr ⟨hline, by simpa using hlt⟩)
  · intro h line hline
    obtain ⟨hmem, hlt⟩ := List.mem_filter.mp hline
    unfold thrown
    split
    · exact h line hmem (by simpa using hlt) ‹_›
    · rfl

theorem MapReturns.mapFault_eq (h : job.MapReturns content m) : job.mapFault content m = none :=
  mapFault_eq_none.mpr fun _ hline _ howner =>
    h.returns _ (List.mem_map_of_mem (mem_part.mpr ⟨hline, howner⟩))

theorem MapReturns.of_mapFault (hlen : (lines '\n' content).length < 2 ^ 31)
    (h : job.mapFault content m = none) : job.MapReturns content m where
  length_lt := hlen
  returns kv hkv := by
    obtain ⟨line, hline, rfl⟩ := List.mem_map.mp hkv
    obtain ⟨hmem, howner⟩ := mem_part.mp hline
    have hlt := List.snd_lt_of_mem_zipIdx hmem
    exact mapFault_eq_none.mp h line hmem (by omega) howner

/-- A map task reads the input, and what it then returns is decided. -/
theorem mapTask_read (m : ℕ) : ∃ k, job.mapTask m = .read job.input k ∧
    k none = .done ⟨.ok (-1), {}⟩ ∧ ∀ content, (k (some content)).Results fun t =>
      t.outcome = mapOutcome (job.mapFault content m) (lines '\n' content).length := by
  obtain ⟨k, hk, hnone, hcontent⟩ := @mapControllerModule_results job.hashers job.iface job.nrMapper
    m job.nrReducer job.inputFileName job.outputResultDirectory job.nrReducer_pos job.nrReducer_lt
  refine ⟨k, hk, hnone, fun content => (hcontent content).imp fun t ht => ?_⟩
  have hbody : ∀ (line : Str × ℕ) obj,
      (mapRecord job.hashers job.iface job.nrMapper m line.2 line.1 obj).1 = job.thrown m line := by
    intro line obj
    rw [mapRecord_eq job.nrMapper_pos job.nrMapper_lt, thrown]
    split <;> rfl
  have hloop := @mapRecords_outcome _ _ hbody (lines '\n' content) 0 (by omega) {}
  rw [Nat.cast_zero, Nat.zero_add] at hloop
  rw [ht, hloop, mapFault]

theorem mapTask_outcome (hd : acc.view d job.input = some content) :
    ((job.mapTask m).run acc d).1.outcome =
      mapOutcome (job.mapFault content m) (lines '\n' content).length := by
  obtain ⟨k, hk, -, hcontent⟩ := @mapTask_read job m
  rw [hk, FileProg.run, hd]
  exact (hcontent content).run d

theorem mapTask_missing (h : acc.view d job.input = none) :
    ((job.mapTask m).run acc d).1.outcome = .ok (-1) := by
  rw [mapTask, run_mapControllerModule_missing h]

theorem reduceTask_outcome (acc : Access Path) (d : Disk) (r : ℕ) :
    ((job.reduceTask r).run acc d).1.outcome = reduceOutcome (job.reduceFault acc d r) :=
  outcome_of_reduceControllerModule d

/-- A call that throws an `int` makes the task return -2. -/
theorem mapTask_throws
    (hint : ∀ k v fault, (job.iface.mapFn k v).2 = some fault → ∃ n, fault = .int n)
    (hd : acc.view d job.input = some content) {line : Str × ℕ}
    (hline : line ∈ (lines '\n' content).zipIdx) (hlt : line.2 < 2 ^ 31)
    (howner : lineOwner job.hashers job.nrMapper line = m)
    (hthrow : (job.iface.mapFn (toStr line.2) line.1).2 ≠ none) :
    ((job.mapTask m).run acc d).1.outcome = .ok (-2) := by
  rw [mapTask_outcome hd]
  cases hfault : job.mapFault content m with
  | none => exact absurd (mapFault_eq_none.mp hfault line hline hlt howner) hthrow
  | some fault =>
    obtain ⟨_, -, -, -, hthrown⟩ := exists_of_mapFault hfault
    obtain ⟨n, rfl⟩ := hint _ _ fault hthrown
    rfl

/-- If no call throws and the lines can be numbered, the task returns 0. -/
theorem mapTask_returns (h : job.MapReturns content m)
    (hd : acc.view d job.input = some content) :
    ((job.mapTask m).run acc d).1.outcome = .ok 0 := by
  rw [mapTask_outcome hd, h.mapFault_eq, mapOutcome, if_pos h.length_lt]

/-- A task that returns a code has numbered all lines, or has been thrown at by a call for a
line that can be numbered. There is no code for a counter that has overflowed. -/
theorem length_lt_of_mapTask {code : ℤ} (hd : acc.view d job.input = some content)
    (h : ((job.mapTask m).run acc d).1.outcome = .ok code) :
    (lines '\n' content).length < 2 ^ 31 ∨
      ∃ line ∈ (lines '\n' content).zipIdx, line.2 < 2 ^ 31 ∧
        lineOwner job.hashers job.nrMapper line = m ∧
        (job.iface.mapFn (toStr line.2) line.1).2 ≠ none := by
  rw [mapTask_outcome hd] at h
  cases hfault : job.mapFault content m with
  | none =>
    rw [hfault, mapOutcome] at h
    split at h
    · exact .inl ‹_›
    · cases h
  | some fault =>
    obtain ⟨line, hline, hlt, howner, hthrown⟩ := exists_of_mapFault hfault
    exact .inr ⟨line, hline, hlt, howner, by rw [hthrown]; exact Option.some_ne_none _⟩

/-- The code of a reduce task is 0 or -3, as its calls return or throw; -1 is not among them,
whichever files are missing. -/
theorem reduceTask_codes
    (hint : ∀ k vs fault, (job.iface.reduceFn k vs).2 = some fault → ∃ n, fault = .int n)
    (acc : Access Path) (d : Disk) (r : ℕ) :
    ((∀ e ∈ reducerEntries acc d job.outputResultDirectory job.nrMapper r,
        (job.iface.reduceFn e.1 e.2).2 = none) ∧
        ((job.reduceTask r).run acc d).1.outcome = .ok 0) ∨
      (∃ e ∈ reducerEntries acc d job.outputResultDirectory job.nrMapper r,
        (job.iface.reduceFn e.1 e.2).2 ≠ none) ∧
        ((job.reduceTask r).run acc d).1.outcome = .ok (-3) := by
  rw [reduceTask_outcome]
  cases hfault : job.reduceFault acc d r with
  | none => exact .inl ⟨List.findSome?_eq_none_iff.mp hfault, rfl⟩
  | some fault =>
    obtain ⟨e, he, hthrown⟩ := List.exists_of_findSome?_eq_some hfault
    obtain ⟨n, rfl⟩ := hint _ _ fault hthrown
    exact .inr ⟨⟨e, he, by rw [hthrown]; exact Option.some_ne_none _⟩, rfl⟩

end Codes

/-! ### Sequential runs

All tasks of a phase one after the other. Their order does not matter, and from the files that
the first phase leaves the second is as determined as the first is from the input. -/

/-- The map tasks of the given ids, one after the other. -/
def mapPhase (job : Job) (ms : List ℕ) (d : Disk) : List TaskResult × Disk :=
  FileProg.runAll .all (ms.map job.mapTask) d

/-- The reduce tasks of the given ids, one after the other. -/
def reducePhase (job : Job) (rs : List ℕ) (d : Disk) : List TaskResult × Disk :=
  FileProg.runAll .all (rs.map job.reduceTask) d

/-- Map tasks in any order leave their temp files and touch nothing else. -/
theorem mapPhase_eq (hapart : job.InputApart) {ms : List ℕ} (hms : ∀ m ∈ ms, m < job.nrMapper)
    (h : ∀ m ∈ ms, job.MapReturns content m) {d : Disk} (hd : d job.input = some content) :
    (job.mapPhase ms d).1 = ms.map (job.mapResult content) ∧
      (∀ m ∈ ms, ∀ r < job.nrReducer,
        (job.mapPhase ms d).2 (job.temp m r) =
          some (job.tempContent content m r)) ∧
      ∀ p, (∀ m ∈ ms, ∀ r < job.nrReducer, p ≠ job.temp m r) →
        (job.mapPhase ms d).2 p = d p := by
  induction ms generalizing d with
  | nil => simp [mapPhase, FileProg.runAll]
  | cons m ms ih =>
    obtain ⟨hres, htemps⟩ := run_mapTask (h m List.mem_cons_self) hd
    have hframe : ∀ p, (∀ r < job.nrReducer, p ≠ job.temp m r) →
        ((job.mapTask m).run .all d).2 p = d p := by
      intro p hp
      refine FileProg.run_frame (mapTask_within m) d fun hmem => ?_
      obtain ⟨r, hr, he⟩ := hmem
      exact hp r hr he
    have hd' : ((job.mapTask m).run .all d).2 job.input = some content := by
      rw [hframe _ (hapart.temp m (hms m List.mem_cons_self)), hd]
    obtain ⟨hress, htempss, hframes⟩ := ih (fun m' h' => hms m' (List.mem_cons_of_mem _ h'))
      (fun m' h' => h m' (List.mem_cons_of_mem _ h')) hd'
    simp only [mapPhase, List.map_cons, FileProg.runAll] at hress htempss hframes ⊢
    refine ⟨by rw [hres, hress], fun m' hm' r hr => ?_, fun p hp => ?_⟩
    · -- A temp file holds what the last run of its mapper wrote.
      by_cases hin : m' ∈ ms
      · exact htempss m' hin r hr
      · obtain rfl : m' = m := (List.mem_cons.mp hm').resolve_right hin
        have hout : ∀ m'' ∈ ms, ∀ r' < job.nrReducer, job.temp m' r ≠ job.temp m'' r' := by
          intro m'' h'' r' _ he
          obtain ⟨rfl, -⟩ := job.temp_inj.mp he
          exact hin h''
        rw [hframes _ hout, htemps r hr]
    · rw [hframes p fun m' h' => hp m' (List.mem_cons_of_mem _ h'),
        hframe p (hp m List.mem_cons_self)]

/-- Reduce tasks in any order leave their output files and touch nothing else. -/
theorem reducePhase_eq {rs : List ℕ} (h : ∀ r ∈ rs, job.ReduceReturns content r) {d : Disk}
    (hd : ∀ m < job.nrMapper, ∀ r ∈ rs, d (job.temp m r) = some (job.tempContent content m r)) :
    (job.reducePhase rs d).1 = rs.map (job.reduceResult content) ∧
      (∀ r ∈ rs, (job.reducePhase rs d).2 (job.output r) =
        some (job.outputContent content r)) ∧
      ∀ p, (∀ r ∈ rs, p ≠ job.output r) →
        (job.reducePhase rs d).2 p = d p := by
  induction rs generalizing d with
  | nil => simp [reducePhase, FileProg.runAll]
  | cons r rs ih =>
    have hrun := run_reduceTask (h r List.mem_cons_self) fun m hm => hd m hm r List.mem_cons_self
    have hd' : ∀ m < job.nrMapper, ∀ r' ∈ rs,
        Function.update d (job.output r) (some (job.outputContent content r)) (job.temp m r') =
          some (job.tempContent content m r') := fun m hm r' h' => by
      rw [Function.update_of_ne job.temp_ne_output, hd m hm r' (List.mem_cons_of_mem _ h')]
    obtain ⟨hress, houts, hframes⟩ := ih (fun r' h' => h r' (List.mem_cons_of_mem _ h')) hd'
    simp only [reducePhase, List.map_cons, FileProg.runAll, hrun] at hress houts hframes ⊢
    refine ⟨by rw [hress], fun r' hr' => ?_, fun p hp => ?_⟩
    · by_cases hin : r' ∈ rs
      · exact houts r' hin
      · obtain rfl : r' = r := (List.mem_cons.mp hr').resolve_right hin
        have hout : ∀ r'' ∈ rs, job.output r' ≠ job.output r'' := by
          intro r'' h'' he
          obtain rfl := job.output_inj.mp he
          exact hin h''
        rw [hframes _ hout, Function.update_self]
    · rw [hframes p fun r' h' => hp r' (List.mem_cons_of_mem _ h'),
        Function.update_of_ne (hp r List.mem_cons_self)]

/-- Reduce tasks do not disturb one another's results. -/
theorem reducePhase_fst (rs : List ℕ) (d : Disk) :
    (job.reducePhase rs d).1 = rs.map fun r => ((job.reduceTask r).run .all d).1 := by
  have hdisj : ∀ p ∈ {p | ∃ m r, p = job.temp m r}, p ∉ {p | ∃ r, p = job.output r} := by
    rintro p ⟨m, r, rfl⟩ ⟨r', he⟩
    exact job.temp_ne_output he
  have hwithin : ∀ q ∈ rs.map job.reduceTask,
      q.Within {p | ∃ m r, p = job.temp m r} {p | ∃ r, p = job.output r} := by
    intro q hq
    obtain ⟨r, -, rfl⟩ := List.mem_map.mp hq
    refine (reduceTask_within r).mono ?_ ?_
    · rintro p ⟨m, -, rfl⟩
      exact ⟨m, r, rfl⟩
    · rintro p rfl
      exact ⟨r, rfl⟩
  rw [reducePhase, FileProg.runAll_fst hdisj hwithin, List.map_map]
  rfl

/-- Map tasks do not disturb one another's results. -/
theorem mapPhase_fst (hapart : job.InputApart) {ms : List ℕ} (hms : ∀ m ∈ ms, m < job.nrMapper)
    (d : Disk) : (job.mapPhase ms d).1 = ms.map fun m => ((job.mapTask m).run .all d).1 := by
  have hdisj : ∀ p ∈ ({job.input} : Set Path),
      p ∉ {p | ∃ m < job.nrMapper, ∃ r < job.nrReducer, p = job.temp m r} := by
    rintro p rfl ⟨m, hm, r, hr, he⟩
    exact hapart.temp m hm r hr he
  have hwithin : ∀ q ∈ ms.map job.mapTask, q.Within {job.input}
      {p | ∃ m < job.nrMapper, ∃ r < job.nrReducer, p = job.temp m r} := by
    intro q hq
    obtain ⟨m, hm, rfl⟩ := List.mem_map.mp hq
    refine (mapTask_within m).mono subset_rfl ?_
    rintro p ⟨r, hr, rfl⟩
    exact ⟨m, hms m hm, r, hr, rfl⟩
  rw [mapPhase, FileProg.runAll_fst hdisj hwithin, List.map_map]
  rfl

/-- If all tasks return 0, no call of the map function has thrown. -/
theorem mapReturns_of_outcomes (hapart : job.InputApart) {ms : List ℕ}
    (hms : ms.Perm (List.range job.nrMapper)) {d : Disk} (hd : d job.input = some content)
    (h : ∀ t ∈ (job.mapPhase ms d).1, t.outcome = .ok 0) :
    ∀ m < job.nrMapper, job.MapReturns content m := by
  have hms' : ∀ m, m ∈ ms ↔ m < job.nrMapper := fun m => by rw [hms.mem_iff, List.mem_range]
  intro m hm
  refine mapReturns_of_outcome hd (h _ ?_)
  rw [mapPhase_fst hapart fun m hm => (hms' m).mp hm]
  exact List.mem_map_of_mem ((hms' m).mpr hm)

/-- If all tasks return 0, no call of the reduce function has thrown. -/
theorem reduceReturns_of_outcomes (hapart : job.InputApart) {ms rs : List ℕ}
    (hms : ms.Perm (List.range job.nrMapper)) (hrs : rs.Perm (List.range job.nrReducer))
    (hmap : ∀ m < job.nrMapper, job.MapReturns content m) {d : Disk}
    (hd : d job.input = some content)
    (h : ∀ t ∈ (job.reducePhase rs (job.mapPhase ms d).2).1, t.outcome = .ok 0) :
    ∀ r < job.nrReducer, job.ReduceReturns content r := by
  have hms' : ∀ m, m ∈ ms ↔ m < job.nrMapper := fun m => by rw [hms.mem_iff, List.mem_range]
  obtain ⟨-, htemps, -⟩ := mapPhase_eq hapart (fun m hm => (hms' m).mp hm)
    (fun m hm => hmap m ((hms' m).mp hm)) hd
  intro r hr
  refine reduceReturns_of_outcome (fun m hm => htemps m ((hms' m).mpr hm) r hr) (h _ ?_)
  rw [reducePhase_fst]
  exact List.mem_map_of_mem (hrs.mem_iff.mpr (List.mem_range.mpr hr))

/-- All map tasks and then all reduce tasks, each phase in any order: what they return, and what
all files hold at the end. -/
theorem phases_eq (hapart : job.InputApart) {ms rs : List ℕ}
    (hms : ms.Perm (List.range job.nrMapper)) (hrs : rs.Perm (List.range job.nrReducer))
    (hmap : ∀ m < job.nrMapper, job.MapReturns content m)
    (hreduce : ∀ r < job.nrReducer, job.ReduceReturns content r) {d : Disk}
    (hd : d job.input = some content) :
    (job.mapPhase ms d).1 = ms.map (job.mapResult content) ∧
      (job.reducePhase rs (job.mapPhase ms d).2).1 = rs.map (job.reduceResult content) ∧
      (∀ m < job.nrMapper, ∀ r < job.nrReducer,
        (job.reducePhase rs (job.mapPhase ms d).2).2 (job.temp m r) =
          some (job.tempContent content m r)) ∧
      ∀ r < job.nrReducer, (job.reducePhase rs (job.mapPhase ms d).2).2 (job.output r) =
        some (job.outputContent content r) := by
  have hms' : ∀ m, m ∈ ms ↔ m < job.nrMapper := fun m => by rw [hms.mem_iff, List.mem_range]
  have hrs' : ∀ r, r ∈ rs ↔ r < job.nrReducer := fun r => by rw [hrs.mem_iff, List.mem_range]
  obtain ⟨hmres, htemps, -⟩ := mapPhase_eq hapart (fun m hm => (hms' m).mp hm)
    (fun m hm => hmap m ((hms' m).mp hm)) hd
  obtain ⟨hrres, houts, hframe⟩ := reducePhase_eq (fun r hr => hreduce r ((hrs' r).mp hr))
    fun m hm r hr => htemps m ((hms' m).mpr hm) r ((hrs' r).mp hr)
  refine ⟨hmres, hrres, fun m hm r hr => ?_, fun r hr => houts r ((hrs' r).mpr hr)⟩
  rw [hframe _ fun r' _ => job.temp_ne_output, htemps m ((hms' m).mpr hm) r hr]

/-- All tasks of a run return 0 if no user function throws. -/
theorem outcomes_of_returns (hapart : job.InputApart) {ms rs : List ℕ}
    (hms : ms.Perm (List.range job.nrMapper)) (hrs : rs.Perm (List.range job.nrReducer))
    (hmap : ∀ m < job.nrMapper, job.MapReturns content m)
    (hreduce : ∀ r < job.nrReducer, job.ReduceReturns content r) {d : Disk}
    (hd : d job.input = some content) :
    ∀ t ∈ (job.mapPhase ms d).1 ++ (job.reducePhase rs (job.mapPhase ms d).2).1,
      t.outcome = .ok 0 := by
  obtain ⟨hmres, hrres, -, -⟩ := phases_eq hapart hms hrs hmap hreduce hd
  intro t ht
  rw [hmres, hrres] at ht
  rcases List.mem_append.mp ht with ht | ht
  · obtain ⟨m, -, rfl⟩ := List.mem_map.mp ht
    rfl
  · obtain ⟨r, -, rfl⟩ := List.mem_map.mp ht
    rfl

end Job

end MapReduceCpp
