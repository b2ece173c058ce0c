import MapReduceCpp.Reference

/-!
# MapReduceCpp.Errors

The error codes of the two controllers, against their comments.

A task that does not return 0 has changed no file (`Job.failed_task_clean`). The
codes themselves promise more than the controllers check. `read_text` reads a file
that cannot be opened as an empty one, so a reduce task reports missing temp files
only when none is missing (`Job.reduceReports_iff`), and the temp files a map task
opens are never tested, so its 0 means what it should only when they can all be
opened (`Job.mapReports_iff`).
-/

namespace MapReduceCpp

open InputStream

namespace Job

variable {job : Job} {acc : Access Path} {d : Disk} {idx : ℕ}

/-- **A failing task leaves the data directory as it was**, whatever it returns or
throws, and wherever in its loops. -/
theorem failed_task_clean (job : Job) (acc : Access Path) (d : Disk) (idx : ℕ) :
    (((job.mapTask idx).run acc d).1.outcome ≠ .ok 0 → ((job.mapTask idx).run acc d).2 = d) ∧
      (((job.reduceTask idx).run acc d).1.outcome ≠ .ok 0 →
        ((job.reduceTask idx).run acc d).2 = d) :=
  ⟨FileProg.run_clean (mapTask_cleanUnless idx), FileProg.run_clean (reduceTask_cleanUnless idx)⟩

/-- The input of two lines, the second of which makes `map_fn` throw, and the temp and
output file of an earlier run, of which the temp file has a key that makes `reduce_fn`
throw. -/
def pickyDisk : Disk := fun p =>
  if p = "data/in.txt".toList then some "a\nx\n".toList
  else if p = "data/temp_0_0.txt".toList then some "a 0\nx 1\n".toList
  else if p = "data/output_0.txt".toList then some "a 0 \n".toList
  else none

/-- Both tasks have emitted a pair or an entry before the throw, and leave the files of the
earlier run as they are. -/
theorem failed_task_clean_picky :
    ((picky 1 one_worker).mapTask 0).run .all pickyDisk =
        (⟨.ok (-2), (((picky 1 one_worker).mapTask 0).run .all pickyDisk).1.object⟩, pickyDisk) ∧
      (((picky 1 one_worker).mapTask 0).run .all pickyDisk).1.object.emittedIntermediates.length = 2 ∧
      ((picky 1 one_worker).reduceTask 0).run .all pickyDisk =
        (⟨.ok (-3), (((picky 1 one_worker).reduceTask 0).run .all pickyDisk).1.object⟩, pickyDisk) ∧
      (((picky 1 one_worker).reduceTask 0).run .all pickyDisk).1.object.emittedOutputs.length = 2 := by
  obtain ⟨hmap, hreduce⟩ := failed_task_clean (picky 1 one_worker) .all pickyDisk 0
  have hcode : (((picky 1 one_worker).mapTask 0).run .all pickyDisk).1.outcome = .ok (-2) := by
    decide +kernel
  have hcode' : (((picky 1 one_worker).reduceTask 0).run .all pickyDisk).1.outcome = .ok (-3) := by
    decide +kernel
  have hdisk := hmap (by rw [hcode]; decide)
  have hdisk' := hreduce (by rw [hcode']; decide)
  refine ⟨Prod.ext ?_ hdisk, by decide +kernel, Prod.ext ?_ hdisk', by decide +kernel⟩
  · rw [← hcode]
  · rw [← hcode']

/-! ### `reduce_controller_module`

The comment on the codes has -1 for a file or directory that is not present. The only code that
could return it is a handler for an `int` that `read_text` would have to throw, and `read_text`
throws nothing and tests nothing. -/

/-- The codes of a reduce task: -1 if one of its temp files cannot be read, another
code than 0 if it can read them all and `reduce_fn` throws, and 0 in no other case
than that it has read all of them and `reduce_fn` has returned for every key. -/
structure ReduceReports (job : Job) (acc : Access Path) (d : Disk) (r : ℕ) : Prop where
  missing : (∃ m < job.nrMapper, acc.view d (job.temp m r) = none) →
    ((job.reduceTask r).run acc d).1.outcome = .ok (-1)
  throws : (∀ m < job.nrMapper, acc.view d (job.temp m r) ≠ none) →
    (∃ e ∈ reducerEntries acc d job.outputResultDirectory job.nrMapper r,
      (job.iface.reduceFn e.1 e.2).2 ≠ none) →
    ∃ code, code ≠ 0 ∧ ((job.reduceTask r).run acc d).1.outcome = .ok code
  zero : ((job.reduceTask r).run acc d).1.outcome = .ok 0 ↔
    (∀ m < job.nrMapper, acc.view d (job.temp m r) ≠ none) ∧
      ∀ e ∈ reducerEntries acc d job.outputResultDirectory job.nrMapper r,
        (job.iface.reduceFn e.1 e.2).2 = none

/-- **A reduce task reports missing temp files only when none is missing.** -/
theorem reduceReports_iff (job : Job)
    (hint : ∀ k vs fault, (job.iface.reduceFn k vs).2 = some fault → ∃ n, fault = .int n)
    (acc : Access Path) (d : Disk) (r : ℕ) :
    job.ReduceReports acc d r ↔ ∀ m < job.nrMapper, acc.view d (job.temp m r) ≠ none := by
  constructor
  · -- The code is 0 or -3, whether files are missing or not.
    intro h m hm hnone
    -- With a file missing the comment asks for -1.
    have hmissing := h.missing ⟨m, hm, hnone⟩
    rcases reduceTask_codes hint acc d r with ⟨-, hout⟩ | ⟨-, hout⟩
    · rw [hout] at hmissing
      exact absurd (Except.ok.inj hmissing) (by omega)
    · rw [hout] at hmissing
      exact absurd (Except.ok.inj hmissing) (by omega)
  -- With all files read, the code depends on the calls alone, and so does what it should be.
  · intro hall
    refine ⟨fun hmiss => ?_, fun _ hthrow => ?_, ?_⟩
    · obtain ⟨m, hm, hnone⟩ := hmiss
      exact absurd hnone (hall m hm)
    · rcases reduceTask_codes hint acc d r with ⟨hret, -⟩ | ⟨-, hout⟩
      · obtain ⟨e, he, hne⟩ := hthrow
        exact absurd (hret e he) hne
      · exact ⟨-3, by omega, hout⟩
    · rcases reduceTask_codes hint acc d r with ⟨hret, hout⟩ | ⟨hthrow, hout⟩
      · exact ⟨fun _ => ⟨hall, hret⟩, fun _ => hout⟩
      · rw [hout]
        constructor
        · intro h
          exact absurd (Except.ok.inj h) (by omega)
        · intro h
          obtain ⟨e, he, hne⟩ := hthrow
          exact absurd (h.2 e he) hne

/-- With both temp files of a reducer on the disk, its code means what it should. -/
theorem reduceReports_iff_sample :
    lineNumbers.ReduceReports .all (fun _ => some "a 0\n".toList) 1 :=
  (reduceReports_iff lineNumbers (fun k vs fault h => by cases h) .all _ 1).mpr
    fun m _ h => by cases h

/-- In an empty directory a reduce task returns 0. -/
theorem reduceTask_ignores_missing : ¬ lineNumbers.ReduceReports .all (fun _ => none) 0 := by
  intro h
  have hmissing := h.missing ⟨0, by decide, rfl⟩
  have hzero : ((lineNumbers.reduceTask 0).run .all fun _ => none).1.outcome = .ok 0 := by decide
  rw [hzero] at hmissing
  exact absurd (Except.ok.inj hmissing) (by omega)

/-! ### `map_controller_module`

The comment has 0 for temp files that are produced successfully. The input stream is tested, the
output streams are not. -/

/-- The codes of a map task: it returns one, -1 if it cannot open the input, -2 if it can
and `map_fn` throws on a line of its own, and 0 only if it has opened all its temp files
and each holds the pairs routed to it. A task whose line counter overflows does not return
anything that could be relied on. -/
structure MapReports (job : Job) (acc : Access Path) (d : Disk) (m : ℕ) : Prop where
  returns : ∃ code, ((job.mapTask m).run acc d).1.outcome = .ok code
  missing : acc.view d job.input = none → ((job.mapTask m).run acc d).1.outcome = .ok (-1)
  throws : ∀ content, acc.view d job.input = some content →
    (∃ kv ∈ job.records content m, (job.iface.mapFn kv.1 kv.2).2 ≠ none) →
    ((job.mapTask m).run acc d).1.outcome = .ok (-2)
  zero : ((job.mapTask m).run acc d).1.outcome = .ok 0 →
    (∀ r < job.nrReducer, acc.canWrite (job.temp m r) = true) ∧
      ∃ content, acc.view d job.input = some content ∧ ∀ r < job.nrReducer,
        ((job.mapTask m).run acc d).2 (job.temp m r) = some (job.tempContent content m r)

/-- When the codes of a map task mean what they should: the input cannot be opened, or
`map_fn` throws on a line of the mapper that an `int` can number, or it throws on none
of its lines, these can all be numbered and every temp file can be opened. -/
def MapReportsWhen (job : Job) (acc : Access Path) (d : Disk) (m : ℕ) : Prop :=
  acc.view d job.input = none ∨ ∃ content, acc.view d job.input = some content ∧
    ((∃ line ∈ (lines '\n' content).zipIdx, line.2 < 2 ^ 31 ∧
        lineOwner job.hashers job.nrMapper line = m ∧
        (job.iface.mapFn (toStr line.2) line.1).2 ≠ none) ∨
      (∀ kv ∈ job.records content m, (job.iface.mapFn kv.1 kv.2).2 = none) ∧
        (lines '\n' content).length < 2 ^ 31 ∧
        ∀ r < job.nrReducer, acc.canWrite (job.temp m r) = true)

variable {m : ℕ} {content : Str}

/-- The records of the lines an `int` can number are all there are, if there are few. -/
theorem exists_line_of_record (hlen : (lines '\n' content).length < 2 ^ 31) {kv : Str × Str}
    (h : kv ∈ job.records content m) :
    ∃ line ∈ (lines '\n' content).zipIdx, line.2 < 2 ^ 31 ∧
      lineOwner job.hashers job.nrMapper line = m ∧ kv = record line := by
  obtain ⟨line, hline, rfl⟩ := List.mem_map.mp h
  obtain ⟨hmem, howner⟩ := ListPartition.mem_part.mp hline
  have hlt : line.2 < 0 + (lines '\n' content).length := List.snd_lt_add_of_mem_zipIdx hmem
  exact ⟨line, hmem, by omega, howner, rfl⟩

/-- A line of the mapper is one of its records. -/
theorem record_mem {line : Str × ℕ} (hline : line ∈ (lines '\n' content).zipIdx)
    (howner : lineOwner job.hashers job.nrMapper line = m) :
    record line ∈ job.records content m :=
  List.mem_map_of_mem (ListPartition.mem_part.mpr ⟨hline, howner⟩)

/-- **A map task's codes mean what they should exactly when** the input is missing,
`map_fn` throws on one of its lines, or it throws on none, the lines can be numbered and
all temp files of the task can be opened. -/
theorem mapReports_iff (job : Job)
    (hint : ∀ k v fault, (job.iface.mapFn k v).2 = some fault → ∃ n, fault = .int n)
    (acc : Access Path) (d : Disk) (m : ℕ) :
    job.MapReports acc d m ↔ job.MapReportsWhen acc d m := by
  constructor
  · intro h
    cases hd : acc.view d job.input with
    | none => exact .inl hd
    | some content =>
      refine .inr ⟨content, hd, ?_⟩
      by_cases hthrow : ∃ kv ∈ job.records content m, (job.iface.mapFn kv.1 kv.2).2 ≠ none
      · -- A task that returns has numbered its lines, or has thrown before it could not.
        left
        rcases length_lt_of_mapTask hd (h.throws content hd hthrow) with hlen | hline
        · obtain ⟨kv, hkv, hne⟩ := hthrow
          obtain ⟨line, hline, hlt, howner, rfl⟩ := exists_line_of_record hlen hkv
          exact ⟨line, hline, hlt, howner, hne⟩
        · exact hline
      · have hret : ∀ kv ∈ job.records content m, (job.iface.mapFn kv.1 kv.2).2 = none :=
          fun kv hkv => by_contra fun hne => hthrow ⟨kv, hkv, hne⟩
        -- A task that returns without a throw has numbered all lines.
        obtain ⟨code, hcode⟩ := h.returns
        have hlen : (lines '\n' content).length < 2 ^ 31 := by
          rcases length_lt_of_mapTask hd hcode with hlen | ⟨line, hline, -, howner, hne⟩
          · exact hlen
          · exact absurd (hret _ (record_mem hline howner)) hne
        -- It returns 0 whichever opens fail, so 0 means what it should only if none does.
        exact .inr ⟨hret, hlen, (h.zero (mapTask_returns ⟨hlen, hret⟩ hd)).1⟩
  · intro h
    rcases h with hnone | ⟨content, hd, ⟨line, hline, hlt, howner, hthrow⟩ | ⟨hret, hlen, hopen⟩⟩
    · have hout := mapTask_missing (m := m) hnone
      refine ⟨⟨-1, hout⟩, fun _ => hout, fun content hd _ => ?_, fun hzero => ?_⟩
      · rw [hnone] at hd
        cases hd
      · rw [hout] at hzero
        exact absurd (Except.ok.inj hzero) (by omega)
    · have hout := mapTask_throws hint hd hline hlt howner hthrow
      refine ⟨⟨-2, hout⟩, fun hnone => ?_, fun _ _ _ => hout, fun hzero => ?_⟩
      · rw [hd] at hnone
        cases hnone
      · rw [hout] at hzero
        exact absurd (Except.ok.inj hzero) (by omega)
    · have hmret : job.MapReturns content m := ⟨hlen, hret⟩
      refine ⟨⟨0, mapTask_returns hmret hd⟩, fun hnone => ?_, fun content' hd' hthrow => ?_,
        fun _ => ⟨hopen, content, hd, (run_mapControllerModule job.nrReducer_pos job.nrReducer_lt
          hopen hd hmret.mapRecords).2⟩⟩
      · rw [hd] at hnone
        cases hnone
      · obtain rfl := Option.some.inj (hd.symm.trans hd')
        obtain ⟨kv, hkv, hne⟩ := hthrow
        exact absurd (hret kv hkv) hne

/-- On a disk that can be written to, a mapper's code means what it should. -/
theorem mapReports_iff_sample :
    lineNumbers.MapReports .all (sampleDisk "aa\nb\n".toList) 0 := by
  have hd : sampleDisk "aa\nb\n".toList lineNumbers.input = some "aa\nb\n".toList :=
    sampleDisk_input _
  exact (mapReports_iff lineNumbers (fun k v fault h => by cases h) .all _ 0).mpr
    (.inr ⟨"aa\nb\n".toList, hd, .inr ⟨fun _ _ => rfl, by decide, fun _ _ => rfl⟩⟩)

/-- In a directory that can be read but not written to, a map task returns 0. -/
theorem mapTask_ignores_failed_opens :
    ¬ lineNumbers.MapReports ⟨fun _ => true, fun _ => false⟩ (sampleDisk []) 0 := by
  intro h
  have hzero : ((lineNumbers.mapTask 0).run ⟨fun _ => true, fun _ => false⟩
      (sampleDisk [])).1.outcome = .ok 0 := by decide
  have hopen := (h.zero hzero).1 0 (by decide)
  exact absurd hopen (by decide)

end Job

end MapReduceCpp
