import MapReduceCpp.Reference

/-!
# MapReduceCpp.Routing

What the mappers append to the temp files, for arbitrary emissions.

Nothing is assumed here of the emitted strings: this is the shuffle as the mappers
perform it, before any temp file is read back. Every pair goes to the file at an
index below the number of reducers, in the order of emission
(`mapTask_appends`); all files together hold every pair of a single pass over the
input once, and a key has all its pairs in one column of files
(`Job.shuffle_exact`).
-/

namespace MapReduceCpp

open InputStream ListPartition

variable {acc : Access Path} {dir : Str} {m r R : ℕ}

theorem openTempFiles_appends (p : Path) (rs : List ℕ) (d : Disk) :
    (openTempFiles dir m rs).appends acc p d = [] := by
  induction rs generalizing d with
  | nil => rfl
  | cons r rs ih =>
    have hopen : (ofstream (tempPath dir m r)).appends acc p d = [] := by
      simp only [ofstream, FileProg.createFile, FileProg.bind_eq, FileProg.appends_bind,
        FileProg.appends]
      split <;> rfl
    simp only [openTempFiles, FileProg.bind_eq, FileProg.appends_bind, hopen, ih,
      FileProg.pure_eq, FileProg.appends_done, List.append_nil]

theorem closeTempFiles_appends (p : Path) (files : List OFStream) (d : Disk) :
    (closeTempFiles files).appends acc p d = [] := by
  induction files generalizing d with
  | nil => rfl
  | cons file files ih =>
    have hclose : file.close.appends acc p d = [] := by
      unfold OFStream.close
      split <;> rfl
    simp only [closeTempFiles, FileProg.bind_eq, FileProg.appends_bind, hclose, ih,
      List.append_nil]

/-- The writing loop appends to a temp file the pairs routed to it, in order. -/
theorem writePairs_appends {H : Hashers} {reducerIdx : Str → ℤ} (hR : 0 < R)
    (hidx : ∀ elem : Str × Str, reducerIdx elem.1 = route H R elem)
    (pairs : List (Str × Str)) (d : Disk) :
    (writePairs reducerIdx (tempStreams dir m (List.range R)) pairs).appends acc
        (tempPath dir m r) d =
      (part (route H R) pairs r).map tempLine := by
  induction pairs generalizing d with
  | nil => rfl
  | cons elem rest ih =>
    have hlt : route H R elem < R := Nat.mod_lt _ hR
    have hfile : atIndex (tempStreams dir m (List.range R)) (reducerIdx elem.1) =
        some ⟨tempPath dir m (route H R elem), true⟩ := by
      rw [hidx, atIndex, if_neg (by omega), Int.toNat_natCast]
      simp [tempStreams, hlt]
    rw [writePairs, hfile]
    simp only [OFStream.put, if_true, FileProg.bind_eq, FileProg.appends_bind, ih,
      FileProg.appendFile, FileProg.appends, List.append_nil, tempPath_inj, true_and]
    by_cases h : route H R elem = r
    · rw [if_pos h, part, part, List.filter_cons_of_pos (by simpa using h)]
      rfl
    · rw [if_neg h, part, part, List.filter_cons_of_neg (by simpa using h)]
      rfl

namespace Job

variable {job : Job} {content : Str}

/-- A map task appends to each of its temp files the pairs routed to it, in order, and nothing
else: opening and closing append nothing. -/
theorem mapTask_appends {m r : ℕ} {d : Disk} (h : job.MapReturns content m)
    (hd : d job.input = some content) :
    (job.mapTask m).appends .all (job.temp m r) d = (job.routed content m r).map tempLine := by
  have hopen := @run_openTempFiles m job.outputResultDirectory .all (List.range job.nrReducer)
    (fun _ _ => rfl) d
  have hidx : ∀ elem : Str × Str, hashInRange job.hashers.string elem.1 job.nrReducer =
      route job.hashers job.nrReducer elem :=
    fun elem => hashInRange_eq job.hashers.string elem.1 job.nrReducer_pos job.nrReducer_lt
  have hread : (FileProg.readFile (inputPath job.outputResultDirectory job.inputFileName)).run
      .all d = (some content, d) := congrArg (fun o => (o, d)) hd
  have hwrite := @writePairs_appends .all job.outputResultDirectory m r job.nrReducer job.hashers
    (fun key => hashInRange job.hashers.string key job.nrReducer) job.nrReducer_pos hidx
    (job.emitted content m)
  -- Reading, opening and closing append nothing, so what is left is the writing of the pairs.
  rw [mapTask, mapControllerModule, FileProg.bind_eq, FileProg.appends_bind, hread]
  simp only [h.mapRecords, FileProg.bind_eq, FileProg.appends_bind, hopen.1,
    openTempFiles_appends, List.nil_append]
  have hlines : FileProg.appends .all (job.temp m r)
      (writePairs (fun key => hashInRange job.hashers.string key job.nrReducer)
        (tempStreams job.outputResultDirectory m (List.range job.nrReducer))
        (job.mapResult content m).object.emittedIntermediates)
      ((openTempFiles job.outputResultDirectory m (List.range job.nrReducer)).run .all d).2 =
        (job.routed content m r).map tempLine := hwrite _
  rw [hlines]
  split
  · exact List.append_nil _
  · simp only [FileProg.appends_bind, closeTempFiles_appends]
    exact List.append_nil _

/-- What a mapper emits for a reducer, in the terms of the input: the pairs of its own lines
whose key hashes to the reducer. -/
theorem routed_eq (m r : ℕ) :
    job.routed content m r =
      (((lines '\n' content).zipIdx.filter
        fun line => (job.hashers.int line.2).toNat % job.nrMapper = m).flatMap
          fun line => (job.iface.mapFn (toStr line.2) line.1).1).filter
            fun p => (job.hashers.string p.1).toNat % job.nrReducer = r := by
  rw [routed, emitted_eq]
  rfl

/-- The pairs in all temp files are the pairs of one pass over the input. -/
theorem routed_perm :
    ((List.range job.nrMapper).flatMap fun m =>
      (List.range job.nrReducer).flatMap (job.routed content m)).Perm
        (job.sequentialPairs content) := by
  have hrow : ∀ m ∈ List.range job.nrMapper,
      ((List.range job.nrReducer).flatMap (job.routed content m)).Perm (job.emitted content m) :=
    fun m _ => parts_perm fun p _ => Nat.mod_lt _ job.nrReducer_pos
  exact (List.Perm.flatMap_left _ hrow).trans pairs_perm

/-- The calls of all mappers are one call for each line. -/
theorem records_perm :
    ((List.range job.nrMapper).flatMap (job.records content)).Perm
      ((lines '\n' content).zipIdx.map record) := by
  have hlt : ∀ line ∈ (lines '\n' content).zipIdx,
      lineOwner job.hashers job.nrMapper line < job.nrMapper := fun line _ => lineOwner_lt line
  have hparts := parts_perm hlt
  have hmap := hparts.map record
  rwa [List.map_flatMap] at hmap

theorem record_injective {line line' : Str × ℕ} (h : record line = record line') : line = line' :=
  Prod.ext (congrArg Prod.snd h) (toStr_injective (congrArg Prod.fst h))

/-- A line is among the records of the mapper it hashes to, and of no other. -/
theorem record_mem_records {line : Str × ℕ} (h : line ∈ (lines '\n' content).zipIdx) (m : ℕ) :
    record line ∈ job.records content m ↔ lineOwner job.hashers job.nrMapper line = m := by
  rw [records, ownedRecords, List.mem_map]
  constructor
  · intro hmem
    obtain ⟨line', hline, he⟩ := hmem
    exact record_injective he ▸ (mem_part.mp hline).2
  · intro ho
    exact ⟨line, mem_part.mpr ⟨h, ho⟩, rfl⟩

/-- **The shuffle loses, doubles and splits nothing.** Every index into the temp
files is in range. On any disk with the input on it, a mapper appends to each of
its temp files exactly the pairs of its own lines whose key hashes to that file,
in order, and calls `map_fn` on its own lines. The files of all mappers together
hold the pairs of all lines, each line is mapped by exactly one mapper, and a key
occurs in the files of one reducer only. -/
theorem shuffle_exact (job : Job) (content : Str) (hlen : (lines '\n' content).length < 2 ^ 31)
    (hret : ∀ line ∈ (lines '\n' content).zipIdx,
      (job.iface.mapFn (toStr line.2) line.1).2 = none) :
    let written := fun m r => (((lines '\n' content).zipIdx.filter
      fun line => (job.hashers.int line.2).toNat % job.nrMapper = m).flatMap
        fun line => (job.iface.mapFn (toStr line.2) line.1).1).filter
          fun p => (job.hashers.string p.1).toNat % job.nrReducer = r
    (∀ key, 0 ≤ hashInRange job.hashers.string key job.nrReducer ∧
        hashInRange job.hashers.string key job.nrReducer < job.nrReducer) ∧
      (∀ m < job.nrMapper, ∀ r < job.nrReducer, ∀ d : Disk, d job.input = some content →
        (job.mapTask m).appends .all (job.temp m r) d = (written m r).map tempLine) ∧
      ((List.range job.nrMapper).flatMap fun m =>
        (List.range job.nrReducer).flatMap (written m)).Perm (job.sequentialPairs content) ∧
      (∀ d : Disk, d job.input = some content →
        ((List.range job.nrMapper).flatMap fun m =>
          ((job.mapTask m).run .all d).1.object.mapCalls).Perm
            ((lines '\n' content).zipIdx.map fun line => (toStr line.2, line.1)) ∧
        ∀ line ∈ (lines '\n' content).zipIdx, ∃! m, m < job.nrMapper ∧
          (toStr line.2, line.1) ∈ ((job.mapTask m).run .all d).1.object.mapCalls) ∧
      ∀ key, ∃ r < job.nrReducer, ∀ m < job.nrMapper, ∀ r' < job.nrReducer, ∀ v,
        (key, v) ∈ written m r' → r' = r := by
  intro written
  have hwritten : ∀ m, written m = job.routed content m :=
    fun m => funext fun r => (routed_eq m r).symm
  have hmret : ∀ m < job.nrMapper, job.MapReturns content m :=
    fun m hm => mapReturns_of_lines hlen hret hm
  have hcalls : ∀ d : Disk, d job.input = some content → ∀ m < job.nrMapper,
      ((job.mapTask m).run .all d).1.object.mapCalls = job.records content m := by
    intro d hd m hm
    rw [(run_mapTask (hmret m hm) hd).1]
    rfl
  -- Indices, the writes to one file, all files together, the calls, and the column of a key.
  refine ⟨fun key => ?_, fun m hm r _ d hd => ?_, ?_, fun d hd => ⟨?_, fun line hline => ?_⟩,
    fun key => ?_⟩
  · have hlt : (job.hashers.string key).toNat % job.nrReducer < job.nrReducer :=
      Nat.mod_lt _ job.nrReducer_pos
    rw [hashInRange_eq job.hashers.string key job.nrReducer_pos job.nrReducer_lt]
    omega
  · rw [hwritten]
    exact mapTask_appends (hmret m hm) hd
  · simp only [hwritten]
    exact routed_perm
  · rw [List.flatMap_congr fun m hm => hcalls d hd m (List.mem_range.mp hm)]
    exact records_perm
  · refine ⟨lineOwner job.hashers job.nrMapper line, ⟨lineOwner_lt line, ?_⟩, fun m hm => ?_⟩
    · rw [hcalls d hd _ (lineOwner_lt line)]
      exact (record_mem_records hline _).mpr rfl
    · obtain ⟨hlt, hmem⟩ := hm
      rw [hcalls d hd m hlt] at hmem
      exact ((record_mem_records hline m).mp hmem).symm
  · refine ⟨job.reducerOf key, reducerOf_lt key, fun m _ r' _ v hmem => ?_⟩
    exact (of_decide_eq_true (List.mem_filter.mp hmem).2).symm

theorem shuffle_exact_lineNumbers :
    (lineNumbers.mapTask 0).appends .all (lineNumbers.temp 0 0)
      (sampleDisk "aa\nb\naa\n".toList) = ["aa 0\n".toList, "aa 2\n".toList] := by
  obtain ⟨-, happend, -⟩ :=
    shuffle_exact lineNumbers "aa\nb\naa\n".toList (by decide) (by decide)
  exact (happend 0 (by decide) 0 (by decide) _ (sampleDisk_input _)).trans (by decide)

end Job

end MapReduceCpp
