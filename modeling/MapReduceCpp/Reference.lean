import MapReduceCpp.Job
import MapReduceCpp.Lib.Shuffle

/-!
# MapReduceCpp.Reference

A job against its sequential reference.

The temp files are a text encoding of key-value pairs that the reader inverts as
long as keys and values are words (`filePairs_tempText`). For such a job the
reducers see what the mappers emitted, routed by key, and every line of the input
is mapped by exactly one mapper. So over all reducers there is one call of the
reduce function for each key emitted anywhere, with the values of all mappers in
mapper order (`Job.entries_perm`), and those values are the values the key has in
a single pass over the input, rearranged (`Job.pairs_perm`).
-/

namespace MapReduceCpp

open InputStream Grouping ListPartition

/-! ### The temp file format

A pair is written as two fields on a line and read as two tokens of a stream. That is the same
for words, and the application has to see to it that it emits nothing else. -/

/-- A pair whose key and value survive the temp file. -/
def WordPair (p : Str × Str) : Prop := Word p.1 ∧ Word p.2

instance (p : Str × Str) : Decidable (WordPair p) :=
  inferInstanceAs (Decidable (Word p.1 ∧ Word p.2))

/-- The tokens of a temp file are its keys and values in turn. -/
theorem tokens_tempText {ps : List (Str × Str)} (h : ∀ p ∈ ps, WordPair p) :
    tokens isspace (tempText ps) = ps.flatMap fun p => [p.1, p.2] := by
  induction ps with
  | nil => simp [tempText]
  | cons p ps ih =>
    have hp : WordPair p := h p List.mem_cons_self
    have hline : tempText (p :: ps) = p.1 ++ ' ' :: (p.2 ++ '\n' :: tempText ps) := by
      simp [tempText, tempLine]
    rw [hline, tokens_word_append_cons hp.1 _ isspace_space,
      tokens_word_append_cons hp.2 _ isspace_newline,
      ih fun q hq => h q (List.mem_cons_of_mem _ hq)]
    rfl

theorem pairUp_flatMap (ps : List (Str × Str)) : pairUp (ps.flatMap fun p => [p.1, p.2]) = ps := by
  induction ps with
  | nil => rfl
  | cons p ps ih => simp [pairUp, ih]

/-- Reading a temp file of words gives back the pairs written to it. -/
theorem filePairs_tempText {ps : List (Str × Str)} (h : ∀ p ∈ ps, WordPair p) :
    filePairs (some (tempText ps)) = ps := by
  rw [filePairs, Option.getD_some, tokens_tempText h, pairUp_flatMap]

theorem mem_of_mem_pairUp {α : Type} {xs : List α} {p : α × α} (h : p ∈ pairUp xs) :
    p.1 ∈ xs ∧ p.2 ∈ xs := by
  induction xs using pairUp.induct with
  | case1 a b rest ih =>
    rw [pairUp] at h
    rcases List.mem_cons.mp h with rfl | h
    · simp
    · simp [ih h]
  | case2 xs hshort => simp [pairUp.eq_2 xs hshort] at h

/-- Whatever a temp file holds, only words are read from it. -/
theorem wordPair_of_mem_filePairs {file : Option Str} {p : Str × Str} (h : p ∈ filePairs file) :
    WordPair p :=
  ⟨isWord_of_mem_tokens (mem_of_mem_pairUp h).1, isWord_of_mem_tokens (mem_of_mem_pairUp h).2⟩

namespace Job

variable (job : Job) (content : Str)

/-- What all mappers emit, mapper by mapper. -/
def pairs : List (Str × Str) := (List.range job.nrMapper).flatMap (job.emitted content)

/-- What `map_fn` emits in one pass over the input, without any distribution of the lines. -/
def sequentialPairs : List (Str × Str) :=
  (lines '\n' content).zipIdx.flatMap fun line =>
    (job.iface.mapFn (toStr line.2) line.1).1

/-- The mappers emit only words. -/
def EmitsWords : Prop := ∀ p ∈ job.sequentialPairs content, WordPair p

variable {job content}

theorem lineOwner_lt (line : Str × ℕ) : lineOwner job.hashers job.nrMapper line < job.nrMapper :=
  Nat.mod_lt _ job.nrMapper_pos

theorem emitted_eq (m : ℕ) :
    job.emitted content m =
      (part (lineOwner job.hashers job.nrMapper) (lines '\n' content).zipIdx m).flatMap fun line =>
        (job.iface.mapFn (toStr line.2) line.1).1 := by
  simp [emitted, records, ownedRecords, record, List.flatMap_map]

/-- Every line is mapped once: the mappers together emit what one pass emits. -/
theorem pairs_perm : (job.pairs content).Perm (job.sequentialPairs content) := by
  rw [pairs, List.flatMap_congr fun m _ => emitted_eq m]
  exact flatMap_parts_perm (fun line _ => lineOwner_lt line) _

/-- The records of all mappers are the lines of the input. -/
theorem mem_records {kv : Str × Str} :
    (∃ m < job.nrMapper, kv ∈ job.records content m) ↔
      ∃ line ∈ (lines '\n' content).zipIdx, kv = record line := by
  simp only [records, ownedRecords, List.mem_map]
  constructor
  · rintro ⟨m, -, line, hline, rfl⟩
    exact ⟨line, (mem_part.mp hline).1, rfl⟩
  · rintro ⟨line, hline, rfl⟩
    exact ⟨_, lineOwner_lt line, line, mem_part.mpr ⟨hline, rfl⟩, rfl⟩

theorem EmitsWords.emitted (h : job.EmitsWords content) {m : ℕ} (hm : m < job.nrMapper) :
    ∀ p ∈ job.emitted content m, WordPair p :=
  fun p hp => h p (pairs_perm.mem_iff.mp
    (List.mem_flatMap.mpr ⟨m, List.mem_range.mpr hm, hp⟩))

/-- Reading the temp files back gives the pairs written to them that pass a test. The test is
for applications that emit pairs the format loses without harm to the others. -/
def ReadsBack (job : Job) (content : Str) (keep : Str × Str → Bool) : Prop :=
  ∀ m < job.nrMapper, ∀ r < job.nrReducer,
    filePairs (some (job.tempContent content m r)) = (job.routed content m r).filter keep

theorem EmitsWords.readsBack (h : job.EmitsWords content) :
    job.ReadsBack content fun _ => true := by
  intro m hm r _
  have hwords : ∀ p ∈ job.routed content m r, WordPair p :=
    fun p hp => h.emitted hm p (mem_part.mp hp).1
  rw [tempContent, filePairs_tempText hwords, List.filter_true]

/-- The reducer of a key. -/
def reducerOf (job : Job) (key : Str) : ℕ := (job.hashers.string key).toNat % job.nrReducer

theorem reducerOf_lt (key : Str) : job.reducerOf key < job.nrReducer :=
  Nat.mod_lt _ job.nrReducer_pos

variable {keep : Str × Str → Bool}

/-- What a reducer reads is what was emitted for it. -/
theorem shuffled_eq (h : job.ReadsBack content keep) {r : ℕ} (hr : r < job.nrReducer) :
    job.shuffled content r =
      Shuffle.routed job.reducerOf ((job.pairs content).filter keep) r := by
  have hread : ∀ m ∈ List.range job.nrMapper,
      filePairs (some (job.tempContent content m r)) =
        ((job.emitted content m).filter keep).filter fun p => job.reducerOf p.1 = r :=
    fun m hm => by
      rw [h m (List.mem_range.mp hm) r hr, routed, part, List.filter_comm]
      rfl
  rw [shuffled, List.flatMap_congr hread, Shuffle.routed, pairs, part, List.filter_flatMap,
    List.filter_flatMap]

theorem entries_eq (h : job.ReadsBack content keep) {r : ℕ} (hr : r < job.nrReducer) :
    job.entries content r =
      Shuffle.entries job.reducerOf ((job.pairs content).filter keep) r := by
  rw [entries, shuffled_eq h hr, Shuffle.entries]

/-- The reducers together have one entry for each emitted key, with the values of all mappers in
mapper order. Which reducer has it depends on the hash of the key. -/
theorem entries_perm (h : job.ReadsBack content keep) :
    ((List.range job.nrReducer).flatMap (job.entries content)).Perm
      (Shuffle.reference ((job.pairs content).filter keep)) := by
  rw [List.flatMap_congr fun r hr => entries_eq h (List.mem_range.mp hr)]
  exact Shuffle.shuffle_perm fun k _ => reducerOf_lt k

/-- The keys and values of a reducer are words. -/
theorem words_of_mem_entries {r : ℕ} {e : Str × List Str} (h : e ∈ job.entries content r) :
    Word e.1 ∧ ∀ v ∈ e.2, Word v := by
  obtain ⟨k, vs⟩ := e
  have hshuffled : ∀ p ∈ job.shuffled content r, WordPair p := by
    intro p hp
    obtain ⟨m, -, hp⟩ := List.mem_flatMap.mp hp
    exact wordPair_of_mem_filePairs hp
  obtain ⟨hk, rfl⟩ := (groups_ofPairs _).mem_toList.mp h
  obtain ⟨p, hp, rfl⟩ := List.mem_map.mp hk
  exact ⟨(hshuffled p hp).1, fun v hv => (hshuffled _ (mem_valuesOf.mp hv)).2⟩

/-- The entries of a reducer hold the pairs it reads. -/
theorem flatten_entries_perm (r : ℕ) :
    (flatten (job.entries content r)).Perm (job.shuffled content r) :=
  perm_of_valuesOf fun k => by rw [entries, (groups_ofPairs _).valuesOf_flatten]

/-- The entries of all reducers hold the pairs read by any of them. -/
theorem flatten_flatMap_entries_perm (rs : List ℕ) :
    (flatten (rs.flatMap (job.entries content))).Perm (rs.flatMap (job.shuffled content)) := by
  rw [flatten, List.flatMap_assoc]
  exact List.Perm.flatMap_left _ fun r _ => flatten_entries_perm r

/-- The pairs read by all reducers are the pairs that are read back. -/
theorem shuffled_perm (h : job.ReadsBack content keep) :
    ((List.range job.nrReducer).flatMap (job.shuffled content)).Perm
      ((job.pairs content).filter keep) := by
  rw [List.flatMap_congr fun r hr => shuffled_eq h (List.mem_range.mp hr)]
  exact parts_perm fun p _ => reducerOf_lt p.1

/-- The values of a key, mapper by mapper. -/
theorem valuesOf_pairs (k : Str) :
    valuesOf k (job.pairs content) =
      (List.range job.nrMapper).flatMap fun m =>
        ((lines '\n' content).zipIdx.filter
          fun line => (job.hashers.int line.2).toNat % job.nrMapper = m).flatMap fun line =>
            valuesOf k (job.iface.mapFn (toStr line.2) line.1).1 := by
  rw [pairs, valuesOf_flatMap]
  refine List.flatMap_congr fun m _ => ?_
  rw [emitted_eq, valuesOf_flatMap]
  rfl

/-- A map task returns if `map_fn` throws on no line of the input. -/
theorem mapReturns_of_lines (hlen : (lines '\n' content).length < 2 ^ 31)
    (h : ∀ line ∈ (lines '\n' content).zipIdx,
      (job.iface.mapFn (toStr line.2) line.1).2 = none) {m : ℕ} (hm : m < job.nrMapper) :
    job.MapReturns content m where
  length_lt := hlen
  returns := fun kv hkv => by
    obtain ⟨line, hline, rfl⟩ := mem_records.mp ⟨m, hm, hkv⟩
    exact h line hline

/-- **The controllers compute the job.** Whatever the two hash functions and the
order of the tasks within a phase, the reducers together call `reduce_fn` exactly
once for each key that a line of the input emits, with the values that mapper 0's
lines emit for it, then those of mapper 1's lines, and so on; the keys of one
reducer are those that hash to it, in increasing order, and its output file holds
what the calls emitted. -/
theorem controllers_correct (job : Job) (content : Str) (d : Disk) (hapart : job.InputApart)
    (hd : d job.input = some content) (hlen : (lines '\n' content).length < 2 ^ 31)
    (hmap : ∀ line ∈ (lines '\n' content).zipIdx,
      (job.iface.mapFn (toStr line.2) line.1).2 = none ∧
        ∀ p ∈ (job.iface.mapFn (toStr line.2) line.1).1, WordPair p)
    (hreduce : ∀ k vs, (job.iface.reduceFn k vs).2 = none) {ms rs : List ℕ}
    (hms : ms.Perm (List.range job.nrMapper)) (hrs : rs.Perm (List.range job.nrReducer)) :
    let maps := job.mapPhase ms d
    let reduces := job.reducePhase rs maps.2
    let calls := reduces.1.flatMap fun t => t.object.reduceCalls
    (∀ t ∈ maps.1 ++ reduces.1, t.outcome = .ok 0) ∧
      (calls.map Prod.fst).Nodup ∧
      (∀ k, k ∈ calls.map Prod.fst ↔ ∃ line ∈ (lines '\n' content).zipIdx,
        k ∈ (job.iface.mapFn (toStr line.2) line.1).1.map Prod.fst) ∧
      (∀ k vs, (k, vs) ∈ calls → vs = (List.range job.nrMapper).flatMap fun m =>
        ((lines '\n' content).zipIdx.filter
          fun line => (job.hashers.int line.2).toNat % job.nrMapper = m).flatMap fun line =>
            valuesOf k (job.iface.mapFn (toStr line.2) line.1).1) ∧
      ∀ task ∈ rs.zip reduces.1,
        (∀ e ∈ task.2.object.reduceCalls,
          (job.hashers.string e.1).toNat % job.nrReducer = task.1) ∧
        task.2.object.reduceCalls.Pairwise (fun e e' => compare e.1 e'.1 = .lt) ∧
        reduces.2 (job.output task.1) = some (entriesText
          (task.2.object.reduceCalls.flatMap fun e => (job.iface.reduceFn e.1 e.2).1)) := by
  intro maps reduces calls
  have hwords : job.EmitsWords content := by
    intro p hp
    obtain ⟨line, hline, hp⟩ := List.mem_flatMap.mp hp
    exact (hmap line hline).2 p hp
  have hback := hwords.readsBack
  -- No task fails, so the files of both phases are those of the reference.
  have hmret : ∀ m < job.nrMapper, job.MapReturns content m := fun m hm =>
    mapReturns_of_lines hlen (fun line hline => (hmap line hline).1) hm
  obtain ⟨-, hrres, -, houts⟩ :=
    phases_eq hapart hms hrs hmret (fun r _ e _ => hreduce e.1 e.2) hd
  -- All calls together are those of the reference, in another order of the keys.
  have hcalls : calls.Perm (Shuffle.reference (job.pairs content)) := by
    have hflat : calls = rs.flatMap (job.entries content) := by
      simp only [calls, reduces, maps, hrres, List.flatMap_map]
      rfl
    have hperm := (hrs.flatMap_right (job.entries content)).trans (entries_perm hback)
    rwa [List.filter_true, ← hflat] at hperm
  have hkeys : (calls.map Prod.fst).Perm ((job.pairs content).map Prod.fst).dedup := by
    rw [← Shuffle.reference_keys]
    exact hcalls.map _
  refine ⟨outcomes_of_returns hapart hms hrs hmret (fun r _ e _ => hreduce e.1 e.2) hd,
    hkeys.nodup_iff.mpr (List.nodup_dedup _), fun k => ?_, fun k vs hmem => ?_, ?_⟩
  · rw [hkeys.mem_iff, List.mem_dedup, (pairs_perm.map _).mem_iff, sequentialPairs]
    simp only [List.map_flatMap, List.mem_flatMap]
  · rw [← valuesOf_pairs]
    exact (Shuffle.mem_reference.mp (hcalls.mem_iff.mp hmem)).2
  -- The call histories of the tasks, which are in the order of `rs`, one by one.
  · rintro ⟨r, t⟩ htask
    rw [hrres, ← List.map_prod_left_eq_zip] at htask
    obtain ⟨r', hr', heq⟩ := List.mem_map.mp htask
    obtain ⟨rfl, rfl⟩ := Prod.mk.inj heq
    have hr : r' < job.nrReducer := List.mem_range.mp (hrs.mem_iff.mp hr')
    refine ⟨fun e he => ?_, Std.ExtTreeMap.ordered_keys_toList, houts r' hr⟩
    have hentry : e ∈ job.entries content r' := he
    rw [entries_eq hback hr] at hentry
    exact (Shuffle.mem_entries.mp hentry).1

/-- A job with as many mappers as reducers. -/
def sampleJob (hashers : Hashers) (iface : MapReduceInterface) (n : ℕ)
    (hn : 0 < n ∧ n < 2 ^ 31) : Job where
  inputFileName := "in.txt".toList
  outputResultDirectory := "data".toList
  nrMapper := n
  nrReducer := n
  nrMapper_pos := hn.1
  nrMapper_lt := hn.2
  nrReducer_pos := hn.1
  nrReducer_lt := hn.2
  hashers := hashers
  iface := iface

theorem two_workers : 0 < 2 ∧ 2 < 2 ^ 31 := by omega

/-- A disk with an input file and a temp file of an earlier run. -/
def sampleDisk (content : Str) : Disk := fun p =>
  if p = "data/in.txt".toList then some content
  else if p = "data/temp_0_1.txt".toList then some "stale stale\n".toList
  else none

section SampleJob

variable {hashers : Hashers} {iface : MapReduceInterface} {n : ℕ} {hn : 0 < n ∧ n < 2 ^ 31}

@[simp] theorem sampleJob_nrMapper : (sampleJob hashers iface n hn).nrMapper = n := rfl
@[simp] theorem sampleJob_nrReducer : (sampleJob hashers iface n hn).nrReducer = n := rfl
@[simp] theorem sampleJob_hashers : (sampleJob hashers iface n hn).hashers = hashers := rfl

theorem sampleJob_input :
    (sampleJob hashers iface n hn).input = inputPath "data".toList "in.txt".toList := rfl

theorem sampleJob_temp (m r : ℕ) :
    (sampleJob hashers iface n hn).temp m r = tempPath "data".toList m r := rfl

theorem sampleJob_output (r : ℕ) :
    (sampleJob hashers iface n hn).output r = outputPath "data".toList r := rfl

theorem sampleJob_inputApart : (sampleJob hashers iface n hn).InputApart where
  temp := by
    intro m _ r _ h
    rw [sampleJob_input, sampleJob_temp] at h
    simp only [inputPath, tempPath, List.append_assoc] at h
    exact absurd (letter_of_path h) (by decide)
  output := by
    intro r _ h
    rw [sampleJob_input, sampleJob_output] at h
    simp only [inputPath, outputPath, List.append_assoc] at h
    exact absurd (letter_of_path h) (by decide)

theorem sampleDisk_input (content : Str) :
    sampleDisk content (sampleJob hashers iface n hn).input = some content :=
  if_pos (show inputPath "data".toList "in.txt".toList = "data/in.txt".toList by decide)

end SampleJob

/-- An application that lists the numbers of every line, with two workers. -/
def lineNumbers : Job :=
  sampleJob ⟨fun n => n.natAbs.toUInt64, fun s => s.length.toUInt64⟩
    ⟨fun k v => ([(v, k)], none), fun k vs => ([(k, vs)], none)⟩ 2 two_workers

/-- Three lines, of which the first of two workers gets two. -/
def sampleLines : Str := "aa\nb\naa\n".toList

theorem one_worker : 0 < 1 ∧ 1 < 2 ^ 31 := by omega

/-- The same application with one worker. -/
def oneWorker : Job := sampleJob lineNumbers.hashers lineNumbers.iface 1 one_worker

/-- The same application again, whose functions throw an `int` behind what they emit for the
line and for the key `x`. -/
def picky (n : ℕ) (hn : 0 < n ∧ n < 2 ^ 31) : Job :=
  sampleJob lineNumbers.hashers
    ⟨fun k v => ([(v, k)], if v = "x".toList then some (.int 7) else none),
      fun k vs => ([(k, vs)], if k = "x".toList then some (.int 7) else none)⟩ n hn

theorem controllers_correct_lineNumbers :
    let calls := (lineNumbers.reducePhase [1, 0]
      (lineNumbers.mapPhase [1, 0] (sampleDisk "aa\nb\naa\n".toList)).2).1.flatMap
        fun t => t.object.reduceCalls
    ("aa".toList, ["0".toList, "2".toList]) ∈ calls ∧ (calls.map Prod.fst).Nodup := by
  intro calls
  obtain ⟨-, hnodup, hkeys, hvalues, -⟩ := controllers_correct lineNumbers "aa\nb\naa\n".toList
    (sampleDisk "aa\nb\naa\n".toList) sampleJob_inputApart (sampleDisk_input _) (by decide)
    (by decide) (fun _ _ => rfl) (show [1, 0].Perm (List.range 2) by decide)
    (show [1, 0].Perm (List.range 2) by decide)
  obtain ⟨⟨k, vs⟩, hmem, rfl⟩ :=
    List.mem_map.mp ((hkeys "aa".toList).mpr ⟨("aa".toList, 0), by decide, by decide⟩)
  obtain rfl : vs = ["0".toList, "2".toList] := (hvalues _ _ hmem).trans (by decide)
  exact ⟨hmem, hnodup⟩

end Job

end MapReduceCpp
