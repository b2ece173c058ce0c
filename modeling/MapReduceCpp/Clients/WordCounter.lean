import MapReduceCpp.Clients

/-!
# MapReduceCpp.Clients.WordCounter

`WordCounter.cpp` counts the words of its input exactly.

One pass over the input emits `(w, "1")` for each of its tokens, line breaks being
white space like any other, so the values of a word are as many copies of `"1"` as
it has occurrences, in whichever order the mappers are gone through. Summing them
stays within `int` and parses nothing but `"1"`, as long as no word occurs `2^31`
times.
-/

namespace MapReduceCpp

open InputStream Grouping

namespace WordCounter

/-- `WordCounterMapReduce::map_fn`. -/
def mapFn (_key value : Str) : List (Str × Str) × Option Fault :=
  ((readWords value).map fun word => (word, "1".toList), none)

/-- `count += stoi(value)`. Both can end the call: `stoi` with an exception, and the sum by
leaving the range. -/
def addCount (count : ℤ) (value : Str) : Except Fault ℤ := do
  let n ← stoi value
  intAdd count n

/-- `WordCounterMapReduce::reduce_fn`. It emits once, behind the loop, so a call that fails has
emitted nothing. -/
def reduceFn (key : Str) (values : List Str) : List (Str × List Str) × Option Fault :=
  match forValues addCount values 0 0 with
  | .ok count => ([(key, [toStr count])], none)
  | .error fault => ([], some fault)

/-- `WordCounterMapReduce`. -/
def iface : MapReduceInterface := ⟨mapFn, reduceFn⟩

/-- Summing up copies of `"1"` counts them, from any count that leaves room. -/
theorem foldlM_addCount {n : ℕ} {c : ℕ} (h : c + n < 2 ^ 31) :
    (List.replicate n "1".toList).foldlM addCount (c : ℤ) = .ok ((c + n : ℕ) : ℤ) := by
  induction n generalizing c with
  | zero => rfl
  | succ n ih =>
    have hparse : stoi "1".toList = .ok 1 := by decide
    have hadd : intAdd c 1 = .ok ((c + 1 : ℕ) : ℤ) := intAdd_ok ⟨by omega, by omega⟩
    have hstep : addCount c "1".toList = .ok ((c + 1 : ℕ) : ℤ) := by
      rw [addCount, hparse, ok_bind, hadd]
    rw [List.replicate_succ, List.foldlM_cons, hstep, ok_bind, ih (by omega), Nat.add_right_comm,
      Nat.add_assoc]

theorem reduceFn_replicate (key : Str) {n : ℕ} (h : n < 2 ^ 31) :
    reduceFn key (List.replicate n "1".toList) = ([(key, [toStr n])], none) := by
  have hloop : forValues addCount (List.replicate n "1".toList) (0 : ℕ) (0 : ℕ) = .ok (n : ℤ) := by
    rw [forValues_eq_foldlM _ (by simpa using h), foldlM_addCount (by simpa using h)]
    simp
  rw [reduceFn]
  simp only [Nat.cast_zero] at hloop
  rw [hloop]

theorem valuesOf_map_one (w : Str) (ws : List Str) :
    valuesOf w (ws.map fun word => (word, "1".toList)) =
      List.replicate (ws.count w) "1".toList := by
  induction ws with
  | nil => rfl
  | cons x xs ih =>
    rw [List.map_cons, valuesOf_cons, ih, List.count_cons]
    by_cases h : x = w
    · simp [h, List.replicate_succ]
    · simp [h]

variable {job : Job} {content : Str}

/-- One pass emits a pair for each token of the input. -/
theorem sequentialPairs_eq (hjob : job.iface = iface) :
    job.sequentialPairs content =
      (tokens isspace content).map fun word => (word, "1".toList) := by
  have hfst : (lines '\n' content).zipIdx.map Prod.fst = lines '\n' content := List.zipIdx_map_fst ..
  rw [Job.sequentialPairs, hjob]
  simp only [iface, mapFn, readWords_eq]
  rw [← List.map_flatMap, ← List.flatMap_map, hfst, flatMap_tokens_lines isspace_newline]

theorem emitsWords (hjob : job.iface = iface) : job.EmitsWords content := by
  intro p hp
  rw [sequentialPairs_eq hjob] at hp
  obtain ⟨w, hw, rfl⟩ := List.mem_map.mp hp
  exact ⟨isWord_of_mem_tokens hw, show Word "1".toList by decide⟩

/-- A word is reduced to the number of its occurrences: its values are as many copies of
`"1"`, in whichever order they come. -/
theorem reduceFn_pairs (hjob : job.iface = iface)
    (hcount : ∀ w, (tokens isspace content).count w < 2 ^ 31) (k : Str) (vs : List Str)
    (hmem : (k, vs) ∈ Shuffle.reference (job.pairs content)) :
    job.iface.reduceFn k vs = ([(k, [toStr ((tokens isspace content).count k)])], none) := by
  have hperm : vs.Perm (List.replicate ((tokens isspace content).count k) "1".toList) := by
    rw [(Shuffle.mem_reference.mp hmem).2, ← valuesOf_map_one, ← sequentialPairs_eq hjob]
    exact Job.pairs_perm.filterMap _
  rw [List.perm_replicate.mp hperm, hjob]
  exact reduceFn_replicate k (hcount k)

end WordCounter

open WordCounter in
/-- **WordCounter is exact.** All tasks return 0, so the count never overflows and
`stoi` never throws, and the output files together hold one line for each token of
the input, with its number of occurrences. -/
theorem wordCounter_exact (job : Job) (hjob : job.iface = WordCounter.iface) (content : Str)
    (d : Disk) (hapart : job.InputApart) (hd : d job.input = some content)
    (hlen : (lines '\n' content).length < 2 ^ 31)
    (hcount : ∀ w, (tokens isspace content).count w < 2 ^ 31) {ms rs : List ℕ}
    (hms : ms.Perm (List.range job.nrMapper)) (hrs : rs.Perm (List.range job.nrReducer)) :
    let maps := job.mapPhase ms d
    let reduces := job.reducePhase rs maps.2
    (∀ t ∈ maps.1 ++ reduces.1, t.outcome = .ok 0) ∧
      ∃ texts : ℕ → Str, (∀ r < job.nrReducer, reduces.2 (job.output r) = some (texts r)) ∧
        ((List.range job.nrReducer).flatMap fun r => lines '\n' (texts r)).Perm
          ((tokens isspace content).dedup.map fun w =>
            w ++ " ".toList ++ toStr ((tokens isspace content).count w) ++ " ".toList) := by
  intro maps reduces
  have hkeys : (job.sequentialPairs content).map Prod.fst = tokens isspace content := by
    simp [sequentialPairs_eq hjob, Function.comp_def]
  have hmap : ∀ m < job.nrMapper, job.MapReturns content m := fun m hm =>
    Job.mapReturns_of_lines hlen (fun line _ => by rw [hjob]; rfl) hm
  obtain ⟨houtcomes, texts, htexts, hperm⟩ := Job.run_lines hapart hms hrs hmap (emitsWords hjob)
    (reduceFn_pairs hjob hcount) (fun k _ v hv => by
      rw [List.mem_singleton.mp hv]
      exact (word_toStr _).newline_not_mem) hd
  refine ⟨houtcomes, texts, htexts, ?_⟩
  rw [hkeys] at hperm
  simpa [entryLine] using hperm

namespace WordCounter

/-- With `2^31` copies of `"1"` or more the sum overflows. -/
theorem reduceFn_overflow (key : Str) {n : ℕ} (h : 2 ^ 31 ≤ n) :
    (reduceFn key (List.replicate n "1".toList)).2 = some .undefined := by
  -- The count is as large as the index, so it does so first.
  have hloop : ∀ (k c : ℕ), c < 2 ^ 31 → 2 ^ 31 ≤ c + k →
      forValues addCount (List.replicate k "1".toList) c c = .error .undefined := by
    intro k
    induction k with
    | zero =>
      intro c hc hk
      omega
    | succ k ih =>
      intro c hc hk
      have hparse : stoi "1".toList = .ok 1 := by decide
      rw [List.replicate_succ, forValues, addCount, hparse, ok_bind]
      by_cases hlast : c + 1 < 2 ^ 31
      · have hadd : intAdd c 1 = .ok ((c + 1 : ℕ) : ℤ) := intAdd_ok ⟨by omega, by push_cast; omega⟩
        rw [hadd, ok_bind, ok_bind]
        exact ih (c + 1) hlast (by omega)
      · have hadd : intAdd c 1 = .error .undefined :=
          if_neg fun hin => hlast (by have := hin.2; omega)
        rw [hadd, error_bind]
  have hzero := hloop n 0 (by omega) (by omega)
  simp only [Nat.cast_zero] at hzero
  rw [reduceFn, hzero]

end WordCounter

/-- Two word counting workers. -/
def WordCounter.sampleJob : Job :=
  Job.sampleJob ⟨fun n => n.natAbs.toUInt64, fun s => s.length.toUInt64⟩ WordCounter.iface 2
    Job.two_workers

theorem wordCounter_exact_sample :
    ∃ texts : ℕ → Str,
      (∀ r < 2, (WordCounter.sampleJob.reducePhase [0, 1]
        (WordCounter.sampleJob.mapPhase [1, 0] (Job.sampleDisk "a b\n\na".toList)).2).2
          (outputPath "data".toList r) = some (texts r)) ∧
        ((List.range 2).flatMap fun r => lines '\n' (texts r)).Perm
          ["b 1 ".toList, "a 2 ".toList] := by
  have hcount : ∀ w, (tokens isspace "a b\n\na".toList).count w < 2 ^ 31 := fun w =>
    lt_of_le_of_lt List.count_le_length (by decide)
  obtain ⟨-, texts, htexts, hlines⟩ := wordCounter_exact WordCounter.sampleJob rfl
    "a b\n\na".toList (Job.sampleDisk "a b\n\na".toList) Job.sampleJob_inputApart
    (Job.sampleDisk_input _) (by decide) hcount (show [1, 0].Perm (List.range 2) by decide)
    (show [0, 1].Perm (List.range 2) by decide)
  exact ⟨texts, htexts, hlines.trans (by decide)⟩

end MapReduceCpp
