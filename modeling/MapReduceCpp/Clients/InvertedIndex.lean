import MapReduceCpp.Clients
import Mathlib.Data.Char
import Mathlib.Data.List.Sort
import Mathlib.Data.List.Lex
import Mathlib.Data.List.Destutter

/-!
# MapReduceCpp.Clients.InvertedIndex

`InvertedIndex.cpp` lists, for each word, the lines it occurs on.

The reducer gets one line number for each occurrence, in mapper order, and sorts out
the duplicates, so what it emits depends on the set of those numbers alone
(`eraseUnique_sort_congr`) and the number of mappers and the hash functions drop
out. It copies the values with an `int` index first, though, so the application is
exact precisely as long as no word has `2^31` occurrences or more
(`invertedIndex_exact_iff`).
-/

namespace MapReduceCpp

open InputStream Grouping

namespace InvertedIndex

/-- `InvertedIndexMapReduce::map_fn`. -/
def mapFn (key value : Str) : List (Str × Str) × Option Fault :=
  ((readWords value).map fun word => (word, key), none)

/-- `sort(v3.begin(), v3.end())`. Strings are compared by characters, so line 10 comes before
line 9. -/
def sort (v3 : List Str) : List Str := v3.mergeSort (· ≤ ·)

/-- `v3.erase(unique(v3.begin(), v3.end()), v3.end())`: of each run of equal
elements the first is kept. -/
def eraseUnique (v3 : List Str) : List Str := v3.destutter (· ≠ ·)

/-- `InvertedIndexMapReduce::reduce_fn`. -/
def reduceFn (key : Str) (values : List Str) : List (Str × List Str) × Option Fault :=
  match copyValues values with
  | .ok v3 => ([(key, eraseUnique (sort v3))], none)
  | .error fault => ([], some fault)

/-- `InvertedIndexMapReduce`. -/
def iface : MapReduceInterface := ⟨mapFn, reduceFn⟩

/-! ### Sorting out duplicates

Sorting brings equal elements together and `unique` drops all but the first of them. What
remains is the set of the elements in increasing order, which does not remember in which order
they came. -/

theorem eraseUnique_sort (xs : List Str) : eraseUnique (sort xs) = (sort xs).dedup :=
  (List.pairwise_mergeSort' (· ≤ ·) xs).destutter_eq_dedup

theorem mem_eraseUnique_sort {xs : List Str} {v : Str} : v ∈ eraseUnique (sort xs) ↔ v ∈ xs := by
  rw [eraseUnique_sort, List.mem_dedup, sort, List.mem_mergeSort]

theorem eraseUnique_sort_pairwise (xs : List Str) :
    (eraseUnique (sort xs)).Pairwise (· < ·) := by
  rw [eraseUnique_sort]
  have hle : (sort xs).dedup.Pairwise (· ≤ ·) :=
    (List.pairwise_mergeSort' (· ≤ ·) xs).sublist (List.dedup_sublist _)
  exact (hle.and (List.nodup_dedup (sort xs))).imp fun h => lt_of_le_of_ne h.1 h.2

/-- It depends on the elements of the list alone. -/
theorem eraseUnique_sort_congr {xs ys : List Str} (h : ∀ v, v ∈ xs ↔ v ∈ ys) :
    eraseUnique (sort xs) = eraseUnique (sort ys) := by
  have hx := eraseUnique_sort_pairwise xs
  have hy := eraseUnique_sort_pairwise ys
  have hperm : (eraseUnique (sort xs)).Perm (eraseUnique (sort ys)) := by
    rw [List.perm_ext_iff_of_nodup hx.nodup hy.nodup]
    exact fun v => by rw [mem_eraseUnique_sort, mem_eraseUnique_sort, h v]
  exact hperm.eq_of_pairwise' hx hy

/-! ### The index

What the output should list, and that one pass over the input emits it: a pair of word and line
number for each occurrence. -/

/-- The numbers of the lines a word occurs on, in string order. -/
def positions (content w : Str) : List Str :=
  eraseUnique (sort (((lines '\n' content).zipIdx.filter
    fun line => w ∈ tokens isspace line.1).map fun line => toStr line.2))

theorem positions_pairwise (content w : Str) : (positions content w).Pairwise (· < ·) :=
  eraseUnique_sort_pairwise _

theorem mem_positions {content w v : Str} :
    v ∈ positions content w ↔ ∃ (i : ℕ) (line : Str), (lines '\n' content)[i]? = some line ∧
      w ∈ tokens isspace line ∧ v = toStr i := by
  rw [positions, mem_eraseUnique_sort, List.mem_map]
  constructor
  · rintro ⟨⟨line, i⟩, hline, rfl⟩
    rw [List.mem_filter, List.mem_zipIdx_iff_getElem?] at hline
    exact ⟨i, line, hline.1, by simpa using hline.2, rfl⟩
  · rintro ⟨i, line, hget, hw, rfl⟩
    exact ⟨(line, i), List.mem_filter.mpr ⟨List.mem_zipIdx_iff_getElem?.mpr hget,
      by simpa using hw⟩, rfl⟩

/-- What the application is for: all tasks return 0, and the output files together
hold one line for each token of the input, with the strictly increasing list of the
numbers of its lines. -/
def Exact (job : Job) (content : Str) (ms rs : List ℕ) (d : Disk) : Prop :=
  let maps := job.mapPhase ms d
  let reduces := job.reducePhase rs maps.2
  (∀ t ∈ maps.1 ++ reduces.1, t.outcome = .ok 0) ∧
    ∃ texts : ℕ → Str, (∀ r < job.nrReducer, reduces.2 (job.output r) = some (texts r)) ∧
      ((List.range job.nrReducer).flatMap fun r => lines '\n' (texts r)).Perm
        ((tokens isspace content).dedup.map fun w => entryLine (w, positions content w)) ∧
      ∀ w, (positions content w).Pairwise (· < ·) ∧
        ∀ v, v ∈ positions content w ↔ ∃ (i : ℕ) (line : Str),
          (lines '\n' content)[i]? = some line ∧ w ∈ tokens isspace line ∧ v = toStr i

variable {job : Job} {content : Str}

theorem sequentialPairs_eq (hjob : job.iface = iface) :
    job.sequentialPairs content = (lines '\n' content).zipIdx.flatMap fun line =>
      (tokens isspace line.1).map fun word => (word, toStr line.2) := by
  rw [Job.sequentialPairs, hjob]
  simp only [iface, mapFn, readWords_eq]

/-- The keys emitted in one pass are the tokens of the input. -/
theorem sequentialPairs_keys (hjob : job.iface = iface) :
    (job.sequentialPairs content).map Prod.fst = tokens isspace content := by
  have hfst : (lines '\n' content).zipIdx.map Prod.fst = lines '\n' content :=
    List.zipIdx_map_fst ..
  rw [sequentialPairs_eq hjob, List.map_flatMap]
  simp only [List.map_map, Function.comp_def, List.map_id']
  rw [← List.flatMap_map, hfst, flatMap_tokens_lines isspace_newline]

theorem emitsWords (hjob : job.iface = iface) : job.EmitsWords content := by
  intro p hp
  rw [sequentialPairs_eq hjob] at hp
  obtain ⟨line, -, hp⟩ := List.mem_flatMap.mp hp
  obtain ⟨w, hw, rfl⟩ := List.mem_map.mp hp
  exact ⟨isWord_of_mem_tokens hw, word_toStr _⟩

/-- The values of a word are the numbers of its lines, with repetitions. -/
theorem mem_valuesOf_sequentialPairs (hjob : job.iface = iface) {w v : Str} :
    v ∈ valuesOf w (job.sequentialPairs content) ↔ v ∈ positions content w := by
  rw [mem_valuesOf, sequentialPairs_eq hjob, mem_positions, List.mem_flatMap]
  constructor
  · rintro ⟨⟨line, i⟩, hline, hmem⟩
    obtain ⟨w', hw, heq⟩ := List.mem_map.mp hmem
    obtain ⟨rfl, rfl⟩ := Prod.mk.inj heq
    exact ⟨i, line, List.mem_zipIdx_iff_getElem?.mp hline, hw, rfl⟩
  · rintro ⟨i, line, hget, hw, rfl⟩
    exact ⟨(line, i), List.mem_zipIdx_iff_getElem?.mpr hget, List.mem_map.mpr ⟨w, hw, rfl⟩⟩

/-- A word has as many values as it has occurrences. -/
theorem length_valuesOf_pairs (hjob : job.iface = iface) (w : Str) :
    (valuesOf w (job.pairs content)).length = (tokens isspace content).count w := by
  have hlen : ∀ ps : List (Str × Str), (valuesOf w ps).length = (ps.map Prod.fst).count w := by
    intro ps
    induction ps with
    | nil => rfl
    | cons p ps ih =>
      rw [valuesOf_cons, List.map_cons, List.count_cons, ← ih]
      by_cases h : p.1 = w <;> simp [h]
  rw [hlen, (Job.pairs_perm.map Prod.fst).count_eq, sequentialPairs_keys hjob]

/-- The reducer's list for a word with fewer than `2^31` occurrences. -/
theorem reduceFn_eq (hjob : job.iface = iface) {w : Str}
    (hcount : (tokens isspace content).count w < 2 ^ 31) :
    reduceFn w (valuesOf w (job.pairs content)) = ([(w, positions content w)], none) := by
  have hlen : (valuesOf w (job.pairs content)).length < 2 ^ 31 := by
    rw [length_valuesOf_pairs hjob]
    exact hcount
  have hmem : ∀ v, v ∈ valuesOf w (job.pairs content) ↔ v ∈ positions content w := fun v => by
    rw [← mem_valuesOf_sequentialPairs hjob, mem_valuesOf, mem_valuesOf, Job.pairs_perm.mem_iff]
  have hset : eraseUnique (sort (valuesOf w (job.pairs content))) = positions content w :=
    eraseUnique_sort_congr fun v => (hmem v).trans mem_eraseUnique_sort
  rw [reduceFn, copyValues_eq hlen]
  simp only [hset]

/-- With `2^31` occurrences or more the copying loop overflows its index. -/
theorem reduceFn_overflow (hjob : job.iface = iface) {w : Str}
    (hcount : 2 ^ 31 ≤ (tokens isspace content).count w) :
    (reduceFn w (valuesOf w (job.pairs content))).2 = some .undefined := by
  rw [reduceFn, copyValues_overflow (by rw [length_valuesOf_pairs hjob]; exact hcount)]

theorem mapReturns (hjob : job.iface = iface) (hlen : (lines '\n' content).length < 2 ^ 31)
    {m : ℕ} (hm : m < job.nrMapper) : job.MapReturns content m :=
  Job.mapReturns_of_lines hlen (fun line _ => by rw [hjob]; rfl) hm

/-- A run whose tasks all return 0 has copied the values of every word, so no word has had more
of them than an `int` can index. -/
theorem count_lt_of_outcomes (hjob : job.iface = iface) (hapart : job.InputApart) {d : Disk}
    (hd : d job.input = some content) (hlen : (lines '\n' content).length < 2 ^ 31)
    {ms rs : List ℕ} (hms : ms.Perm (List.range job.nrMapper))
    (hrs : rs.Perm (List.range job.nrReducer))
    (h : ∀ t ∈ (job.mapPhase ms d).1 ++ (job.reducePhase rs (job.mapPhase ms d).2).1,
      t.outcome = .ok 0) (w : Str) :
    (tokens isspace content).count w < 2 ^ 31 := by
  by_contra hcount
  rw [not_lt] at hcount
  have hentry : (w, valuesOf w (job.pairs content)) ∈
      (List.range job.nrReducer).flatMap (job.entries content) := by
    rw [(Job.entries_perm (emitsWords hjob).readsBack).mem_iff, List.filter_true,
      Shuffle.mem_reference]
    refine ⟨valuesOf_ne_nil.mp fun hnil => ?_, rfl⟩
    have hvalues := @length_valuesOf_pairs job content hjob w
    rw [hnil, List.length_nil] at hvalues
    omega
  obtain ⟨r, hr, hentry⟩ := List.mem_flatMap.mp hentry
  have hreturns := Job.reduceReturns_of_outcomes hapart hms hrs
    (fun m hm => mapReturns hjob hlen hm) hd (fun t ht => h t (List.mem_append_right _ ht)) r
    (List.mem_range.mp hr) _ hentry
  rw [hjob] at hreturns
  exact absurd ((reduceFn_overflow hjob hcount).symm.trans hreturns) (by simp)

/-- A run with fewer than `2^31` occurrences of each word is exact. -/
theorem exact_of_count_lt (hjob : job.iface = iface) (hapart : job.InputApart) {d : Disk}
    (hd : d job.input = some content) (hlen : (lines '\n' content).length < 2 ^ 31)
    {ms rs : List ℕ} (hms : ms.Perm (List.range job.nrMapper))
    (hrs : rs.Perm (List.range job.nrReducer))
    (hcount : ∀ w, (tokens isspace content).count w < 2 ^ 31) : Exact job content ms rs d := by
  have hmap : ∀ m < job.nrMapper, job.MapReturns content m := fun m hm => mapReturns hjob hlen hm
  have hF : ∀ k vs, (k, vs) ∈ Shuffle.reference (job.pairs content) →
      job.iface.reduceFn k vs = ([(k, positions content k)], none) := by
    intro k vs hmem
    rw [(Shuffle.mem_reference.mp hmem).2, hjob]
    exact reduceFn_eq hjob (hcount k)
  have hlist : ∀ k ∈ (job.sequentialPairs content).map Prod.fst, ∀ v ∈ positions content k,
      '\n' ∉ v := by
    intro k _ v hv
    obtain ⟨i, -, -, -, rfl⟩ := mem_positions.mp hv
    exact (word_toStr i).newline_not_mem
  obtain ⟨houtcomes, texts, htexts, hperm⟩ :=
    Job.run_lines hapart hms hrs hmap (emitsWords hjob) hF hlist hd
  rw [sequentialPairs_keys hjob] at hperm
  exact ⟨houtcomes, texts, htexts, hperm,
    fun w => ⟨positions_pairwise content w, fun v => mem_positions⟩⟩

end InvertedIndex

open InvertedIndex in
/-- **InvertedIndex is exact as long as no word occurs `2^31` times.** At that many
occurrences the `int` index of the loop that copies the values overflows. -/
theorem invertedIndex_exact_iff (job : Job) (hjob : job.iface = InvertedIndex.iface)
    (content : Str) (d : Disk) (hapart : job.InputApart) (hd : d job.input = some content)
    (hlen : (lines '\n' content).length < 2 ^ 31) {ms rs : List ℕ}
    (hms : ms.Perm (List.range job.nrMapper)) (hrs : rs.Perm (List.range job.nrReducer)) :
    InvertedIndex.Exact job content ms rs d ↔
      ∀ w, (tokens isspace content).count w < 2 ^ 31 :=
  ⟨fun h => count_lt_of_outcomes hjob hapart hd hlen hms hrs h.1,
    fun hcount => exact_of_count_lt hjob hapart hd hlen hms hrs hcount⟩

/-- Two indexing workers. -/
def InvertedIndex.sampleJob : Job :=
  Job.sampleJob ⟨fun n => n.natAbs.toUInt64, fun s => s.length.toUInt64⟩ InvertedIndex.iface 2
    Job.two_workers

theorem invertedIndex_exact_iff_sample :
    InvertedIndex.Exact InvertedIndex.sampleJob "a b a\n\na".toList [1, 0] [0, 1]
      (Job.sampleDisk "a b a\n\na".toList) :=
  (invertedIndex_exact_iff InvertedIndex.sampleJob rfl "a b a\n\na".toList
    (Job.sampleDisk "a b a\n\na".toList) Job.sampleJob_inputApart (Job.sampleDisk_input _)
    (by decide) (show [1, 0].Perm (List.range 2) by decide)
    (show [0, 1].Perm (List.range 2) by decide)).mpr
      fun _ => lt_of_le_of_lt List.count_le_length (by decide)

namespace InvertedIndex

/-- A word so often on the first line, and once more on the second. -/
def repeated (n : ℕ) : Str := (List.replicate n "a ".toList).flatten ++ "\na".toList

theorem tokens_repeated (n : ℕ) :
    tokens isspace (repeated n) = List.replicate (n + 1) "a".toList := by
  induction n with
  | zero => rfl
  | succ n ih =>
    have hcons : repeated (n + 1) = "a".toList ++ ' ' :: repeated n := by
      simp [repeated, List.replicate_succ]
    rw [hcons, tokens_word_append_cons (by decide) _ isspace_space, ih]
    rfl

theorem length_lines_repeated (n : ℕ) : (lines '\n' (repeated n)).length = 2 := by
  have hmem : '\n' ∉ (List.replicate n "a ".toList).flatten := by
    rw [List.mem_flatten]
    rintro ⟨l, hl, hc⟩
    rw [List.eq_of_mem_replicate hl] at hc
    exact absurd hc (by decide)
  have hlast : (lines '\n' "a".toList).length = 1 := by decide
  rw [repeated, show "\na".toList = '\n' :: "a".toList from rfl, lines_append_cons hmem,
    List.length_cons, hlast]

end InvertedIndex

open InvertedIndex in
/-- A word with `2^31` occurrences on one line and another one on the next is beyond the
application. -/
theorem invertedIndex_not_exact :
    (lines '\n' (repeated (2 ^ 31))).length < 2 ^ 31 ∧
      ¬ InvertedIndex.Exact InvertedIndex.sampleJob (repeated (2 ^ 31)) [0, 1] [0, 1]
        (Job.sampleDisk (repeated (2 ^ 31))) := by
  have hlen : (lines '\n' (repeated (2 ^ 31))).length < 2 ^ 31 :=
    lt_of_eq_of_lt (length_lines_repeated _) (by decide)
  refine ⟨hlen, fun h => ?_⟩
  have hcount := @count_lt_of_outcomes InvertedIndex.sampleJob _ rfl Job.sampleJob_inputApart _
    (Job.sampleDisk_input _) hlen _ _ (show [0, 1].Perm (List.range 2) by decide)
    (show [0, 1].Perm (List.range 2) by decide) h.1 "a".toList
  rw [tokens_repeated, List.count_replicate_self] at hcount
  exact absurd hcount (by omega)

end MapReduceCpp
