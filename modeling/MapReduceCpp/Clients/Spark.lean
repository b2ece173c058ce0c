import MapReduceCpp.Clients.SparkInvertedIndex
import MapReduceCpp.Clients.WordCounter
import MapReduceCpp.Clients.ReverseWeblinkGraph
import Mathlib.Algebra.BigOperators.Group.Multiset.Basic

/-!
# MapReduceCpp.Clients.Spark

`spark/WordCount.py` and `spark/ReverseWeblinkGraph.py`, the programs the outputs of the
other two clients are compared with.

Adding numbers and joining lists do not care for the order in which Spark combines the
values of a key (`Combines.hom`), so both scripts have one result up to order. The word
counts are those of `WordCounter.cpp` on every text, as long as that stays within `int`
(`spark_counts_agree_iff`). The graph script wants two sides around a single comma on every
line and raises an exception otherwise; where it does not, it lists the edges of
`ReverseWeblinkGraph.cpp` exactly if no side is empty (`spark_graph_agrees_iff`).
-/

namespace MapReduceCpp

open InputStream Grouping

/-- The sides of a line with a comma. -/
theorem ReverseWeblinkGraph.parts_append {s : Str} (hs : ',' ∉ s) (t : Str) :
    parts (s ++ ',' :: t) = (t, s) := by
  have hne : ∀ c ∈ s, decide (c ≠ ',') = true := fun c hc => by
    simpa using fun he : c = ',' => hs (he ▸ hc)
  rw [parts, List.dropWhile_append_of_pos hne, List.takeWhile_append_of_pos hne]
  simp

namespace Spark

/-! ### Reducing by key

For addition and for joining lists the order in which Spark combines the values of a key does
not matter, or only for the order within the result. Both are maps into a commutative sum, of
which there is only one. -/

/-- What `reduceByKey` may give for a key, up to a map into sums: the sum of what its values are
mapped to. -/
theorem Combines.hom {β M : Type} [AddCommMonoid M] {f : β → β → β} {vs : List β} {x : β}
    (h : Combines f vs x) (φ : β → M) (hφ : ∀ a b, φ (f a b) = φ a + φ b) :
    φ x = (vs.map φ).sum := by
  induction h with
  | single x => simp
  | combine _ _ hperm ihx ihy =>
    rw [hφ, ihx, ihy, (hperm.map φ).sum_eq, List.map_append, List.sum_append]

/-- `out` is a result of `reduceByKey(f)` on values of any type: one entry for each key, with
its values combined somehow. -/
structure Reduced {β : Type} (f : β → β → β) (pairs out : List (Str × β)) : Prop where
  nodup : (out.map Prod.fst).Nodup
  keys : ∀ k, k ∈ out.map Prod.fst ↔ k ∈ pairs.map Prod.fst
  combines : ∀ k s, (k, s) ∈ out → Combines f (valuesOf k pairs) s

theorem exists_reduced {β : Type} [Inhabited β] (f : β → β → β) (pairs : List (Str × β)) :
    ∃ out, Reduced f pairs out := by
  have hvalue : ∀ k : Str, ∃ s, k ∈ pairs.map Prod.fst → Combines f (valuesOf k pairs) s := by
    intro k
    by_cases hk : k ∈ pairs.map Prod.fst
    · obtain ⟨s, hs⟩ := exists_combines f (valuesOf_ne_nil.mpr hk)
      exact ⟨s, fun _ => hs⟩
    · exact ⟨default, fun h => absurd h hk⟩
  choose value hvalue using hvalue
  refine ⟨(pairs.map Prod.fst).dedup.map fun k => (k, value k), ?_, fun k => ?_, fun k s hmem => ?_⟩
  · rw [List.map_map]
    simpa [Function.comp_def] using List.nodup_dedup _
  · rw [List.map_map]
    simp [Function.comp_def]
  · obtain ⟨k', hk', heq⟩ := List.mem_map.mp hmem
    obtain ⟨rfl, rfl⟩ := Prod.mk.inj heq
    exact hvalue k' (List.mem_dedup.mp hk')

/-- Where the combined values are determined, the result is but for its order. -/
theorem Reduced.perm {β : Type} {f : β → β → β} {pairs out : List (Str × β)}
    (h : Reduced f pairs out) (value : Str → β)
    (hvalue : ∀ k x, Combines f (valuesOf k pairs) x → x = value k) :
    out.Perm ((pairs.map Prod.fst).dedup.map fun k => (k, value k)) := by
  have hout : out = (out.map Prod.fst).map fun k => (k, value k) := by
    rw [List.map_map]
    refine (List.map_id _).symm.trans (List.map_congr_left fun e he => ?_)
    exact Prod.ext rfl (hvalue e.1 e.2 (h.combines e.1 e.2 he))
  rw [hout]
  refine List.Perm.map _ ((List.perm_ext_iff_of_nodup h.nodup (List.nodup_dedup _)).mpr fun k => ?_)
  rw [h.keys, List.mem_dedup]

theorem perm_of_combines {γ : Type} {vs : List (List γ)} {x : List γ}
    (h : Combines (· ++ ·) vs x) : x.Perm vs.flatten := by
  have hsum := h.hom (fun l => (l : Multiset γ)) fun a b => (Multiset.coe_add a b).symm
  refine Multiset.coe_eq_coe.mp (hsum.trans ?_)
  clear hsum h
  induction vs with
  | nil => rfl
  | cons v vs ih =>
    rw [List.map_cons, List.sum_cons, ih, List.flatten_cons, Multiset.coe_add]

theorem valuesOf_flatten {γ : Type} (k : Str) (pairs : List (Str × List γ)) :
    valuesOf k (flatten pairs) = (valuesOf k pairs).flatten := by
  induction pairs with
  | nil => rfl
  | cons p ps ih =>
    rw [flatten, List.flatMap_cons, valuesOf_append, valuesOf_map_pair, ← flatten, ih, valuesOf_cons]
    split <;> simp

/-- Joined lists hold what the lists held. -/
theorem Reduced.flatten_perm {γ : Type} [DecidableEq γ] {pairs out : List (Str × List γ)}
    (h : Reduced (· ++ ·) pairs out) : (flatten out).Perm (flatten pairs) := by
  refine perm_of_valuesOf fun k => ?_
  rw [valuesOf_flatten k pairs]
  by_cases hk : k ∈ out.map Prod.fst
  · obtain ⟨⟨k', x⟩, hmem, rfl⟩ := List.mem_map.mp hk
    rw [valuesOf_flatten_of_mem h.nodup hmem]
    exact perm_of_combines (h.combines k' x hmem)
  · rw [valuesOf_flatten_of_not_mem hk]
    have hnil : valuesOf k pairs = [] := by
      by_contra hne
      exact hk ((h.keys k).mpr (valuesOf_ne_nil.mp hne))
    rw [hnil]
    rfl

/-- A key that always comes with the same value. -/
theorem valuesOf_map_const {β : Type} (k : Str) (v : β) (ks : List Str) :
    valuesOf k (ks.map fun key => (key, v)) = List.replicate (ks.count k) v := by
  induction ks with
  | nil => rfl
  | cons x xs ih =>
    rw [List.map_cons, valuesOf_cons, ih, List.count_cons]
    by_cases h : x = k
    · simp [h, List.replicate_succ]
    · simp [h]

/-! ### Lines of a text file

`sc.textFile` ends a line at a carriage return as well. On the inputs that are compared there is
none. -/

/-- The ends of lines that `textFile` knows, as newlines. -/
def newlines : Str → Str
  | [] => []
  | c :: cs =>
    if c = '\r' then if cs.head? = some '\n' then newlines cs else '\n' :: newlines cs
    else c :: newlines cs

/-- `sc.textFile`: the lines without their ends. -/
def textFile (content : Str) : List Str := lines '\n' (newlines content)

theorem textFile_eq {content : Str} (h : '\r' ∉ content) :
    textFile content = lines '\n' content := by
  have hsame : ∀ cs : Str, '\r' ∉ cs → newlines cs = cs := by
    intro cs
    induction cs with
    | nil => intro _; rfl
    | cons c cs ih =>
      intro hmem
      rw [List.mem_cons, not_or] at hmem
      rw [newlines, if_neg (Ne.symm hmem.1), ih hmem.2]
  rw [textFile, hsame content h]

/-! ### WordCount.py

A pair of word and 1 for each word, added up by key. -/

namespace WordCount

/-- `flatMap(lambda line: line.split())` and `map(lambda word: (word, 1))`. -/
def words (content : Str) : List (Str × ℤ) :=
  ((textFile content).flatMap split).map fun word => (word, 1)

/-- A possible `wordCounts.collect()`. -/
def Output (content : Str) (wordList : List (Str × ℤ)) : Prop :=
  Reduced (· + ·) (words content) wordList

variable {content : Str} {out : List (Str × ℤ)}

theorem words_eq (h : PlainText content) :
    words content = (tokens MapReduceCpp.isspace content).map fun word => (word, 1) := by
  have hcr : '\r' ∉ content := by
    intro hmem
    have hplain := h _ hmem
    revert hplain
    decide
  have hlines : (lines '\n' content).flatMap split = tokens MapReduceCpp.isspace content := by
    rw [← flatMap_tokens_lines isspace_newline]
    refine List.flatMap_congr fun line hline => tokens_congr fun c hc => isspace_eq (h c ?_)
    exact mem_of_mem_lines hline hc
  rw [words, textFile_eq hcr, hlines]

/-- The script counts the words of a text. -/
theorem Output.perm (h : PlainText content) (hout : Output content out) :
    out.Perm ((tokens MapReduceCpp.isspace content).dedup.map fun w =>
      (w, ((tokens MapReduceCpp.isspace content).count w : ℤ))) := by
  have hvalue : ∀ k x, Combines (· + ·) (valuesOf k (words content)) x →
      x = ((tokens MapReduceCpp.isspace content).count k : ℤ) := by
    intro k x hx
    have hsum := hx.hom id fun _ _ => rfl
    rwa [words_eq h, valuesOf_map_const, List.map_id, List.sum_replicate, nsmul_one] at hsum
  have hperm := Reduced.perm hout _ hvalue
  rw [words_eq h] at hperm
  simpa [Function.comp_def] using hperm

end WordCount

/-! ### ReverseWeblinkGraph.py

`source,target = line.split(',')` raises an exception unless the line has exactly one comma, and
Spark gives the job up with it, so the script has a result only if all lines can be read. -/

namespace Graph

/-- `get_target_source`: a line that is not two fields around a comma cannot be unpacked. -/
def getTargetSource (line : Str) : Except Fault (Str × List Str) :=
  match line.splitOn ',' with
  | [source, target] => .ok (target, [source])
  | [] | [_] =>
    .error (.exception "ValueError: not enough values to unpack (expected 2, got 1)".toList)
  | _ => .error (.exception "ValueError: too many values to unpack (expected 2)".toList)

/-- `map(lambda line: get_target_source(line))`. -/
def targetSources (content : Str) : Except Fault (List (Str × List Str)) :=
  (textFile content).mapM getTargetSource

/-- A possible `target_all_sources.collect()`. There is none if a line raises an
exception. -/
def Output (content : Str) (out : List (Str × List Str)) : Prop :=
  ∃ pairs, targetSources content = .ok pairs ∧ Reduced (· ++ ·) pairs out

/-- Fields are collected if all lines have them, and they are then those of the lines one by
one. -/
theorem mapM_eq_ok {α β : Type} {f : α → Except Fault β} {xs : List α} {ys : List β} :
    xs.mapM f = .ok ys ↔ xs.map f = ys.map .ok := by
  induction xs generalizing ys with
  | nil => cases ys <;> simp [pure, Except.pure]
  | cons x xs ih =>
    rw [List.mapM_cons, List.map_cons]
    cases hx : f x with
    | error fault => cases ys <;> simp [bind, Except.bind]
    | ok y =>
      cases hxs : xs.mapM f with
      | error fault =>
        have hnone : ∀ ys, xs.map f ≠ List.map Except.ok ys := fun ys heq => by
          rw [ih.mpr heq] at hxs
          cases hxs
        cases ys with
        | nil => simp [bind, Except.bind]
        | cons y' ys => simp [bind, Except.bind, hnone]
      | ok zs =>
        have hzs := ih.mp hxs
        cases ys with
        | nil => simp [bind, Except.bind, pure, Except.pure]
        | cons y' ys =>
          simp only [bind, Except.bind, pure, Except.pure, List.map_cons, hzs, Except.ok.injEq,
            List.cons.injEq, List.map_inj_right fun _ _ h => Except.ok.inj h]

/-- A line that the script can read. -/
theorem getTargetSource_eq_ok {line : Str} {p : Str × List Str} :
    getTargetSource line = .ok p ↔
      ∃ s t, line = s ++ ',' :: t ∧ ',' ∉ s ∧ ',' ∉ t ∧ p = (t, [s]) := by
  constructor
  · intro h
    have hline : [','].intercalate (line.splitOn ',') = line := List.intercalate_splitOn ','
    unfold getTargetSource at h
    split at h
    · rename_i s t hsplit
      obtain rfl := Except.ok.inj h
      rw [hsplit] at hline
      have hcomma : ',' ∈ line := by
        by_contra hno
        rw [List.splitOn_eq_singleton hno] at hsplit
        cases hsplit
      obtain ⟨s', t', rfl, hs'⟩ := List.eq_append_cons_of_mem hcomma
      rw [List.splitOn_append_cons_self_of_not_mem hs'] at hsplit
      obtain ⟨rfl, hrest⟩ := List.cons.inj hsplit
      have ht' : ',' ∉ t' := by
        intro hmem
        obtain ⟨a, b, rfl, ha⟩ := List.eq_append_cons_of_mem hmem
        rw [List.splitOn_append_cons_self_of_not_mem ha] at hrest
        exact List.splitOn_ne_nil _ _ (List.cons.inj hrest).2
      rw [List.splitOn_eq_singleton ht'] at hrest
      obtain ⟨rfl, -⟩ := List.cons.inj hrest
      exact ⟨s', t', rfl, hs', ht', rfl⟩
    · cases h
    · cases h
    · cases h
  · rintro ⟨s, t, rfl, hs, ht, rfl⟩
    rw [getTargetSource, List.splitOn_append_cons_self_of_not_mem hs, List.splitOn_eq_singleton ht]

/-- What the script collects from lines that it can read. -/
theorem flatten_eq {ls : List Str} {pairs : List (Str × List Str)}
    (h : ls.map getTargetSource = pairs.map .ok) :
    flatten pairs = ls.map ReverseWeblinkGraph.parts := by
  induction ls generalizing pairs with
  | nil =>
    cases pairs with
    | nil => rfl
    | cons p ps => cases h
  | cons l ls ih =>
    cases pairs with
    | nil => cases h
    | cons p ps =>
      obtain ⟨hl, hls⟩ := List.cons.inj h
      obtain ⟨s, t, rfl, hs, -, rfl⟩ := getTargetSource_eq_ok.mp hl
      rw [flatten, List.flatMap_cons, ← flatten, ih hls]
      simp [ReverseWeblinkGraph.parts_append hs]

end Graph

end Spark

namespace WordCounter

variable {job : Job} {content : Str} {d : Disk} {ms rs : List ℕ}

/-- The reducer of a word gets a `"1"` for each of its occurrences. -/
theorem valuesOf_pairs (hjob : job.iface = iface) (w : Str) :
    valuesOf w (job.pairs content) =
      List.replicate ((tokens isspace content).count w) "1".toList := by
  have hperm : (valuesOf w (job.pairs content)).Perm
      (List.replicate ((tokens isspace content).count w) "1".toList) := by
    rw [← valuesOf_map_one, ← sequentialPairs_eq hjob]
    exact Job.pairs_perm.filterMap _
  exact List.perm_replicate.mp hperm

/-- A run whose tasks all return 0 has counted within `int`. -/
theorem count_lt_of_outcomes (hjob : job.iface = iface) (hapart : job.InputApart)
    (hd : d job.input = some content) (hms : ms.Perm (List.range job.nrMapper))
    (hrs : rs.Perm (List.range job.nrReducer))
    (h : ∀ t ∈ (job.mapPhase ms d).1 ++ (job.reducePhase rs (job.mapPhase ms d).2).1,
      t.outcome = .ok 0) (w : Str) :
    (tokens isspace content).count w < 2 ^ 31 := by
  by_contra hcount
  rw [not_lt] at hcount
  have hentry : (w, valuesOf w (job.pairs content)) ∈
      (List.range job.nrReducer).flatMap (job.entries content) := by
    rw [(Job.entries_perm (emitsWords hjob).readsBack).mem_iff, List.filter_true,
      Shuffle.mem_reference]
    refine ⟨valuesOf_ne_nil.mp fun hnil => ?_, rfl⟩
    rw [valuesOf_pairs hjob, List.replicate_eq_nil_iff] at hnil
    omega
  obtain ⟨r, hr, hentry⟩ := List.mem_flatMap.mp hentry
  have hreturns := Job.reduceReturns_of_outcomes hapart hms hrs
    (Job.mapReturns_of_outcomes hapart hms hd fun t ht => h t (List.mem_append_left _ ht)) hd
    (fun t ht => h t (List.mem_append_right _ ht)) r (List.mem_range.mp hr) _ hentry
  rw [hjob, valuesOf_pairs hjob] at hreturns
  exact absurd ((reduceFn_overflow w hcount).symm.trans hreturns) (by simp)

/-- The run of the C++ program is defined, and its output lines are the counts that Spark
collects, in some order. -/
def Agrees (job : Job) (content : Str) (ms rs : List ℕ) (d : Disk) : Prop :=
  let maps := job.mapPhase ms d
  let reduces := job.reducePhase rs maps.2
  (∀ t ∈ maps.1 ++ reduces.1, t.outcome = .ok 0) ∧
    ∀ out, Spark.WordCount.Output content out →
      ∃ texts : ℕ → Str, (∀ r < job.nrReducer, reduces.2 (job.output r) = some (texts r)) ∧
        ((List.range job.nrReducer).flatMap fun r => lines '\n' (texts r)).Perm
          (out.map fun e => entryLine (e.1, [toStr e.2]))

end WordCounter

open WordCounter in
/-- **The checker agrees with WordCounter on every text**, up to the size of an `int`: the
runs of the C++ program with fewer than `2^31` lines, and occurrences of each word, are
those whose tasks all return 0 and whose output is the result of the script. -/
theorem spark_counts_agree_iff (job : Job) (hjob : job.iface = WordCounter.iface) (content : Str)
    (hplain : Spark.PlainText content) (d : Disk) (hapart : job.InputApart)
    (hd : d job.input = some content) {ms rs : List ℕ} (hms : ms.Perm (List.range job.nrMapper))
    (hrs : rs.Perm (List.range job.nrReducer)) :
    WordCounter.Agrees job content ms rs d ↔
      (lines '\n' content).length < 2 ^ 31 ∧ ∀ w, (tokens isspace content).count w < 2 ^ 31 := by
  constructor
  · intro h
    have hmap := Job.mapReturns_of_outcomes hapart hms hd
      fun t ht => h.1 t (List.mem_append_left _ ht)
    exact ⟨(hmap 0 job.nrMapper_pos).length_lt, count_lt_of_outcomes hjob hapart hd hms hrs h.1⟩
  · rintro ⟨hlen, hcount⟩
    have hmap : ∀ m < job.nrMapper, job.MapReturns content m := fun m hm =>
      Job.mapReturns_of_lines hlen (fun line _ => by rw [hjob]; rfl) hm
    obtain ⟨houtcomes, texts, htexts, hperm⟩ := Job.run_lines hapart hms hrs hmap (emitsWords hjob)
      (reduceFn_pairs hjob hcount)
      (fun k _ v hv => by
        rw [List.mem_singleton.mp hv]
        exact (word_toStr _).newline_not_mem) hd
    have hkeys : (job.sequentialPairs content).map Prod.fst = tokens isspace content := by
      simp [sequentialPairs_eq hjob, Function.comp_def]
    rw [hkeys] at hperm
    refine ⟨houtcomes, fun out hout => ⟨texts, htexts, hperm.trans ?_⟩⟩
    have hcounts := (hout.perm hplain).map fun e => entryLine (e.1, [toStr e.2])
    rw [List.map_map] at hcounts
    exact hcounts.symm

theorem spark_counts_agree_iff_sample :
    WordCounter.Agrees WordCounter.sampleJob "a b\n\na".toList [1, 0] [0, 1]
      (Job.sampleDisk "a b\n\na".toList) :=
  (spark_counts_agree_iff WordCounter.sampleJob rfl "a b\n\na".toList (by decide)
    (Job.sampleDisk "a b\n\na".toList) Job.sampleJob_inputApart (Job.sampleDisk_input _)
    (show [1, 0].Perm (List.range 2) by decide) (show [0, 1].Perm (List.range 2) by decide)).mpr
      ⟨by decide, fun _ => lt_of_le_of_lt List.count_le_length (by decide)⟩

namespace ReverseWeblinkGraph

variable {job : Job} {content : Str} {d : Disk} {ms rs : List ℕ}

/-- A single comma with something on both sides. -/
def WellFormed (line : Str) : Prop :=
  ∃ s t, line = s ++ ',' :: t ∧ s ≠ [] ∧ t ≠ [] ∧ ',' ∉ s ∧ ',' ∉ t

/-- The run of the C++ program is defined, the script raises no exception, and the two list
the same sources for the same targets. -/
def Agrees (job : Job) (content : Str) (ms rs : List ℕ) (d : Disk) : Prop :=
  let maps := job.mapPhase ms d
  let reduces := job.reducePhase rs maps.2
  (∀ t ∈ maps.1 ++ reduces.1, t.outcome = .ok 0) ∧
    (∃ out, Spark.Graph.Output content out) ∧
    ∀ out, Spark.Graph.Output content out →
      ∃ texts : ℕ → Str, (∀ r < job.nrReducer, reduces.2 (job.output r) = some (texts r)) ∧
        ((listed job.nrReducer texts).map Prod.fst).Perm (out.map Prod.fst) ∧
        (flatten (listed job.nrReducer texts)).Perm (flatten out)

/-- A carriage return would be white space within a line. -/
theorem SpacelessLines.cr_not_mem (h : SpacelessLines content) : '\r' ∉ content := by
  have hline : ∀ c ∈ content, c ≠ '\n' → ∃ line ∈ lines '\n' content, c ∈ line := by
    clear h
    induction content using lines_induction '\n' with
    | nil => intro c hc; cases hc
    | single xs hne hmem =>
      intro c hc _
      exact ⟨xs, by rw [lines_of_not_mem hne hmem]; exact List.mem_singleton_self _, hc⟩
    | cons l r hmem ih =>
      intro c hc hne
      rw [lines_append_cons hmem]
      rcases List.mem_append.mp hc with hc | hc
      · exact ⟨l, List.mem_cons_self, hc⟩
      · obtain ⟨line, hline, hc⟩ := ih c ((List.mem_cons.mp hc).resolve_left hne) hne
        exact ⟨line, List.mem_cons_of_mem _ hline, hc⟩
  intro hmem
  obtain ⟨line, hline, hc⟩ := hline '\r' hmem (by decide)
  exact absurd (h line hline '\r' hc) (by decide)

/-- What is read from an output line are words. -/
theorem words_of_mem_flatten_listed {n : ℕ} {texts : ℕ → Str} {p : Str × Str}
    (h : p ∈ flatten (listed n texts)) : p.1 ≠ [] ∧ p.2 ≠ [] := by
  obtain ⟨e, he, hp⟩ := List.mem_flatMap.mp h
  obtain ⟨v, hv, rfl⟩ := List.mem_map.mp hp
  obtain ⟨r, -, he⟩ := List.mem_flatMap.mp he
  obtain ⟨line, -, rfl⟩ := List.mem_map.mp he
  have hwords : ∀ w ∈ tokens isspace line, w ≠ [] := fun w hw => (isWord_of_mem_tokens hw).1
  unfold parseLine at hv ⊢
  split at hv
  · cases hv
  · rename_i k vs htokens
    rw [htokens] at hwords
    exact ⟨hwords k List.mem_cons_self, hwords v (List.mem_cons_of_mem _ hv)⟩

/-- The lines that the script can read and that have no empty side: a single comma, and
something before and behind it. -/
theorem wellFormed_of_full {line : Str} {p : Str × List Str}
    (h : Spark.Graph.getTargetSource line = .ok p) (hfull : full (parts line) = true) :
    WellFormed line := by
  obtain ⟨s, t, rfl, hs, ht, -⟩ := Spark.Graph.getTargetSource_eq_ok.mp h
  rw [parts_append hs, full_iff] at hfull
  exact ⟨s, t, rfl, hfull.2, hfull.1, hs, ht⟩

end ReverseWeblinkGraph

section Graph

open ReverseWeblinkGraph

/-- **The checker agrees with ReverseWeblinkGraph exactly on well-formed files**: among the
files without white space in a line, those on which the C++ program and the script both
succeed and list the same graph are those whose lines all have one comma with something on
both sides (and are fewer than `2^31`). -/
theorem spark_graph_agrees_iff (job : Job) (hjob : job.iface = ReverseWeblinkGraph.iface)
    (content : Str) (hspace : SpacelessLines content) (d : Disk) (hapart : job.InputApart)
    (hd : d job.input = some content) {ms rs : List ℕ} (hms : ms.Perm (List.range job.nrMapper))
    (hrs : rs.Perm (List.range job.nrReducer)) :
    ReverseWeblinkGraph.Agrees job content ms rs d ↔
      (lines '\n' content).length < 2 ^ 31 ∧ ∀ line ∈ lines '\n' content, WellFormed line := by
  have hlines := Spark.textFile_eq hspace.cr_not_mem
  constructor
  · intro h
    obtain ⟨houtcomes, ⟨out, hout⟩, hsame⟩ := h
    have hmap := Job.mapReturns_of_outcomes hapart hms hd
      fun t ht => houtcomes t (List.mem_append_left _ ht)
    refine ⟨(hmap 0 job.nrMapper_pos).length_lt, fun line hline => ?_⟩
    obtain ⟨texts, -, -, hperm⟩ := hsame out hout
    obtain ⟨pairs, hpairs, hreduced⟩ := hout
    have hok := Spark.Graph.mapM_eq_ok.mp hpairs
    rw [hlines] at hok
    obtain ⟨p, -, hp⟩ :=
      List.mem_map.mp (hok ▸ List.mem_map_of_mem (f := Spark.Graph.getTargetSource) hline)
    -- The edge of the line is listed by the C++ program, so it has two sides.
    have hmem : parts line ∈ flatten (listed job.nrReducer texts) := by
      rw [hperm.mem_iff, hreduced.flatten_perm.mem_iff, Spark.Graph.flatten_eq hok]
      exact List.mem_map_of_mem hline
    exact wellFormed_of_full hp.symm (full_iff.mpr (words_of_mem_flatten_listed hmem))
  -- On well-formed lines no half edge is emitted, so no temp file is read wrongly.
  · rintro ⟨hlen, hwell⟩
    have hfull : ∀ p ∈ emissions content, full p = true := by
      intro p hp
      obtain ⟨line, hline, rfl⟩ := List.mem_map.mp hp
      obtain ⟨s, t, rfl, hs, ht, hcomma, -⟩ := hwell line hline
      rw [parts_append hcomma]
      exact full_iff.mpr ⟨ht, hs⟩
    have hedges : edges content = emissions content := List.filter_eq_self.mpr hfull
    have haligned : Aligned job content := .of_emissions hjob
      (List.pairwise_of_forall_mem_list fun p hp _ _ hhalf =>
        absurd (hfull p hp) (not_full_of_half hhalf))
    obtain ⟨houtcomes, texts, htexts, hrev⟩ :=
      exact_of_aligned hjob hapart hd hms hrs hspace hlen haligned
    have hread : (lines '\n' content).map Spark.Graph.getTargetSource =
        ((emissions content).map fun p => (p.1, [p.2])).map .ok := by
      rw [emissions, List.map_map, List.map_map]
      refine List.map_congr_left fun line hline => ?_
      obtain ⟨s, t, rfl, -, -, hs, ht⟩ := hwell line hline
      rw [Function.comp_apply, Function.comp_apply, parts_append hs]
      exact Spark.Graph.getTargetSource_eq_ok.mpr ⟨s, t, rfl, hs, ht, rfl⟩
    have hpairs : Spark.Graph.targetSources content =
        .ok ((emissions content).map fun p => (p.1, [p.2])) := by
      rw [Spark.Graph.targetSources, hlines]
      exact Spark.Graph.mapM_eq_ok.mpr hread
    -- The script has a result, with the targets of the edges, and with the edges.
    refine ⟨houtcomes, ?_, fun out hout => ⟨texts, htexts, ?_, ?_⟩⟩
    · obtain ⟨out, hout⟩ :=
        Spark.exists_reduced (· ++ ·) ((emissions content).map fun p => (p.1, [p.2]))
      exact ⟨out, _, hpairs, hout⟩
    · obtain ⟨pairs, hpairs', hreduced⟩ := hout
      obtain rfl := Except.ok.inj (hpairs.symm.trans hpairs')
      refine (List.perm_ext_iff_of_nodup hrev.nodup hreduced.nodup).mpr fun t => ?_
      rw [hrev.mem, hreduced.keys, hedges]
      simp
    · obtain ⟨pairs, hpairs', hreduced⟩ := hout
      obtain rfl := Except.ok.inj (hpairs.symm.trans hpairs')
      refine List.Perm.trans ?_ hreduced.flatten_perm.symm
      rw [Spark.Graph.flatten_eq hread, List.perm_iff_count]
      intro p
      rw [hrev.count p.1 p.2, hedges]
      rfl

/-- Two links to one page, and one back. -/
theorem spark_graph_agrees_iff_sample :
    ReverseWeblinkGraph.Agrees (workers ⟨fun _ => 0, fun _ => 0⟩ 2 Job.two_workers) "a,b\nc,b\nb,a".toList
      [1, 0] [0, 1] (Job.sampleDisk "a,b\nc,b\nb,a".toList) :=
  (spark_graph_agrees_iff (workers ⟨fun _ => 0, fun _ => 0⟩ 2 Job.two_workers) rfl
    "a,b\nc,b\nb,a".toList (.of_all (by decide)) (Job.sampleDisk "a,b\nc,b\nb,a".toList)
    Job.sampleJob_inputApart (Job.sampleDisk_input _) (show [1, 0].Perm (List.range 2) by decide)
    (show [0, 1].Perm (List.range 2) by decide)).mpr
      ⟨by decide, fun line hline => by
        have hlines : lines '\n' "a,b\nc,b\nb,a".toList =
            ["a,b".toList, "c,b".toList, "b,a".toList] := by decide
        rw [hlines] at hline
        simp only [List.mem_cons, List.not_mem_nil, or_false] at hline
        rcases hline with rfl | rfl | rfl
        · exact ⟨"a".toList, "b".toList, by decide⟩
        · exact ⟨"c".toList, "b".toList, by decide⟩
        · exact ⟨"b".toList, "a".toList, by decide⟩⟩

end Graph

end MapReduceCpp
