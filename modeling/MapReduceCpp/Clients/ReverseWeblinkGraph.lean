import MapReduceCpp.Clients

/-!
# MapReduceCpp.Clients.ReverseWeblinkGraph

`ReverseWeblinkGraph.cpp` collects the sources of each target of an edge list.

Every line emits one pair, also a line without a comma or with an empty side. The temp
file keeps such a half edge on a line of its own, but its reader sees words, so the
half edge is a single stray word that shifts the pairs behind it in that temp file
(`tokens_tempText_pieces`). It does no harm where nothing is left to shift: the temp
files are then read back as the full edges written to them (`filePairs_of_harmless`),
and the output is the reversed graph (`exact_of_aligned`).

Which lines meet in a temp file depends on the number of workers and on the two hash
functions, so the condition is one on the whole job. It is not necessary, as the pairs
that a shift makes may happen to be the pairs that it destroys
(`reverseWeblinkGraph_lucky`). What is necessary is that no two half edges meet: two
stray words are read as an edge that nobody wrote (`half_le_one`).
-/

namespace MapReduceCpp

open InputStream Grouping ListPartition

namespace ReverseWeblinkGraph

/-- The loop of `map_fn`: while the stream is good, read up to a comma and then the rest of the
line, and emit the two the other way round. Nothing tests whether either read has failed. -/
def edgeLoop : ℕ → InputStream Char → List (Str × Str)
  | 0, _ => []
  | fuel + 1, iss =>
    if iss.good then
      let source := getline ',' iss
      let target := getline '\n' source.2
      (target.1, source.1) :: edgeLoop fuel target.2
    else []

/-- `ReverseWeblinkGraphMapReduce::map_fn`. -/
def mapFn (_key value : Str) : List (Str × Str) × Option Fault :=
  (edgeLoop (value.length + 1) (ofList value), none)

/-- `ReverseWeblinkGraphMapReduce::reduce_fn`. -/
def reduceFn (key : Str) (values : List Str) : List (Str × List Str) × Option Fault :=
  match copyValues values with
  | .ok sources => ([(key, sources)], none)
  | .error fault => ([], some fault)

/-- `ReverseWeblinkGraphMapReduce`. -/
def iface : MapReduceInterface := ⟨mapFn, reduceFn⟩

/-- What lies behind the first comma of a line, and what lies before it: the target and the
source. A further comma is part of the target. -/
def parts (line : Str) : Str × Str :=
  ((line.dropWhile (· ≠ ',')).tail, line.takeWhile (· ≠ ','))

/-- Both sides of an edge are there. -/
def full (p : Str × Str) : Bool := !p.1.isEmpty && !p.2.isEmpty

/-- The edges of the well-formed lines, as target and source, with repetitions. -/
def edges (content : Str) : List (Str × Str) := ((lines '\n' content).map parts).filter full

theorem full_iff {p : Str × Str} : full p = true ↔ p.1 ≠ [] ∧ p.2 ≠ [] := by
  simp [full]

/-- A line is one turn of the loop: nothing is left behind the target, and a line
without a comma has no target. -/
theorem mapFn_eq {value : Str} (h : '\n' ∉ value) (key : Str) :
    mapFn key value = ([parts value], none) := by
  have hstop : ∀ fuel (s : InputStream Char), s.good = false → edgeLoop fuel s = [] := by
    intro fuel s hs
    cases fuel with
    | zero => rfl
    | succ fuel => rw [edgeLoop, if_neg (by simp [hs])]
  rw [mapFn, edgeLoop, if_pos (ofList_good value)]
  by_cases hc : ',' ∈ value
  · -- The second `getline` runs into the end, so the loop condition fails behind it.
    obtain ⟨s, t, rfl, hs⟩ := List.eq_append_cons_of_mem hc
    have ht : '\n' ∉ t := fun hmem => h (List.mem_append_right _ (List.mem_cons_of_mem _ hmem))
    have hne : ∀ c ∈ s, decide (c ≠ ',') = true := fun c hcs => by
      simpa using fun he : c = ',' => hs (he ▸ hcs)
    rw [getline_append_cons (ofList_good _) rfl hs]
    simp only
    rw [getline_of_not_mem rfl ht, hstop _ _ rfl, parts, List.dropWhile_append_of_pos hne,
      List.takeWhile_append_of_pos hne]
    simp
  · have hne : ∀ c ∈ value, decide (c ≠ ',') = true := fun c hcs => by
      simpa using fun he : c = ',' => hc (he ▸ hcs)
    -- The first `getline` runs into the end, and the second finds no target.
    have htarget : getline '\n' (⟨[], true, value.isEmpty⟩ : InputStream Char) =
        ([], ⟨[], true, true⟩) := rfl
    rw [getline_of_not_mem (ofList_good value) hc]
    simp only [ofList_rest]
    rw [htarget, hstop _ _ rfl, parts, List.dropWhile_eq_nil_iff.mpr hne,
      List.takeWhile_eq_self_iff.mpr hne]
    rfl

/-! ### Edges with an empty side

The writer puts a pair on a line of its own, but a side that is empty leaves no word there. A
half edge is one word, so the pairs behind it are read from the wrong place on, until another
half edge puts them right again, or the file ends. -/

/-- Exactly one side is there. -/
def half (p : Str × Str) : Bool := p.1.isEmpty != p.2.isEmpty

/-- The side of a half edge that is there. -/
def side (p : Str × Str) : Str := p.1 ++ p.2

/-- Reading `q` behind `p` gives `q` again: `p` is no half edge, or `q` has no side at all, or
both sides of `q` are the one side of `p`. In the last case the pairs are read from the wrong
place on, and are the right ones. -/
def Harmless (p q : Str × Str) : Prop :=
  half p = true → q = ([], []) ∨ q = (side p, side p)

instance (p q : Str × Str) : Decidable (Harmless p q) :=
  inferInstanceAs (Decidable (half p = true → q = ([], []) ∨ q = (side p, side p)))

/-- The sides that the reader gets to see. -/
def pieces (p : Str × Str) : List Str :=
  (if p.1 = [] then [] else [p.1]) ++ if p.2 = [] then [] else [p.2]

/-- No white space on either side. -/
def Spaceless (p : Str × Str) : Prop :=
  (∀ c ∈ p.1, isspace c = false) ∧ ∀ c ∈ p.2, isspace c = false

/-- The reader sees the sides that are there, whichever edge they belong to. -/
theorem tokens_tempText_pieces {ps : List (Str × Str)} (h : ∀ p ∈ ps, Spaceless p) :
    tokens isspace (tempText ps) = ps.flatMap pieces := by
  induction ps with
  | nil => simp [tempText]
  | cons p ps ih =>
    have hline : tempText (p :: ps) = p.1 ++ ' ' :: (p.2 ++ '\n' :: tempText ps) := by
      simp [tempText, tempLine]
    have hp := h p List.mem_cons_self
    rw [hline, tokens_append_cons _ _ isspace_space, tokens_append_cons _ _ isspace_newline,
      tokens_of_forall hp.1, tokens_of_forall hp.2,
      ih fun q hq => h q (List.mem_cons_of_mem _ hq), List.flatMap_cons, pieces, List.append_assoc]

theorem pieces_full {p : Str × Str} (h : full p = true) : pieces p = [p.1, p.2] := by
  obtain ⟨h1, h2⟩ := full_iff.mp h
  simp [pieces, h1, h2]

theorem pieces_half {p : Str × Str} (h : half p = true) : pieces p = [side p] := by
  obtain ⟨t, s⟩ := p
  cases t <;> cases s <;> simp_all [half, pieces, side]

theorem side_ne_nil {p : Str × Str} (h : half p = true) : side p ≠ [] := by
  obtain ⟨t, s⟩ := p
  cases t <;> cases s <;> simp_all [half, side]

theorem not_full_of_half {p : Str × Str} (h : half p = true) : ¬ full p = true := by
  obtain ⟨t, s⟩ := p
  cases t <;> cases s <;> simp_all [half, full]

theorem full_or_half_or_empty (p : Str × Str) :
    full p = true ∨ half p = true ∨ p = ([], []) := by
  obtain ⟨t, s⟩ := p
  cases t <;> cases s <;> simp [full, half]

/-- Behind a stray token `x`, edges from `x` to `x` are read as themselves. -/
theorem pairUp_stray {x : Str} (hx : x ≠ []) {ps : List (Str × Str)}
    (h : ∀ p ∈ ps, p = ([], []) ∨ p = (x, x)) :
    pairUp (x :: ps.flatMap pieces) = ps.filter full := by
  induction ps with
  | nil => rfl
  | cons p ps ih =>
    have hrest := ih fun q hq => h q (List.mem_cons_of_mem _ hq)
    rcases h p List.mem_cons_self with rfl | rfl
    · simpa [pieces, full] using hrest
    · have hfull : full (x, x) = true := full_iff.mpr ⟨hx, hx⟩
      rw [List.flatMap_cons, pieces_full hfull, List.filter_cons_of_pos hfull, ← hrest]
      rfl

/-- Edges among which no half edge does harm are read back as the full ones. By induction on the
list; behind the first half edge everything is as in `pairUp_stray`. -/
theorem filePairs_of_harmless {ps : List (Str × Str)} (hspace : ∀ p ∈ ps, Spaceless p)
    (h : ps.Pairwise Harmless) : filePairs (some (tempText ps)) = ps.filter full := by
  rw [filePairs, Option.getD_some, tokens_tempText_pieces hspace]
  clear hspace
  induction ps with
  | nil => rfl
  | cons p ps ih =>
    rw [List.pairwise_cons] at h
    rcases full_or_half_or_empty p with hp | hp | rfl
    · rw [List.flatMap_cons, pieces_full hp, List.filter_cons_of_pos hp, ← ih h.2]
      rfl
    · rw [List.flatMap_cons, pieces_half hp, List.filter_cons_of_neg (not_full_of_half hp)]
      exact pairUp_stray (side_ne_nil hp) fun q hq => h.1 q hq hp
    · simpa [pieces, full] using ih h.2

/-! ### The output

An output line starts with its target, and the sources behind it may come in any order and
repeat. Two listings are the same graph if they have the same targets, and each edge as often. -/

/-- An output line as a key and its values. -/
def parseLine (l : Str) : Str × List Str :=
  match tokens isspace l with
  | [] => ([], [])
  | k :: vs => (k, vs)

theorem parseLine_entryLine {e : Str × List Str} (h : Word e.1 ∧ ∀ v ∈ e.2, Word v) :
    parseLine (entryLine e) = e := by
  rw [parseLine, tokens_entryLine h]

/-- The entries listed in the output files. -/
def listed (nrReducer : ℕ) (texts : ℕ → Str) : List (Str × List Str) :=
  (List.range nrReducer).flatMap fun r => (lines '\n' (texts r)).map parseLine

/-- The entries are the reversed edges: one for each target, with each of its
sources as often as the edge occurs, and no other. -/
structure Reversed (content : Str) (es : List (Str × List Str)) : Prop where
  nodup : (es.map Prod.fst).Nodup
  mem : ∀ t, t ∈ es.map Prod.fst ↔ ∃ s, (t, s) ∈ edges content
  count : ∀ t s, (flatten es).count (t, s) = (edges content).count (t, s)

/-- It is enough that the entries hold the edges, each target once and with a source. -/
theorem Reversed.of_perm {content : Str} {es : List (Str × List Str)}
    (hnodup : (es.map Prod.fst).Nodup) (hvalues : ∀ e ∈ es, e.2 ≠ [])
    (h : (flatten es).Perm (edges content)) : Reversed content es where
  nodup := hnodup
  mem t := by
    constructor
    · intro ht
      obtain ⟨⟨t, vs⟩, he, rfl⟩ := List.mem_map.mp ht
      obtain ⟨s, hs⟩ := List.exists_mem_of_ne_nil vs (hvalues _ he)
      exact ⟨s, h.mem_iff.mp (List.mem_flatMap.mpr ⟨_, he, List.mem_map.mpr ⟨s, hs, rfl⟩⟩)⟩
    · rintro ⟨s, hs⟩
      obtain ⟨e, he, hp⟩ := List.mem_flatMap.mp (h.mem_iff.mpr hs)
      obtain ⟨_, -, hp⟩ := List.mem_map.mp hp
      obtain rfl : e.1 = t := congrArg Prod.fst hp
      exact List.mem_map_of_mem he
  count t s := h.count_eq (t, s)

/-- What the application is for: all tasks return 0, and the output files together
list the reversed edges of the well-formed lines. -/
def Exact (job : Job) (content : Str) (ms rs : List ℕ) (d : Disk) : Prop :=
  let maps := job.mapPhase ms d
  let reduces := job.reducePhase rs maps.2
  (∀ t ∈ maps.1 ++ reduces.1, t.outcome = .ok 0) ∧
    ∃ texts : ℕ → Str, (∀ r < job.nrReducer, reduces.2 (job.output r) = some (texts r)) ∧
      Reversed content (listed job.nrReducer texts)

/-- A reduce call that returns has emitted the values as they came. -/
theorem reduceFn_eq {k : Str} {vs : List Str} (h : (reduceFn k vs).2 = none) :
    (reduceFn k vs).1 = [(k, vs)] := by
  by_cases hlen : vs.length < 2 ^ 31
  · rw [reduceFn, copyValues_eq hlen]
  · rw [reduceFn, copyValues_overflow (not_lt.mp hlen)] at h
    simp at h

theorem reduceFn_returns {vs : List Str} (h : vs.length < 2 ^ 31) (k : Str) :
    (reduceFn k vs).2 = none := by
  rw [reduceFn, copyValues_eq h]

variable {job : Job} {content : Str}

/-- When all reduce calls return, the output files list the reducers' entries. -/
theorem listed_outputContent (hjob : job.iface = iface)
    (hreduce : ∀ r < job.nrReducer, job.ReduceReturns content r) :
    listed job.nrReducer (job.outputContent content) =
      (List.range job.nrReducer).flatMap (job.entries content) := by
  refine List.flatMap_congr fun r hr => ?_
  have houtputs : job.outputs content r = job.entries content r := by
    have hone : ∀ e ∈ job.entries content r, (job.iface.reduceFn e.1 e.2).1 = [e] := by
      intro e he
      have hret := hreduce r (List.mem_range.mp hr) e he
      rw [hjob] at hret ⊢
      exact reduceFn_eq hret
    rw [Job.outputs, List.flatMap_congr hone, List.flatMap_singleton']
  have hlines : lines '\n' (job.outputContent content r) =
      (job.entries content r).map entryLine := by
    rw [Job.outputContent, houtputs]
    refine lines_entriesText fun e he => ?_
    obtain ⟨hk, hvs⟩ := Job.words_of_mem_entries he
    exact ⟨hk.newline_not_mem, fun v hv => (hvs v hv).newline_not_mem⟩
  have hparse : ∀ e ∈ job.entries content r, parseLine (entryLine e) = e :=
    fun e he => parseLine_entryLine (Job.words_of_mem_entries he)
  rw [hlines, List.map_map]
  exact (List.map_congr_left hparse).trans (List.map_id _)

/-- An exact run is one whose tasks return and whose entries are the reversed edges. -/
theorem exact_iff (hjob : job.iface = iface) (hapart : job.InputApart) {d : Disk}
    (hd : d job.input = some content) {ms rs : List ℕ} (hms : ms.Perm (List.range job.nrMapper))
    (hrs : rs.Perm (List.range job.nrReducer)) :
    Exact job content ms rs d ↔
      (∀ m < job.nrMapper, job.MapReturns content m) ∧
        (∀ r < job.nrReducer, job.ReduceReturns content r) ∧
        Reversed content ((List.range job.nrReducer).flatMap (job.entries content)) := by
  constructor
  · rintro ⟨houtcomes, texts, htexts, hrev⟩
    have hmap := Job.mapReturns_of_outcomes hapart hms hd
      fun t ht => houtcomes t (List.mem_append_left _ ht)
    have hreduce := Job.reduceReturns_of_outcomes hapart hms hrs hmap hd
      fun t ht => houtcomes t (List.mem_append_right _ ht)
    obtain ⟨-, -, -, houts⟩ := Job.phases_eq hapart hms hrs hmap hreduce hd
    have hlisted : listed job.nrReducer texts =
        listed job.nrReducer (job.outputContent content) := by
      refine List.flatMap_congr fun r hr => ?_
      have hr' := List.mem_range.mp hr
      rw [Option.some.inj ((htexts r hr').symm.trans (houts r hr'))]
    rw [hlisted, listed_outputContent hjob hreduce] at hrev
    exact ⟨hmap, hreduce, hrev⟩
  · rintro ⟨hmap, hreduce, hrev⟩
    obtain ⟨-, -, -, houts⟩ := Job.phases_eq hapart hms hrs hmap hreduce hd
    refine ⟨Job.outcomes_of_returns hapart hms hrs hmap hreduce hd, job.outputContent content,
      houts, ?_⟩
    rwa [listed_outputContent hjob hreduce]

/-! ### Which files are read back

From the lines to the temp files. A line always emits one pair, so a temp file is a sublist of
the lines, and what has to be looked at is which lines meet there. -/

/-- What the lines of the input emit, in order. -/
def emissions (content : Str) : List (Str × Str) := (lines '\n' content).map parts

/-- The lines of the input have no white space in them. -/
def SpacelessLines (content : Str) : Prop :=
  ∀ line ∈ lines '\n' content, ∀ c ∈ line, isspace c = false

theorem SpacelessLines.of_all
    (h : ((lines '\n' content).all fun line => line.all fun c => !isspace c) = true) :
    SpacelessLines content := by
  simpa [SpacelessLines] using h

theorem SpacelessLines.emissions (h : SpacelessLines content) :
    ∀ p ∈ emissions content, Spaceless p := by
  intro p hp
  obtain ⟨line, hline, rfl⟩ := List.mem_map.mp hp
  exact ⟨fun c hc => h line hline c (List.dropWhile_subset _ (List.mem_of_mem_tail hc)),
    fun c hc => h line hline c (List.takeWhile_subset _ hc)⟩

/-- Numbering the lines makes no difference to their sides. -/
theorem map_parts_zipIdx (ls : List Str) (n : ℕ) :
    ((ls.zipIdx n).map fun line => parts line.1) = ls.map parts := by
  conv_rhs => rw [← List.zipIdx_map_fst n ls, List.map_map]
  rfl

/-- Each line of the input emits its two sides. -/
theorem mapFn_line (hjob : job.iface = iface) {line : Str × ℕ}
    (hline : line ∈ (lines '\n' content).zipIdx) :
    (job.iface.mapFn (toStr line.2) line.1).1 = [parts line.1] := by
  have hmem : line.1 ∈ lines '\n' content := by
    rw [← List.zipIdx_map_fst 0 (lines '\n' content)]
    exact List.mem_map_of_mem hline
  rw [hjob]
  exact congrArg Prod.fst (mapFn_eq (not_mem_of_mem_lines hmem) (toStr line.2))

theorem emitted_eq (hjob : job.iface = iface) (m : ℕ) :
    job.emitted content m =
      (part (lineOwner job.hashers job.nrMapper) (lines '\n' content).zipIdx m).map
        fun line => parts line.1 := by
  rw [Job.emitted_eq, List.map_eq_flatMap]
  exact List.flatMap_congr fun line hline => mapFn_line hjob (mem_part.mp hline).1

theorem sequentialPairs_eq (hjob : job.iface = iface) :
    job.sequentialPairs content = emissions content := by
  rw [Job.sequentialPairs, List.flatMap_congr fun line hline => mapFn_line hjob hline,
    ← List.map_eq_flatMap]
  exact map_parts_zipIdx _ _

/-- A mapper emits some of the lines' pairs, in their order. -/
theorem emitted_sublist (hjob : job.iface = iface) (m : ℕ) :
    (job.emitted content m).Sublist (emissions content) := by
  rw [emitted_eq hjob, emissions, ← map_parts_zipIdx _ 0]
  exact List.filter_sublist.map _

/-- In no temp file does a half edge do harm to an edge behind it. This depends on the number of
workers and on both hash functions, and can be evaluated for given ones. -/
def Aligned (job : Job) (content : Str) : Prop :=
  ∀ m < job.nrMapper, ∀ r < job.nrReducer, (job.routed content m r).Pairwise Harmless

instance : Decidable (Aligned job content) :=
  inferInstanceAs (Decidable (∀ m < job.nrMapper, ∀ r < job.nrReducer,
    (job.routed content m r).Pairwise Harmless))

/-- The pairs of a temp file are among those of the lines, in their order. -/
theorem routed_sublist (hjob : job.iface = iface) (m r : ℕ) :
    (job.routed content m r).Sublist (emissions content) :=
  List.filter_sublist.trans (emitted_sublist hjob m)

/-- Where no half edge of the whole file does harm to a later line, no distribution of
the lines can bring it close to one. -/
theorem Aligned.of_emissions (hjob : job.iface = iface)
    (h : (emissions content).Pairwise Harmless) : Aligned job content :=
  fun m _ r _ => h.sublist (routed_sublist hjob m r)

/-- If no half edge does harm, every reader gets the full edges written for it. -/
theorem readsBack (hjob : job.iface = iface) (hspace : SpacelessLines content)
    (h : Aligned job content) : job.ReadsBack content full := by
  intro m hm r hr
  have hsub : (job.routed content m r).Sublist (emissions content) := routed_sublist hjob m r
  exact filePairs_of_harmless (fun p hp => hspace.emissions p (hsub.subset hp)) (h m hm r hr)

/-- A job in whose temp files no half edge does harm reverses its input exactly: what the
reducers get are the edges, and they do nothing with them but list them. -/
theorem exact_of_aligned (hjob : job.iface = iface) (hapart : job.InputApart) {d : Disk}
    (hd : d job.input = some content) {ms rs : List ℕ} (hms : ms.Perm (List.range job.nrMapper))
    (hrs : rs.Perm (List.range job.nrReducer)) (hspace : SpacelessLines content)
    (hlen : (lines '\n' content).length < 2 ^ 31) (h : Aligned job content) :
    Exact job content ms rs d := by
  have hback := readsBack hjob hspace h
  -- The readers get the full pairs only, and these are the edges.
  have hkept : ((job.pairs content).filter full).Perm (edges content) := by
    rw [edges, ← emissions, ← sequentialPairs_eq hjob]
    exact Job.pairs_perm.filter _
  have hentries := Job.entries_perm hback
  have hkeys : (((List.range job.nrReducer).flatMap (job.entries content)).map Prod.fst).Perm
      ((edges content).map Prod.fst).dedup :=
    (Shuffle.reference_keys ((job.pairs content).filter full) ▸ hentries.map Prod.fst).trans
      (hkept.map _).dedup
  have hshort : ∀ r < job.nrReducer, ∀ e ∈ job.entries content r, e.2.length < 2 ^ 31 := by
    intro r hr e he
    have hmem := hentries.mem_iff.mp (List.mem_flatMap.mpr ⟨r, List.mem_range.mpr hr, he⟩)
    have hedges : (edges content).length ≤ (lines '\n' content).length := by
      rw [edges]
      exact (List.length_filter_le _ _).trans_eq (List.length_map _)
    rw [(Shuffle.mem_reference.mp hmem).2]
    have hvalues := List.length_filterMap_le
      (fun p : Str × Str => if p.1 = e.1 then some p.2 else none) ((job.pairs content).filter full)
    rw [hkept.length_eq] at hvalues
    exact lt_of_le_of_lt hvalues (lt_of_le_of_lt hedges hlen)
  refine (exact_iff hjob hapart hd hms hrs).mpr ⟨fun m hm => ?_, fun r hr e he => ?_, ?_, ?_, ?_⟩
  · exact Job.mapReturns_of_lines hlen (fun line _ => by rw [hjob]; rfl) hm
  · rw [hjob]
    exact reduceFn_returns (hshort r hr e he) e.1
  · exact hkeys.nodup_iff.mpr (List.nodup_dedup _)
  · intro t
    rw [hkeys.mem_iff, List.mem_dedup]
    simp
  · intro t s
    have hflat := (Job.flatten_flatMap_entries_perm (List.range job.nrReducer)).trans
      ((Job.shuffled_perm hback).trans hkept)
    exact hflat.count_eq _

/-! ### Which jobs cannot be exact

Counting is enough here. Two stray words make one pair too many, and no reader can get fewer
pairs than full edges were written for it, so no other file makes up for it. -/

/-- A job of `n` workers on the file, with given hash functions. -/
abbrev workers (hashers : Hashers) (n : ℕ) (hn : 0 < n ∧ n < 2 ^ 31) : Job :=
  Job.sampleJob hashers iface n hn

/-- Full edges have two sides to read, half edges one. -/
theorem length_flatMap_pieces (ps : List (Str × Str)) :
    (ps.flatMap pieces).length = 2 * (ps.filter full).length + (ps.filter half).length := by
  induction ps with
  | nil => rfl
  | cons p ps ih =>
    rw [List.flatMap_cons, List.length_append, ih]
    obtain ⟨t, s⟩ := p
    cases t <;> cases s <;> simp [full, half, pieces] <;> omega

/-- A reader gets one pair for each full edge, and one more for every two half edges. -/
theorem length_filePairs {ps : List (Str × Str)} (h : ∀ p ∈ ps, Spaceless p) :
    (filePairs (some (tempText ps))).length =
      (ps.filter full).length + (ps.filter half).length / 2 := by
  rw [filePairs, Option.getD_some, tokens_tempText_pieces h, length_pairUp,
    length_flatMap_pieces]
  omega

/-- The full edges written for all reducers are the edges of the input. -/
theorem routed_full_perm (hjob : job.iface = iface) :
    ((List.range job.nrReducer).flatMap fun r => (List.range job.nrMapper).flatMap fun m =>
      (job.routed content m r).filter full).Perm (edges content) := by
  have hcolumn : ∀ r ∈ List.range job.nrReducer,
      ((List.range job.nrMapper).flatMap fun m => (job.routed content m r).filter full) =
        part (route job.hashers job.nrReducer) ((job.pairs content).filter full) r := by
    intro r _
    rw [Job.pairs, List.filter_flatMap, part, List.filter_flatMap]
    refine List.flatMap_congr fun m _ => ?_
    rw [Job.routed, part, List.filter_comm]
  rw [List.flatMap_congr hcolumn, edges, ← emissions, ← sequentialPairs_eq hjob]
  exact (parts_perm fun p _ => Nat.mod_lt _ job.nrReducer_pos).trans (Job.pairs_perm.filter _)

/-- No temp file of an exact run holds two half edges: each reader gets at least as many
pairs as full edges were written for it, and all together they get no more. -/
theorem half_le_one (hjob : job.iface = iface) (hspace : SpacelessLines content)
    (hread : ((List.range job.nrReducer).flatMap (job.shuffled content)).Perm (edges content))
    {m r : ℕ} (hm : m < job.nrMapper) (hr : r < job.nrReducer) :
    ((job.routed content m r).filter half).length ≤ 1 := by
  by_contra htwo
  have hlength : ∀ m r, (filePairs (some (job.tempContent content m r))).length =
      ((job.routed content m r).filter full).length +
        ((job.routed content m r).filter half).length / 2 := fun m r =>
    length_filePairs fun p hp => hspace.emissions p ((routed_sublist hjob m r).subset hp)
  have hfile : ((job.routed content m r).filter full).length <
      (filePairs (some (job.tempContent content m r))).length := by
    rw [hlength]
    omega
  have hle : ∀ m r, ((job.routed content m r).filter full).length ≤
      (filePairs (some (job.tempContent content m r))).length := fun m r => by
    rw [hlength]
    omega
  have hcolumn := length_flatMap_lt (fun m' _ => hle m' r) (List.mem_range.mpr hm) hfile
  have hall := length_flatMap_lt (fun r' _ => length_flatMap_le fun m' _ => hle m' r')
    (List.mem_range.mpr hr) hcolumn
  rw [(routed_full_perm hjob).length_eq] at hall
  exact absurd hread.length_eq hall.ne'

/-- What the readers of an exact run get. -/
theorem Exact.shuffled_perm (hrev : Reversed content
      ((List.range job.nrReducer).flatMap (job.entries content))) :
    ((List.range job.nrReducer).flatMap (job.shuffled content)).Perm (edges content) := by
  refine (Job.flatten_flatMap_entries_perm _).symm.trans (List.perm_iff_count.mpr fun p => ?_)
  exact hrev.count p.1 p.2

end ReverseWeblinkGraph

open ReverseWeblinkGraph in
/-- **When ReverseWeblinkGraph is exact.** For every number of workers, all hash
functions, every file without white space in its lines and every order of the tasks:
the output lists exactly the reversed edges if the line numbers are `int`s and in no
temp file a half edge (a line with one empty side; one without a comma has no target) is
followed by a pair other than one without sides or an edge from the side that is there
to itself. It can do so only if the line numbers are `int`s and no two half edges meet
in a temp file. -/
theorem reverseWeblinkGraph_exact (job : Job) (hjob : job.iface = iface)
    (hapart : job.InputApart) (content : Str) (hspace : SpacelessLines content) (d : Disk)
    (hd : d job.input = some content) {ms rs : List ℕ}
    (hms : ms.Perm (List.range job.nrMapper)) (hrs : rs.Perm (List.range job.nrReducer)) :
    ((lines '\n' content).length < 2 ^ 31 ∧ Aligned job content →
      ReverseWeblinkGraph.Exact job content ms rs d) ∧
    (ReverseWeblinkGraph.Exact job content ms rs d →
      (lines '\n' content).length < 2 ^ 31 ∧
        ∀ m < job.nrMapper, ∀ r < job.nrReducer,
          ((job.routed content m r).filter half).length ≤ 1) := by
  constructor
  · rintro ⟨hlen, haligned⟩
    exact exact_of_aligned hjob hapart hd hms hrs hspace hlen haligned
  · intro hexact
    obtain ⟨hmap, -, hrev⟩ := (exact_iff hjob hapart hd hms hrs).mp hexact
    exact ⟨(hmap 0 job.nrMapper_pos).length_lt, fun m hm r hr =>
      half_le_one hjob hspace (Exact.shuffled_perm hrev) hm hr⟩

open ReverseWeblinkGraph in
/-- With a mapper for each of the two lines the half edge has a temp file of its own. -/
theorem reverseWeblinkGraph_exact_sample :
    ReverseWeblinkGraph.Exact
      (workers ⟨fun n => n.natAbs.toUInt64, fun s => s.length.toUInt64⟩ 2 Job.two_workers)
      "x\na,b\n".toList [1, 0] [0, 1] (Job.sampleDisk "x\na,b\n".toList) :=
  (reverseWeblinkGraph_exact
    (workers ⟨fun n => n.natAbs.toUInt64, fun s => s.length.toUInt64⟩ 2 Job.two_workers) rfl
    Job.sampleJob_inputApart "x\na,b\n".toList (.of_all (by decide))
    (Job.sampleDisk "x\na,b\n".toList) (Job.sampleDisk_input _)
    (show [1, 0].Perm (List.range 2) by decide)
    (show [0, 1].Perm (List.range 2) by decide)).1
    ⟨by decide, by decide⟩

open ReverseWeblinkGraph in
/-- A line without a comma takes the target of the edge behind it, and the edge is lost. -/
theorem reverseWeblinkGraph_not_exact :
    SpacelessLines "x\na,b\n".toList ∧
      ¬ ReverseWeblinkGraph.Exact (workers ⟨fun _ => 0, fun _ => 0⟩ 1 Job.one_worker)
        "x\na,b\n".toList [0] [0] (Job.sampleDisk "x\na,b\n".toList) := by
  refine ⟨.of_all (by decide), fun h => ?_⟩
  obtain ⟨-, -, hrev⟩ := (exact_iff rfl Job.sampleJob_inputApart (Job.sampleDisk_input _)
    (.refl _) (.refl _)).mp h
  exact absurd ((hrev.mem "b".toList).mpr ⟨"a".toList, by decide⟩) (by decide)

open ReverseWeblinkGraph in
/-- Three edges in a circle behind a half edge that starts it: the shift turns each edge
into the one before it, so the output is exact although the half edge does harm. -/
theorem reverseWeblinkGraph_lucky :
    ¬ Aligned (workers ⟨fun _ => 0, fun _ => 0⟩ 1 Job.one_worker) "c\nb,a\na,c\nc,b".toList ∧
      ReverseWeblinkGraph.Exact (workers ⟨fun _ => 0, fun _ => 0⟩ 1 Job.one_worker)
        "c\nb,a\na,c\nc,b".toList [0] [0]
        (Job.sampleDisk "c\nb,a\na,c\nc,b".toList) := by
  refine ⟨by decide, (exact_iff rfl Job.sampleJob_inputApart (Job.sampleDisk_input _)
    (.refl _) (.refl _)).mpr ⟨fun m hm => ?_, fun r hr e he => ?_, ?_⟩⟩
  · exact Job.mapReturns_of_lines (by decide) (fun _ _ => rfl) hm
  · obtain rfl : r = 0 := Nat.lt_one_iff.mp hr
    have hshort : ∀ e ∈ (workers ⟨fun _ => 0, fun _ => 0⟩ 1 Job.one_worker).entries
        "c\nb,a\na,c\nc,b".toList 0, e.2.length < 2 ^ 31 := by decide
    exact reduceFn_returns (hshort e he) e.1
  · exact .of_perm (by decide) (by decide) (by decide)

end MapReduceCpp
