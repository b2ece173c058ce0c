import MapReduceCpp.Reference

/-!
# MapReduceCpp.Clients

What the client applications share: the word loop of their map functions, the
value loop of their reduce functions, and the shape of the result.

All three reduce functions run over their values with an `int` index. The index is
incremented once more than there are values before it, so a value list of `2^31`
entries or more overflows it (`forValues_overflow`); below that the loop is a fold
(`forValues_eq_foldlM`).

An application whose reduce function emits one entry for each key, determined by
the key, has an output that does not depend on the number of workers or on the
hash functions except for the order of the lines (`Job.outputLines_perm`).
-/

namespace MapReduceCpp

open InputStream Grouping

/-- The words of a line: `while (iss >> word)`. -/
def readWords (value : Str) : List Str :=
  collect (extract isspace) (value.length + 1) (ofList value)

theorem readWords_eq (value : Str) : readWords value = tokens isspace value :=
  collect_extract (live_ofList value) (Nat.lt_succ_self _)

/-- `for (int i = 0; i < values.size(); i++)` around a loop body. The comparison is one of
unsigned numbers, and the index is incremented behind every turn, also the last one. -/
def forValues {σ : Type} (body : σ → Str → Except Fault σ) :
    List Str → ℤ → σ → Except Fault σ
  | [], _, s => .ok s
  | value :: rest, i, s => do
    let s' ← body s value
    let i' ← intAdd i 1
    forValues body rest i' s'

theorem ok_bind {α β : Type} (a : α) (f : α → Except Fault β) : (.ok a >>= f) = f a := rfl

theorem error_bind {α β : Type} (fault : Fault) (f : α → Except Fault β) :
    (.error fault >>= f) = .error fault := rfl

section ForValues

variable {σ : Type} {body : σ → Str → Except Fault σ}

/-- As long as the index stays an `int`, the loop is a fold. -/
theorem forValues_eq_foldlM (values : List Str) {i : ℕ} (h : i + values.length < 2 ^ 31) (s : σ) :
    forValues body values i s = values.foldlM body s := by
  induction values generalizing i s with
  | nil => rfl
  | cons v vs ih =>
    rw [List.length_cons] at h
    have hadd : intAdd i 1 = .ok ((i + 1 : ℕ) : ℤ) :=
      intAdd_ok ⟨by omega, by push_cast; omega⟩
    rw [forValues, List.foldlM_cons, hadd]
    refine congrArg (body s v >>= ·) (funext fun s' => ?_)
    rw [ok_bind]
    exact ih (by omega) s'

/-- A body that never fails does not save the loop from overflowing its index: the increment
comes before the comparison that would end it. -/
theorem forValues_overflow (hbody : ∀ s v, ∃ s', body s v = .ok s') (values : List Str) {i : ℕ}
    (hi : i < 2 ^ 31) (h : 2 ^ 31 ≤ i + values.length) (s : σ) :
    forValues body values i s = .error .undefined := by
  induction values generalizing i s with
  | nil => exact absurd h (by simpa using hi)
  | cons v vs ih =>
    rw [List.length_cons] at h
    obtain ⟨s', hs'⟩ := hbody s v
    rw [forValues, hs', ok_bind]
    by_cases hlast : i + 1 < 2 ^ 31
    · have hadd : intAdd i 1 = .ok ((i + 1 : ℕ) : ℤ) :=
        intAdd_ok ⟨by omega, by push_cast; omega⟩
      rw [hadd, ok_bind]
      exact ih hlast (by omega) s'
    · have hadd : intAdd i 1 = .error .undefined :=
        if_neg fun hin => hlast (by have := hin.2; omega)
      rw [hadd, error_bind]

end ForValues

/-- `for (...) v3.push_back(values[i])`. -/
def copyValues (values : List Str) : Except Fault (List Str) :=
  forValues (fun v3 value => .ok (v3 ++ [value])) values 0 []

theorem copyValues_eq {values : List Str} (h : values.length < 2 ^ 31) :
    copyValues values = .ok values := by
  have hfold : ∀ (vs acc : List Str),
      vs.foldlM (fun v3 value => (.ok (v3 ++ [value]) : Except Fault (List Str))) acc =
        .ok (acc ++ vs) := by
    intro vs
    induction vs with
    | nil => intro acc; simp [pure, Except.pure]
    | cons v vs ih =>
      intro acc
      rw [List.foldlM_cons]
      simpa [bind, Except.bind] using ih (acc ++ [v])
  have hloop := @forValues_eq_foldlM _ (fun v3 value => .ok (v3 ++ [value])) values 0
    (by omega) ([] : List Str)
  rw [hfold, List.nil_append] at hloop
  exact hloop

theorem copyValues_overflow {values : List Str} (h : 2 ^ 31 ≤ values.length) :
    copyValues values = .error .undefined :=
  forValues_overflow (fun _ _ => ⟨_, rfl⟩) values (i := 0) (by omega) (by omega) []

/-! ### Output lines

An application that makes one entry of each key, out of what it is given for the key, has the
lines of its output determined by the input. They come in the order of the keys within a file,
and which file they are in depends on the hash. -/

theorem Word.newline_not_mem {w : Str} (h : Word w) : '\n' ∉ w := by
  intro hmem
  have := h.2 _ hmem
  simp at this

/-- A reader of words gets the key of an output line and then its values, since neither
the blank behind each value nor the one behind the key is part of a word. -/
theorem tokens_entryLine {e : Str × List Str} (h : Word e.1 ∧ ∀ v ∈ e.2, Word v) :
    tokens isspace (entryLine e) = e.1 :: e.2 := by
  obtain ⟨k, vs⟩ := e
  obtain ⟨hk, hvs⟩ := h
  have hvalues : tokens isspace (vs.flatMap (· ++ " ".toList)) = vs := by
    induction vs with
    | nil => rfl
    | cons v vs ih =>
      have hcons : (v :: vs).flatMap (· ++ " ".toList) =
          v ++ ' ' :: vs.flatMap (· ++ " ".toList) := by simp
      rw [hcons, tokens_word_append_cons (hvs v List.mem_cons_self) _ isspace_space,
        ih hk fun v' h' => hvs v' (List.mem_cons_of_mem _ h')]
  have hline : entryLine (k, vs) = k ++ ' ' :: vs.flatMap (· ++ " ".toList) := by
    simp [entryLine]
  rw [hline, tokens_word_append_cons hk _ isspace_space, hvalues]

namespace Job

variable {job : Job} {content : Str}

/-- The lines of all output files of a job that has run. -/
def outputLines (job : Job) (content : Str) : List Str :=
  (List.range job.nrReducer).flatMap fun r => lines '\n' (job.outputContent content r)

/-- When each key is reduced to one list that it determines, there is one output line for each
key, and nothing else, whichever the hash functions and however many the workers. -/
theorem outputLines_perm (hwords : job.EmitsWords content) {F : Str → List Str}
    (hF : ∀ k vs, (k, vs) ∈ Shuffle.reference (job.pairs content) →
      job.iface.reduceFn k vs = ([(k, F k)], none))
    (hlist : ∀ k ∈ (job.sequentialPairs content).map Prod.fst, ∀ v ∈ F k, '\n' ∉ v) :
    (∀ r < job.nrReducer, job.ReduceReturns content r) ∧
      (job.outputLines content).Perm
        (((job.sequentialPairs content).map Prod.fst).dedup.map fun k => entryLine (k, F k)) := by
  have hentries := entries_perm hwords.readsBack
  rw [List.filter_true] at hentries
  have hmem : ∀ r < job.nrReducer, ∀ e ∈ job.entries content r,
      e ∈ Shuffle.reference (job.pairs content) := fun r hr e he =>
    hentries.mem_iff.mp (List.mem_flatMap.mpr ⟨r, List.mem_range.mpr hr, he⟩)
  have houtputs : ∀ r < job.nrReducer,
      job.outputs content r = (job.entries content r).map fun e => (e.1, F e.1) := by
    intro r hr
    have hone : ∀ e ∈ job.entries content r,
        (job.iface.reduceFn e.1 e.2).1 = [(e.1, F e.1)] :=
      fun e he => by rw [hF e.1 e.2 (hmem r hr e he)]
    rw [outputs, List.flatMap_congr hone, List.map_eq_flatMap]
  refine ⟨fun r hr e he => by rw [hF e.1 e.2 (hmem r hr e he)], ?_⟩
  have hkey : ∀ r < job.nrReducer, ∀ e ∈ job.entries content r,
      e.1 ∈ (job.sequentialPairs content).map Prod.fst := fun r hr e he =>
    (pairs_perm.map _).mem_iff.mp (Shuffle.mem_reference.mp (hmem r hr e he)).1
  -- No key or value holds a newline, so the lines of a file are its entries.
  have hlines : ∀ r ∈ List.range job.nrReducer,
      lines '\n' (job.outputContent content r) =
        (job.entries content r).map fun e => entryLine (e.1, F e.1) := by
    intro r hr
    have hr' := List.mem_range.mp hr
    rw [outputContent, houtputs r hr', lines_entriesText, List.map_map]
    · rfl
    · intro e he
      obtain ⟨e', he', rfl⟩ := List.mem_map.mp he
      have hk := hkey r hr' e' he'
      obtain ⟨p, hp, hpk⟩ := List.mem_map.mp hk
      exact ⟨hpk ▸ (hwords p hp).1.newline_not_mem, hlist e'.1 hk⟩
  rw [outputLines, List.flatMap_congr hlines, ← List.map_flatMap]
  refine (hentries.map _).trans ?_
  rw [Shuffle.reference, List.map_map]
  exact ((pairs_perm.map Prod.fst).dedup).map _

/-- A run of a job that reduces each key to one list it determines: all codes are 0, and the
lines of all output files are one for each key. -/
theorem run_lines (hapart : job.InputApart) {ms rs : List ℕ}
    (hms : ms.Perm (List.range job.nrMapper)) (hrs : rs.Perm (List.range job.nrReducer))
    (hmap : ∀ m < job.nrMapper, job.MapReturns content m) (hwords : job.EmitsWords content)
    {F : Str → List Str}
    (hF : ∀ k vs, (k, vs) ∈ Shuffle.reference (job.pairs content) →
      job.iface.reduceFn k vs = ([(k, F k)], none))
    (hlist : ∀ k ∈ (job.sequentialPairs content).map Prod.fst, ∀ v ∈ F k, '\n' ∉ v) {d : Disk}
    (hd : d job.input = some content) :
    (∀ t ∈ (job.mapPhase ms d).1 ++ (job.reducePhase rs (job.mapPhase ms d).2).1,
      t.outcome = .ok 0) ∧
      ∃ texts : ℕ → Str,
        (∀ r < job.nrReducer,
          (job.reducePhase rs (job.mapPhase ms d).2).2 (job.output r) = some (texts r)) ∧
        ((List.range job.nrReducer).flatMap fun r => lines '\n' (texts r)).Perm
          (((job.sequentialPairs content).map Prod.fst).dedup.map fun k =>
            entryLine (k, F k)) := by
  obtain ⟨hreduce, hperm⟩ := outputLines_perm hwords hF hlist
  obtain ⟨-, -, -, houts⟩ := phases_eq hapart hms hrs hmap hreduce hd
  exact ⟨outcomes_of_returns hapart hms hrs hmap hreduce hd, job.outputContent content, houts,
    hperm⟩

end Job

end MapReduceCpp
