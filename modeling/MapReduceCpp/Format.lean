import MapReduceCpp.Reference

/-!
# MapReduceCpp.Format

The text formats between the stages, as encodings.

The writer of a temp file frames a pair by a space and a newline, the reader by
runs of white space. So the reader inverts the writer for lists of words and for
no others (`readText_tempText_iff`): whatever it reads is a word, so a list it
reads back in full consists of words.

Where no token and no pair reaches from one temp file into the next, reading the
files one by one and merging what they hold is reading them in one piece
(`gatherTempFiles_eq_readText`).

An output file has a field, a space, and so on, up to the newline, for every entry.
Nothing in the repository reads it back, but it can be read: taken apart at the
newlines and then at the spaces it gives the entries it was written for, if their
fields hold neither (`readEntries_entriesText_iff`), so it cannot have been written
for others (`writeKeyValVector_inj`).
-/

namespace MapReduceCpp

open InputStream Grouping

/-- Grouped pairs determine which pairs there are, though not their order. -/
theorem mem_iff_of_groups {data : ValueMap} {ps qs : List (Str × Str)} (h : Groups data ps)
    (h' : Groups data qs) (p : Str × Str) : p ∈ ps ↔ p ∈ qs := by
  obtain ⟨k, v⟩ := p
  rw [← mem_valuesOf, ← mem_valuesOf, ← h.getD, h'.getD]

/-- The reader needs no more iterations than the text has characters. -/
theorem readTextLoop_eq_ofPairs (text : Str) {fuel : ℕ} (hf : text.length < fuel) :
    readTextLoop fuel (ifstream (some text)) ∅ = ofPairs (pairUp (tokens isspace text)) := by
  have hgroups := readTextLoop_groups (live_ofList text) hf groups_empty
  rw [List.nil_append] at hgroups
  exact hgroups.eq_ofPairs

/-- **The temp file format is exact for words only.** Reading what was written for
a list of pairs gives the pairs grouped by key, in order, if and only if all keys
and values are non-empty and free of white space. In any case the reader ends, and
groups the consecutive pairs of the text's tokens, dropping an unpaired last one. -/
theorem readText_tempText_iff (ps : List (Str × Str)) :
    (Groups (readTextOf (some (tempText ps))) ps ↔ ∀ p ∈ ps, Word p.1 ∧ Word p.2) ∧
      (∀ fuel, (tempText ps).length < fuel →
        readTextLoop fuel (ifstream (some (tempText ps))) ∅ =
          ofPairs (pairUp (tokens isspace (tempText ps)))) ∧
      ∀ (acc : Access Path) (d : Disk) (p : Path), acc.view d p = some (tempText ps) →
        (readText p).run acc d = (.ok (ofPairs (pairUp (tokens isspace (tempText ps)))), d) := by
  have hread := readTextOf_groups (tempText ps)
  refine ⟨⟨fun h p hp => ?_, fun hwords => ?_⟩, fun fuel hf => readTextLoop_eq_ofPairs _ hf,
    fun acc d p hp => ?_⟩
  · have hmem : p ∈ filePairs (some (tempText ps)) := (mem_iff_of_groups h hread p).mp hp
    exact wordPair_of_mem_filePairs hmem
  · rwa [tokens_tempText hwords, pairUp_flatMap] at hread
  · simp only [readText, FileProg.bind_eq, FileProg.run_bind, FileProg.run_readFile, hp,
      FileProg.pure_eq, FileProg.run_done, hread.eq_ofPairs]

/-- A value with a blank shifts all later pairs. -/
example : pairUp (tokens isspace (tempText
    [("a".toList, "x y".toList), ("b".toList, "z".toList)])) =
      [("a".toList, "x".toList), ("y".toList, "b".toList)] := by decide

/-! ### Several temp files

A reducer reads its files one by one, each with a reader of its own. A pair could only be made
up of a token at the end of one file and one at the start of the next if the files were one, and
the two conditions rule that out. -/

/-- Files with an even number of tokens, each ending a line, hold together the pairs
each of them holds. -/
theorem filePairs_flatten {fs : List Str} (heven : ∀ f ∈ fs, Even (tokens isspace f).length)
    (hend : ∀ f ∈ fs, f = [] ∨ f.getLast? = some '\n') :
    filePairs (some fs.flatten) = fs.flatMap fun f => filePairs (some f) := by
  have hspace : ∀ f ∈ fs, ∀ c ∈ f.getLast?, isspace c = true := by
    intro f hf c hc
    rcases hend f hf with rfl | hlast
    · cases hc
    · obtain rfl := Option.some.inj (hlast.symm.trans hc)
      rfl
  rw [filePairs, Option.getD_some, tokens_flatten hspace, List.flatMap_def,
    pairUp_flatten (List.forall_mem_map.mpr heven), List.flatMap_map]
  rfl

/-- **Reading the temp files one by one is reading them in one piece**, if each has an
even number of tokens and is empty or ends a line. The keys are those of the files, and
the values of a key are those it has in the first file, then those in the second, and so
on. At no point does the merge lose a key or overwrite a list, whichever branch it takes. -/
theorem gatherTempFiles_eq_readText {fs : List Str}
    (heven : ∀ f ∈ fs, Even (tokens isspace f).length)
    (hend : ∀ f ∈ fs, f = [] ∨ f.getLast? = some '\n') {dir : Str} {r : ℕ} {acc : Access Path}
    {d : Disk}
    (hview : ∀ (m : ℕ) (f : Str), fs[m]? = some f → acc.view d (tempPath dir m r) = some f) :
    (gatherTempFiles dir r (List.range fs.length) ∅).run acc d =
        (.ok (readTextOf (some fs.flatten)), d) ∧
      (∀ k, k ∈ readTextOf (some fs.flatten) ↔ ∃ f ∈ fs, k ∈ readTextOf (some f)) ∧
      (∀ k, (readTextOf (some fs.flatten)).getD k [] =
        fs.flatMap fun f => (readTextOf (some f)).getD k []) ∧
      (∀ (keyValueTemp keyValueAcc : ValueMap) (merged rest : List (Str × List Str)),
        keyValueTemp.toList = merged ++ rest →
          Extends (merged.foldl (mergeElem keyValueTemp) keyValueAcc)
            (accumulate keyValueTemp keyValueAcc)) ∧
      ∀ (keyValueTemp keyValueAcc : ValueMap) (elem : Str × List Str),
        Extends keyValueAcc (mergeElem keyValueTemp keyValueAcc elem) ∧
          elem.1 ∈ mergeElem keyValueTemp keyValueAcc elem := by
  have hpairs := filePairs_flatten heven hend
  have hread : ∀ f : Str, Groups (readTextOf (some f)) (filePairs (some f)) :=
    fun f => readTextOf_groups_filePairs (some f)
  -- What is read file by file, in the order of the ids, is what the whole text holds.
  have hgathered : gathered acc d dir (List.range fs.length) r = filePairs (some fs.flatten) := by
    have hviews : (List.range fs.length).map (fun m => acc.view d (tempPath dir m r)) =
        fs.map some := by
      refine List.ext_getElem? fun m => ?_
      rcases Nat.lt_or_ge m fs.length with hm | hm
      · have hf : fs[m]? = some fs[m] := List.getElem?_eq_getElem hm
        rw [List.getElem?_map, List.getElem?_map, List.getElem?_range hm, hf, Option.map_some,
          Option.map_some, hview m _ hf]
      · rw [List.getElem?_eq_none (by simpa using hm), List.getElem?_eq_none (by simpa using hm)]
    calc gathered acc d dir (List.range fs.length) r
        = ((List.range fs.length).map fun m => acc.view d (tempPath dir m r)).flatMap filePairs := by
          rw [gathered, List.flatMap_map]
      _ = filePairs (some fs.flatten) := by rw [hviews, List.flatMap_map, hpairs]
  refine ⟨?_, fun k => ?_, fun k => ?_, fun _ keyValueAcc _ _ h => accumulate_extends h keyValueAcc,
    mergeElem_extends⟩
  · rw [run_gatherTempFiles _ groups_empty, List.nil_append, hgathered, (hread _).eq_ofPairs]
  · rw [(hread _).mem_iff, hpairs, List.map_flatMap, List.mem_flatMap]
    exact exists_congr fun f => and_congr_right fun _ => ((hread f).mem_iff k).symm
  · rw [(hread _).getD, hpairs, valuesOf_flatMap]
    exact List.flatMap_congr fun f _ => ((hread f).getD k).symm

/-- The temp files of two mappers. -/
theorem gatherTempFiles_eq_readText_sample :
    (gatherTempFiles "data".toList 0 (List.range 2) ∅).run .all
        (fun p => if p = tempPath "data".toList 0 0 then some "b 0\na 1\n".toList
          else some "a 2\n".toList) =
      (.ok (readTextOf (some "b 0\na 1\na 2\n".toList)),
        fun p => if p = tempPath "data".toList 0 0 then some "b 0\na 1\n".toList
          else some "a 2\n".toList) := by
  refine (@gatherTempFiles_eq_readText ["b 0\na 1\n".toList, "a 2\n".toList] (by decide)
    (by decide) "data".toList 0 .all _ fun m f hm => ?_).1
  match m, hm with
  | 0, hm => exact hm
  | 1, hm => exact hm

/-! ### Output files

The decoding argument: a reader for the format, which the repository does not have, and that it
inverts the writer. Injectivity is then a matter of reading the same text twice. -/

/-- The entry on a line of an output file: the key is the first field. -/
def readEntry (line : Str) : Option (Str × List Str) :=
  match lines ' ' line with
  | [] => none
  | key :: values => some (key, values)

/-- The entries of an output file. -/
def readEntries (text : Str) : List (Str × List Str) := (lines '\n' text).filterMap readEntry

/-- No field of the entry holds a separator. -/
def SeparatorFree (e : Str × List Str) : Prop := ∀ field ∈ e.1 :: e.2, ' ' ∉ field ∧ '\n' ∉ field

/-- The fields of a line are those written, if none holds a space. -/
theorem readEntry_entryLine {e : Str × List Str} (h : ∀ field ∈ e.1 :: e.2, ' ' ∉ field) :
    readEntry (entryLine e) = some e := by
  have hline : entryLine e = (e.1 :: e.2).flatMap (· ++ [' ']) := by
    rw [entryLine, List.flatMap_cons]
    rfl
  rw [readEntry, hline, lines_flatMap_append h]

/-- **An output file can be read back exactly if no field holds a separator**, whether or
not it has entries without values, or empty fields. -/
theorem readEntries_entriesText_iff (data : List (Str × List Str)) :
    readEntries (entriesText data) = data ↔ ∀ e ∈ data, SeparatorFree e := by
  constructor
  · intro h e he
    -- Whatever is read is a piece of a line, and cut at the spaces.
    rw [← h, readEntries, List.mem_filterMap] at he
    obtain ⟨line, hline, hentry⟩ := he
    intro field hfield
    have hpiece : field ∈ lines ' ' line := by
      rw [readEntry] at hentry
      split at hentry
      · cases hentry
      · rename_i key values heq
        obtain rfl := Option.some.inj hentry
        rw [heq]
        exact hfield
    exact ⟨not_mem_of_mem_lines hpiece, fun hnl =>
      not_mem_of_mem_lines hline (mem_of_mem_lines hpiece hnl)⟩
  · intro h
    have hlines : lines '\n' (entriesText data) = data.map entryLine :=
      lines_entriesText fun e he => ⟨(h e he e.1 List.mem_cons_self).2,
        fun v hv => (h e he v (List.mem_cons_of_mem _ hv)).2⟩
    have hentries : ∀ e ∈ data, (readEntry ∘ entryLine) e = some e :=
      fun e he => readEntry_entryLine fun field hfield => (h e he field hfield).1
    rw [readEntries, hlines, List.filterMap_map, List.filterMap_congr hentries,
      List.filterMap_some]

/-- **The output format is unambiguous.** Lists of entries whose fields hold no separator
are equal if `write_key_val_vector` writes the same text for them. -/
theorem writeKeyValVector_inj {A B : List (Str × List Str)} (hA : ∀ e ∈ A, SeparatorFree e)
    (hB : ∀ e ∈ B, SeparatorFree e) {acc : Access Path} {p q : Path}
    (hp : acc.canWrite p = true) (hq : acc.canWrite q = true) (d d' : Disk)
    (h : ((writeKeyValVector p A).run acc d).2 p = ((writeKeyValVector q B).run acc d').2 q) :
    A = B := by
  simp only [run_writeKeyValVector, hp, hq, if_true, Function.update_self, Option.some.injEq] at h
  calc A = readEntries (entriesText A) := ((readEntries_entriesText_iff A).mpr hA).symm
    _ = readEntries (entriesText B) := by rw [h]
    _ = B := (readEntries_entriesText_iff B).mpr hB

/-- Two empty values, written to a new file and over an old one. -/
theorem writeKeyValVector_inj_sample :
    ((writeKeyValVector "x".toList [("a".toList, [[], []])]).run .all fun _ => none).2 "x".toList =
        ((writeKeyValVector "y".toList [("a".toList, List.replicate 2 [])]).run .all
          fun _ => some "b c \n".toList).2 "y".toList ∧
      [("a".toList, [[], []])] = [("a".toList, List.replicate 2 ([] : Str))] := by
  have htext : ((writeKeyValVector "x".toList [("a".toList, [[], []])]).run .all
      fun _ => none).2 "x".toList =
        ((writeKeyValVector "y".toList [("a".toList, List.replicate 2 [])]).run .all
          fun _ => some "b c \n".toList).2 "y".toList := by decide
  exact ⟨htext, writeKeyValVector_inj (by simp [SeparatorFree]) (by simp [SeparatorFree])
    (Access.all_canWrite _) (Access.all_canWrite _) _ _ htext⟩

/-- A key with a space is not told from a key with a value. -/
example : entriesText [("a b".toList, [])] = entriesText [("a".toList, ["b".toList])] := by decide

end MapReduceCpp
