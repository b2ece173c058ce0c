import MapReduceCpp.Basic
import MapReduceCpp.Lib.Grouping
import Mathlib.Algebra.Group.Nat.Even
import Mathlib.Order.Basic

/-!
# MapReduceCpp.Utility

`Utility.h`: reading a temporary file back into key-value-list form (`readText`)
and writing the reduced data out (`writeKeyValVector`).

The reader knows nothing of lines. It takes tokens two at a time, a key and a
value, for as long as both extractions succeed, so what it sees of a text is its
token sequence cut into consecutive pairs (`readTextOf_groups`). A file that
cannot be opened is a stream whose first extraction fails: the reader returns the
empty map for it, and throws nothing.
-/

namespace MapReduceCpp

open InputStream Grouping
open Std (ExtTreeMap)

/-- `map<string, vector<string>>`. -/
abbrev ValueMap := ExtTreeMap Str (List Str)

/-! ### Output streams

Nothing in the program tests whether an `ofstream` is open. One that is not takes what is
written to it and forgets it, which is why a failed open goes unnoticed. -/

/-- An `ofstream`: the file it was opened on and whether the open succeeded. The file itself is
on the disk. -/
structure OFStream where
  path : Path
  isOpen : Bool

/-- The `ofstream` constructor. -/
def ofstream (path : Path) : FileProg Path Char OFStream := do
  let isOpen ← FileProg.createFile path
  pure ⟨path, isOpen⟩

/-- Writing to a stream; a stream that is not open swallows the characters. -/
def OFStream.put (s : OFStream) (xs : Str) : FileProg Path Char Unit :=
  if s.isOpen then FileProg.appendFile s.path xs else pure ()

/-- Closing a stream, also by its destructor. -/
def OFStream.close (s : OFStream) : FileProg Path Char Unit :=
  if s.isOpen then FileProg.closeFile s.path else pure ()

/-! ### `read_text`

The loop reads the key in its condition and, if that succeeds, the value. Its test for an empty
key cannot be true: an extraction that succeeds has taken at least one character. -/

/-- The `ifstream` over a file, or over one that could not be opened. -/
def ifstream : Option Str → InputStream Char
  | none => ⟨[], false, true⟩
  | some text => .ofList text

/-- The loop of `read_text`: while a key and a value can be extracted, push the value to the
key's vector. The fuel stands for the characters that are left, of which each turn takes two at
least. -/
def readTextLoop : ℕ → InputStream Char → ValueMap → ValueMap
  | 0, _, data => data
  | fuel + 1, file, data =>
    let key := file.extract isspace
    if key.2.ok then
      let value := key.2.extract isspace
      if value.2.ok then
        let tempKey := key.1
        let tempValue := value.1
        if tempKey.length = 0 then readTextLoop fuel value.2 data
        else if ¬ data.contains tempKey then
          readTextLoop fuel value.2 (data.insertIfNew tempKey [tempValue])
        else readTextLoop fuel value.2 (data.insert tempKey (data.getD tempKey [] ++ [tempValue]))
      else data
    else data

/-- What `read_text` makes of a file's contents. -/
def readTextOf (file : Option Str) : ValueMap :=
  readTextLoop ((file.getD []).length + 1) (ifstream file) ∅

/-- `read_text`. It returns normally on every file, also on one that could not be opened. -/
def readText (inputTextFile : Path) : FileProg Path Char (Except Fault ValueMap) := do
  let file ← FileProg.readFile inputTextFile
  pure (.ok (readTextOf file))

/-- Consecutive pairs; an unpaired last element is dropped, as by the second extraction of the
loop's condition. -/
def pairUp {α : Type} : List α → List (α × α)
  | a :: b :: rest => (a, b) :: pairUp rest
  | _ => []

theorem length_pairUp {α : Type} (xs : List α) : (pairUp xs).length = xs.length / 2 := by
  induction xs using pairUp.induct with
  | case1 a b rest ih =>
    rw [pairUp, List.length_cons, ih, List.length_cons, List.length_cons]
    omega
  | case2 xs hshort =>
    rcases xs with _ | ⟨a, _ | ⟨b, rest⟩⟩
    · simp [pairUp]
    · simp [pairUp]
    · exact absurd rfl (hshort a b rest)

/-- An even number of elements leaves none to be paired with what follows. -/
theorem pairUp_append {α : Type} {xs : List α} (hxs : Even xs.length) (ys : List α) :
    pairUp (xs ++ ys) = pairUp xs ++ pairUp ys := by
  induction xs using pairUp.induct with
  | case1 a b rest ih =>
    rw [List.length_cons, List.length_cons, Nat.even_add_one, Nat.even_add_one, not_not] at hxs
    rw [List.cons_append, List.cons_append, pairUp, pairUp, ih hxs, List.cons_append]
  | case2 xs hshort =>
    rcases xs with _ | ⟨a, _ | ⟨b, rest⟩⟩
    · rfl
    · simp at hxs
    · exact absurd rfl (hshort a b rest)

theorem pairUp_flatten {α : Type} {xss : List (List α)} (h : ∀ xs ∈ xss, Even xs.length) :
    pairUp xss.flatten = xss.flatMap pairUp := by
  induction xss with
  | nil => rfl
  | cons xs xss ih =>
    rw [List.flatten_cons, pairUp_append (h xs List.mem_cons_self),
      ih fun ys hys => h ys (List.mem_cons_of_mem _ hys), List.flatMap_cons]

/-- One iteration of the loop appends the value to the key's list, in either
branch of the membership test. -/
theorem readTextLoop_push {data : ValueMap} {ps : List (Str × Str)} (h : Groups data ps)
    (k v : Str) :
    Groups (if ¬ data.contains k then data.insertIfNew k [v]
      else data.insert k (data.getD k [] ++ [v])) (ps ++ [(k, v)]) := by
  have happ : Groups (data.insert k (data.getD k [] ++ [v])) (ps ++ [(k, v)]) :=
    h.append k (List.cons_ne_nil v [])
  by_cases hk : data.contains k = true
  · simpa [hk] using happ
  · have hmem : k ∉ data := by rwa [ExtTreeMap.mem_iff_contains]
    have hnew : data.insertIfNew k [v] = data.insert k (data.getD k [] ++ [v]) := by
      rw [ExtTreeMap.getD_eq_fallback hmem]
      refine ExtTreeMap.ext_getElem? fun k' => ?_
      rw [ExtTreeMap.getElem?_insertIfNew, ExtTreeMap.getElem?_insert]
      simp only [hmem, not_false_eq_true, and_true, List.nil_append]
    rw [if_pos hk, hnew]
    exact happ

/-- The loop groups the consecutive pairs of the tokens the stream still holds, behind those
that the map has been made of so far. By induction on the fuel. -/
theorem readTextLoop_groups {fuel : ℕ} {file : InputStream Char} {data : ValueMap}
    {ps : List (Str × Str)} (hlive : Live file) (hf : file.rest.length < fuel)
    (h : Groups data ps) :
    Groups (readTextLoop fuel file data) (ps ++ pairUp (tokens isspace file.rest)) := by
  induction fuel generalizing file data ps with
  | zero => omega
  | succ fuel ih =>
    -- The extraction of the key is tested first, so an unpaired key ends the loop unused.
    have hkey := extract_live isspace hlive
    rw [readTextLoop]
    cases ht : tokens isspace file.rest with
    | nil =>
      rw [ht] at hkey
      simpa [hkey, pairUp] using h
    | cons k ts =>
      have hk : Word k := isWord_of_mem_tokens (ht ▸ List.mem_cons_self)
      rw [ht] at hkey
      obtain ⟨hok, rfl, hlive₁, rfl, hlen₁⟩ := hkey
      have hvalue := extract_live isspace hlive₁
      simp only [hok, if_true]
      cases ht₂ : tokens isspace (extract isspace file).2.rest with
      | nil =>
        rw [ht₂] at hvalue
        simpa [hvalue, pairUp] using h
      | cons v ts₂ =>
        rw [ht₂] at hvalue
        obtain ⟨hok₂, rfl, hlive₂, rfl, hlen₂⟩ := hvalue
        have hlen : (extract isspace file).1.length ≠ 0 := by
          simpa using hk.1
        have hnext := ih hlive₂ (by omega) (readTextLoop_push h (extract isspace file).1
          (extract isspace (extract isspace file).2).1)
        rw [List.append_assoc, List.singleton_append] at hnext
        simp only [hok₂, if_true, hlen, if_false, pairUp]
        split <;> simp_all

/-- `read_text` groups the consecutive pairs of a text's tokens. -/
theorem readTextOf_groups (text : Str) :
    Groups (readTextOf (some text)) (pairUp (tokens isspace text)) := by
  simpa [readTextOf, ifstream] using
    readTextLoop_groups (live_ofList text) (Nat.lt_succ_self _) groups_empty

/-! ### `write_key_val_vector`

A field is followed by a space, also the last one of a line, so that the fields of a line can be
told apart again, empty ones included. -/

/-- The inner loop: every value followed by a space. -/
def writeValues (fout : OFStream) : List Str → FileProg Path Char Unit
  | [] => pure ()
  | v :: vs => do
    fout.put (v ++ " ".toList)
    writeValues fout vs

/-- The outer loop: one line for each entry. -/
def writeEntries (fout : OFStream) : List (Str × List Str) → FileProg Path Char Unit
  | [] => pure ()
  | elem :: rest => do
    fout.put (elem.1 ++ " ".toList)
    writeValues fout elem.2
    fout.put "\n".toList
    writeEntries fout rest

/-- `write_key_val_vector`. -/
def writeKeyValVector (outputFileName : Path) (data : List (Str × List Str)) :
    FileProg Path Char Unit := do
  let fout ← ofstream outputFileName
  writeEntries fout data
  fout.close

/-- The line written for an entry, without its end: key and values, each followed by a space. -/
def entryLine (e : Str × List Str) : Str :=
  e.1 ++ " ".toList ++ e.2.flatMap (· ++ " ".toList)

/-- The text written for a list of entries. -/
def entriesText (data : List (Str × List Str)) : Str :=
  data.flatMap fun e => entryLine e ++ "\n".toList

/-- The lines of an output file are the lines written, if no field has a newline. -/
theorem lines_entriesText {es : List (Str × List Str)}
    (h : ∀ e ∈ es, '\n' ∉ e.1 ∧ ∀ v ∈ e.2, '\n' ∉ v) :
    lines '\n' (entriesText es) = es.map entryLine := by
  have hflat : entriesText es = (es.map entryLine).flatMap (· ++ ['\n']) := by
    rw [entriesText, List.flatMap_map]
    rfl
  rw [hflat]
  refine lines_flatMap_append fun l hl => ?_
  obtain ⟨e, he, rfl⟩ := List.mem_map.mp hl
  have hfields := h e he
  simp only [entryLine, List.mem_append, List.mem_flatMap, not_or, not_exists, not_and]
  refine ⟨⟨hfields.1, by decide⟩, fun v hv => ⟨hfields.2 v hv, by decide⟩⟩

variable {acc : Access Path}

/-- Writing to an open file appends to its contents. -/
theorem run_put_open {s : OFStream} (hs : s.isOpen = true) (xs : Str) {d : Disk} {text : Str}
    (hd : d s.path = some text) :
    (s.put xs).run acc d = ((), Function.update d s.path (some (text ++ xs))) := by
  simp [OFStream.put, hs, hd]

theorem run_put_closed {s : OFStream} (hs : s.isOpen = false) (xs : Str) (d : Disk) :
    (s.put xs).run acc d = ((), d) := by
  simp [OFStream.put, hs]

@[simp] theorem run_close (s : OFStream) (d : Disk) : s.close.run acc d = ((), d) := by
  unfold OFStream.close
  split <;> simp

theorem run_writeValues {s : OFStream} (hs : s.isOpen = true) (vs : List Str) {d : Disk}
    {text : Str} (hd : d s.path = some text) :
    (writeValues s vs).run acc d =
      ((), Function.update d s.path (some (text ++ vs.flatMap (· ++ " ".toList)))) := by
  induction vs generalizing d text with
  | nil => simp [writeValues, ← hd]
  | cons v vs ih =>
    rw [writeValues, FileProg.bind_eq, FileProg.run_bind, run_put_open hs _ hd,
      ih (Function.update_self ..)]
    simp

theorem run_writeEntries {s : OFStream} (hs : s.isOpen = true) (data : List (Str × List Str))
    {d : Disk} {text : Str} (hd : d s.path = some text) :
    (writeEntries s data).run acc d =
      ((), Function.update d s.path (some (text ++ entriesText data))) := by
  induction data generalizing d text with
  | nil => simp [writeEntries, entriesText, ← hd]
  | cons e es ih =>
    simp only [writeEntries, FileProg.bind_eq, FileProg.run_bind]
    rw [run_put_open hs _ hd, run_writeValues hs _ (Function.update_self ..),
      run_put_open hs _ (Function.update_self ..), ih (Function.update_self ..)]
    simp [entriesText, entryLine]

theorem run_writeEntries_closed {s : OFStream} (hs : s.isOpen = false)
    (data : List (Str × List Str)) (d : Disk) : (writeEntries s data).run acc d = ((), d) := by
  have hvals : ∀ vs, (writeValues s vs).run acc d = ((), d) := by
    intro vs
    induction vs with
    | nil => rfl
    | cons v vs ih => simp [writeValues, run_put_closed hs, ih]
  induction data with
  | nil => rfl
  | cons e es ih => simp [writeEntries, run_put_closed hs, hvals, ih]

/-- `write_key_val_vector` replaces the file's contents by the entries' text, if the file can be
opened at all; if not, nothing happens, and nobody is told. -/
theorem run_writeKeyValVector (p : Path) (data : List (Str × List Str)) (d : Disk) :
    (writeKeyValVector p data).run acc d =
      ((), if acc.canWrite p then Function.update d p (some (entriesText data)) else d) := by
  simp only [writeKeyValVector, ofstream, FileProg.bind_eq, FileProg.run_bind,
    FileProg.run_createFile, FileProg.pure_eq, FileProg.run_done, run_close]
  by_cases hp : acc.canWrite p = true
  · rw [if_pos hp, if_pos hp, run_writeEntries (s := ⟨p, acc.canWrite p⟩) hp data
      (Function.update_self ..)]
    simp
  · rw [if_neg hp, if_neg hp, run_writeEntries_closed (s := ⟨p, acc.canWrite p⟩) (by simpa using hp)]

section Footprint

variable {R W : Set Path} {s : OFStream}

theorem put_within (hs : s.path ∈ W) (xs : Str) : (s.put xs).Within R W := by
  unfold OFStream.put
  split
  · exact ⟨hs, trivial⟩
  · trivial

theorem close_within (hs : s.path ∈ W) : s.close.Within R W := by
  unfold OFStream.close
  split
  · exact ⟨hs, trivial⟩
  · trivial

theorem writeEntries_within (hs : s.path ∈ W) (data : List (Str × List Str)) :
    (writeEntries s data).Within R W := by
  have hvals : ∀ vs, (writeValues s vs).Within R W := by
    intro vs
    induction vs with
    | nil => trivial
    | cons v vs ih => exact (put_within hs _).bind fun _ => ih
  induction data with
  | nil => trivial
  | cons e es ih =>
    exact (put_within hs _).bind fun _ => (hvals _).bind fun _ => (put_within hs _).bind fun _ => ih

/-- `write_key_val_vector` reads nothing and writes its own file. -/
theorem writeKeyValVector_within {p : Path} (hp : p ∈ W) (data : List (Str × List Str)) :
    (writeKeyValVector p data).Within R W :=
  ⟨hp, fun _ => (writeEntries_within hp data).bind fun _ => close_within hp⟩

end Footprint

end MapReduceCpp
