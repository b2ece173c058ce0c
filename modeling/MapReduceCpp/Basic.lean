import MapReduceCpp.Lib.FileProg
import MapReduceCpp.Lib.InputStream
import Mathlib.Data.List.Lemmas
import Mathlib.Data.Nat.Init
import Mathlib.Tactic.NormNum.Basic

/-!
# MapReduceCpp.Basic

The parts of the C++ language and its standard library that `MapReduceMaster.h`
and `Utility.h` compute with.

A `string` is the list of its characters (`Str`). An `int` is an integer with its
range made explicit where the code can leave it: signed overflow is undefined
behaviour, so `intAdd` reports a fault instead of a value, and converting a
`size_t` to `int` wraps (`hashInRange`). What a C++ function can do other than
return is a `Fault`.

The two hash functions `std::hash<int>` and `std::hash<string>` are left open, as
the standard leaves them: any function into the 64-bit words will do (`Hashers`).
-/

namespace MapReduceCpp

open InputStream

/-- A C++ `string`. A character stands for a byte; nothing here depends on there being more of
them than 256. -/
abbrev Str := List Char

/-- A file path, as the code spells it. -/
abbrev Path := Str

/-- The data directory and everything else on disk. -/
abbrev Disk := Store Path Char

/-- `isspace` in the "C" locale: space, `\t`, `\n`, `\v`, `\f`, `\r`. -/
def isspace (c : Char) : Bool :=
  c == ' ' || c == '\t' || c == '\n' || c == '\x0b' || c == '\x0c' || c == '\r'

@[simp] theorem isspace_space : isspace ' ' = true := rfl
@[simp] theorem isspace_newline : isspace '\n' = true := rfl

/-- A word of a text file: non-empty and without white space. -/
abbrev Word (w : Str) : Prop := IsWord isspace w

/-- How a C++ function can end other than by returning. What kind of exception it is matters
only as far as the handlers of the program tell them apart, and they know `int` and the rest. -/
inductive Fault
  /-- An `int` was thrown. -/
  | int (e : ℤ)
  /-- An exception of any other type was thrown. -/
  | exception (what : Str)
  /-- The behaviour is undefined (signed overflow, index past the end). -/
  | undefined
  deriving DecidableEq, Repr

/-- The number of values of an `int`. -/
def intSize : ℕ := 2 ^ 32

/-- The range of `int`, on the platforms the program is built for. -/
def InInt (n : ℤ) : Prop := -2 ^ 31 ≤ n ∧ n < 2 ^ 31

instance (n : ℤ) : Decidable (InInt n) :=
  inferInstanceAs (Decidable (-2 ^ 31 ≤ n ∧ n < 2 ^ 31))

/-- Addition of two `int`s; overflow is undefined, so there is no value to go on with. -/
def intAdd (a b : ℤ) : Except Fault ℤ :=
  if InInt (a + b) then .ok (a + b) else .error .undefined

theorem intAdd_ok {a b : ℤ} (h : InInt (a + b)) : intAdd a b = .ok (a + b) := by
  rw [intAdd, if_pos h]

/-- `to_string` of an `int`. -/
def toStr (n : ℤ) : Str :=
  if n < 0 then '-' :: Nat.toDigits 10 n.natAbs else Nat.toDigits 10 n.natAbs

/-- Split off an optional sign; the flag is set for a minus. -/
def splitSign : Str → Bool × Str
  | '-' :: t => (true, t)
  | '+' :: t => (false, t)
  | t => (false, t)

/-- `stoi`: skip white space, take an optional sign and the digits behind it. No
digits is an `invalid_argument`, a value beyond `int` an `out_of_range`. -/
def stoi (s : Str) : Except Fault ℤ :=
  let signed := splitSign (s.dropWhile isspace)
  let digits := signed.2.takeWhile Char.isDigit
  let n : ℤ := Nat.ofDigitChars 10 digits 0
  let v := if signed.1 then -n else n
  if digits = [] then .error (.exception "invalid_argument".toList)
  else if InInt v then .ok v
  else .error (.exception "out_of_range".toList)

/-! ### Decimal numerals

What `to_string` prints is a word, and different numbers are printed differently: the first is
why the counts and line numbers survive the temp files, the second keeps the files of different
ids apart. -/

theorem toStr_natCast (n : ℕ) : toStr n = Nat.toDigits 10 n := by
  simp [toStr]

theorem isDigit_of_mem_toStr {n : ℕ} {c : Char} (h : c ∈ toStr n) : c.isDigit = true :=
  Nat.isDigit_of_mem_toDigits (by omega) (by omega) (toStr_natCast n ▸ h)

theorem toStr_ne_nil (n : ℕ) : toStr n ≠ [] := by
  rw [toStr_natCast]
  exact Nat.toDigits_ne_nil

theorem toStr_injective {m n : ℕ} (h : toStr (m : ℤ) = toStr (n : ℤ)) : m = n := by
  rw [toStr_natCast, toStr_natCast] at h
  rw [← Nat.ofDigitChars_ten_toDigits (n := m), h, Nat.ofDigitChars_ten_toDigits]

theorem isspace_of_isDigit {c : Char} (h : c.isDigit = true) : isspace c = false := by
  have key : ∀ d : Char, d.isDigit = false → c ≠ d := fun d hd he => by simp [he, hd] at h
  simp only [isspace, Bool.or_eq_false_iff, beq_eq_false_iff_ne]
  exact ⟨⟨⟨⟨⟨key _ rfl, key _ rfl⟩, key _ rfl⟩, key _ rfl⟩, key _ rfl⟩, key _ rfl⟩

theorem word_toStr (n : ℕ) : Word (toStr n) :=
  ⟨toStr_ne_nil n, fun _ hc => isspace_of_isDigit (isDigit_of_mem_toStr hc)⟩

/-! ### Hashing

Both hash functions are only ever used modulo a count. All that is needed of the result is that
it is an index below the count. -/

/-- The hash functions of the two types the library hashes. They are parameters of every result,
so no result depends on which function the standard library of the platform has. -/
structure Hashers where
  int : ℤ → UInt64
  string : Str → UInt64

/-- `hash_in_range`: the `size_t` hash modulo the range, converted back to `int`.
Sealed, so that no unifier runs the 64-bit arithmetic on an open hash. -/
@[irreducible] def hashInRange {d : Type} (hasher : d → UInt64) (data : d) (maxRange : ℤ) : ℤ :=
  Int.bmod ((hasher data).toNat % (maxRange % 2 ^ 64).toNat : ℕ) intSize

/-- For a range that an `int` can hold, neither conversion changes the value: the `size_t`
remainder is below the range, and so an `int` again. -/
theorem hashInRange_eq {d : Type} (hasher : d → UInt64) (data : d) {n : ℕ} (hpos : 0 < n)
    (hlt : n < 2 ^ 31) : hashInRange hasher data n = ((hasher data).toNat % n : ℕ) := by
  have hlt64 : (n : ℤ) < 2 ^ 64 := by omega
  have hn : ((n : ℤ) % 2 ^ 64).toNat = n := by
    rw [Int.emod_eq_of_lt (Int.natCast_nonneg n) hlt64, Int.toNat_natCast]
  have hmod : (hasher data).toNat % n < n := Nat.mod_lt _ hpos
  unfold hashInRange
  simp only [hn]
  exact Int.bmod_eq_of_le (by rw [intSize]; omega) (by rw [intSize]; omega)

/-! ### File names

The underscore is no digit, so the two numerals in the name of a temp file cannot run into each
other. -/

/-- `dataDirectory + "/" + inputFileName`. -/
def inputPath (dataDirectory inputFileName : Str) : Path :=
  dataDirectory ++ "/".toList ++ inputFileName

/-- `dataDirectory + "/temp_[mapper_id]_[reducer_id].txt"`. -/
def tempPath (dataDirectory : Str) (mapperId reducerId : ℕ) : Path :=
  dataDirectory ++ "/temp_".toList ++ toStr mapperId ++ "_".toList ++ toStr reducerId ++
    ".txt".toList

/-- `dataDirectory + "/output_[reducer_id].txt"`. -/
def outputPath (dataDirectory : Str) (reducerId : ℕ) : Path :=
  dataDirectory ++ "/output_".toList ++ toStr reducerId ++ ".txt".toList

theorem not_mem_toStr {n : ℕ} {c : Char} (h : c.isDigit = false) : c ∉ toStr (n : ℤ) :=
  fun hc => by simp [isDigit_of_mem_toStr hc] at h

/-- Temp file names determine both ids, whatever their number of digits. -/
theorem tempPath_inj {dir : Str} {m r m' r' : ℕ} :
    tempPath dir m r = tempPath dir m' r' ↔ m = m' ∧ r = r' := by
  constructor
  · intro h
    simp only [tempPath, List.append_assoc, List.append_cancel_left_eq] at h
    have h' : toStr m ++ '_' :: (toStr r ++ ".txt".toList) =
        toStr m' ++ '_' :: (toStr r' ++ ".txt".toList) := h
    have hsep : ∀ n : ℕ, '_' ∉ toStr n := fun n => not_mem_toStr (by decide)
    have htail : '_' ∉ toStr r ++ ".txt".toList := by
      rw [List.mem_append, not_or]
      exact ⟨hsep r, by decide⟩
    obtain ⟨hm, -, hr⟩ := (List.append_cons_inj_of_notMem (hsep m) htail).mp h'
    exact ⟨toStr_injective hm, toStr_injective (List.append_cancel_right hr)⟩
  · rintro ⟨rfl, rfl⟩
    rfl

theorem outputPath_inj {dir : Str} {r r' : ℕ} :
    outputPath dir r = outputPath dir r' ↔ r = r' := by
  constructor
  · intro h
    simp only [outputPath, List.append_assoc, List.append_cancel_left_eq] at h
    exact toStr_injective (List.append_cancel_right h)
  · rintro rfl
    rfl

/-- Files of one directory with the same path start with the same letter, which tells temp files
from output files. -/
theorem letter_of_path {dir xs ys : Str} {c c' : Char}
    (h : dir ++ '/' :: c :: xs = dir ++ '/' :: c' :: ys) : c = c' :=
  (List.cons.inj (List.cons.inj (List.append_cancel_left h)).2).1

theorem tempPath_ne_outputPath {dir : Str} {m r r' : ℕ} :
    tempPath dir m r ≠ outputPath dir r' := by
  intro h
  simp only [tempPath, outputPath, List.append_assoc] at h
  exact absurd (letter_of_path h) (by decide)

end MapReduceCpp
