import Mathlib.Data.List.Basic
import Mathlib.Data.List.TakeWhile
import Mathlib.Data.Nat.Init

/-!
# MapReduceCpp.Lib.InputStream

Formatted input from a character stream: the two extraction operations every
text-processing loop is built from, and what the loops over them produce.

A stream is the characters not yet extracted plus the two state bits that the
operations set. `extract` skips a run of separators and takes the word behind it;
`getline` takes everything up to a delimiter. Both are the operations of the C++
standard library, including the corner that decides how a loop ends: a stream
that reached its end while extracting something has `eofbit` set but is still
usable as a condition, and only the *next* extraction fails.

The results are stated over lists. `tokens` is the list of maximal
separator-free pieces of a text and `lines` the list of its delimiter-terminated
pieces; `collect_extract` and the `lines_*` lemmas say that the loops
`while (in >> word)` and `while (getline(in, line))` see exactly those.
-/

/-- An input stream: the characters left and the state bits. `badbit` is not among them, since
nothing that is read here fails otherwise than by its end. -/
structure InputStream (α : Type) where
  rest : List α
  eofbit : Bool
  failbit : Bool
  deriving DecidableEq, Repr

namespace InputStream

variable {α : Type}

/-- A freshly opened stream over a text. -/
def ofList (xs : List α) : InputStream α := ⟨xs, false, false⟩

/-- `good()`: neither state bit is set. Both extractions test it first, so a stream at its end
fails them without taking anything. -/
def good (s : InputStream α) : Bool := !s.eofbit && !s.failbit

/-- The stream as a condition, `!fail()`. -/
def ok (s : InputStream α) : Bool := !s.failbit

@[simp] theorem ofList_rest (xs : List α) : (ofList xs).rest = xs := rfl
@[simp] theorem ofList_good (xs : List α) : (ofList xs).good = true := rfl

/-- `in >> word`: skip separators, take the word behind them. Reaching the end
while skipping sets both bits; reaching it while reading the word sets `eofbit`
only. -/
def extract (isSpace : α → Bool) (s : InputStream α) : List α × InputStream α :=
  if s.good then
    match s.rest.dropWhile isSpace with
    | [] => ([], ⟨[], true, true⟩)
    | c :: cs =>
      ((c :: cs).takeWhile (fun a => !isSpace a),
        ⟨(c :: cs).dropWhile (fun a => !isSpace a),
          ((c :: cs).dropWhile (fun a => !isSpace a)).isEmpty, false⟩)
  else ([], { s with failbit := true })

/-- `getline(in, line, delim)`: take everything before the next delimiter and
drop the delimiter. Reaching the end sets `eofbit`, and `failbit` as well when
nothing was taken. -/
def getline [DecidableEq α] (delim : α) (s : InputStream α) : List α × InputStream α :=
  if s.good then
    match s.rest.dropWhile (· ≠ delim) with
    | [] => (s.rest, ⟨[], true, s.rest.isEmpty⟩)
    | _ :: rest => (s.rest.takeWhile (· ≠ delim), ⟨rest, false, false⟩)
  else ([], { s with failbit := true })

/-- The loop `while (read(in, x))`: the values `x` takes, one per iteration.
Every successful read takes at least one character, so a fuel above the length
of the stream is never used up. -/
def collect (read : InputStream α → List α × InputStream α) :
    ℕ → InputStream α → List (List α)
  | 0, _ => []
  | fuel + 1, s =>
      if (read s).2.ok then (read s).1 :: collect read fuel (read s).2 else []

/-! ### Tokens

A text as formatted input sees it: which separators stand between two words, and how many, is
lost. What is kept is that a separator at the end of a text cuts it off from the text behind it. -/

section Tokens

variable {isSpace : α → Bool}

/-- The maximal non-empty separator-free pieces of a text, in order. -/
def tokens (isSpace : α → Bool) (xs : List α) : List (List α) :=
  (xs.splitOnP isSpace).filter (fun t => !t.isEmpty)

/-- A word: non-empty and free of separators. -/
def IsWord (isSpace : α → Bool) (w : List α) : Prop :=
  w ≠ [] ∧ ∀ c ∈ w, isSpace c = false

instance (w : List α) : Decidable (IsWord isSpace w) :=
  inferInstanceAs (Decidable (w ≠ [] ∧ ∀ c ∈ w, isSpace c = false))

@[simp] theorem tokens_nil : tokens isSpace ([] : List α) = [] := rfl

theorem tokens_append_cons (xs ys : List α) {c : α} (hc : isSpace c = true) :
    tokens isSpace (xs ++ c :: ys) = tokens isSpace xs ++ tokens isSpace ys := by
  simp only [tokens, List.splitOnP_append_cons xs ys hc, List.filter_append]

theorem tokens_cons_space (xs : List α) {c : α} (hc : isSpace c = true) :
    tokens isSpace (c :: xs) = tokens isSpace xs := by
  simpa using tokens_append_cons [] xs hc

/-- A text that ends in a separator shares no token with the text behind it; without one the
last word of the first would run into the first of the second. -/
theorem tokens_append {xs : List α} (hxs : ∀ c ∈ xs.getLast?, isSpace c = true) (ys : List α) :
    tokens isSpace (xs ++ ys) = tokens isSpace xs ++ tokens isSpace ys := by
  rcases xs.eq_nil_or_concat with rfl | ⟨zs, c, rfl⟩
  · rfl
  · have hc : isSpace c = true := hxs c (by simp)
    rw [List.concat_eq_append, List.append_assoc, List.singleton_append,
      tokens_append_cons zs ys hc, tokens_append_cons zs [] hc, tokens_nil, List.append_nil]

/-- So of several such texts each keeps its own tokens. -/
theorem tokens_flatten {xss : List (List α)}
    (h : ∀ xs ∈ xss, ∀ c ∈ xs.getLast?, isSpace c = true) :
    tokens isSpace xss.flatten = xss.flatMap (tokens isSpace) := by
  induction xss with
  | nil => rfl
  | cons xs xss ih =>
    rw [List.flatten_cons, tokens_append (h xs List.mem_cons_self),
      ih fun ys hys => h ys (List.mem_cons_of_mem _ hys), List.flatMap_cons]

/-- A separator-free text is its own only token, or has none when empty. -/
theorem tokens_of_forall {xs : List α} (h : ∀ c ∈ xs, isSpace c = false) :
    tokens isSpace xs = if xs = [] then [] else [xs] := by
  rw [tokens, List.splitOnP_eq_singleton h]
  cases xs <;> simp

/-- The tokens depend on the separators among the text's own elements only. -/
theorem tokens_congr {isSpace' : α → Bool} {xs : List α} (h : ∀ c ∈ xs, isSpace c = isSpace' c) :
    tokens isSpace xs = tokens isSpace' xs := by
  have hsplit : xs.splitOnP isSpace = xs.splitOnP isSpace' := by
    induction xs with
    | nil => rfl
    | cons c cs ih =>
      rw [List.splitOnP_cons_eq_if_modifyHead, List.splitOnP_cons_eq_if_modifyHead,
        h c List.mem_cons_self, ih fun c' hc' => h c' (List.mem_cons_of_mem _ hc')]
  rw [tokens, tokens, hsplit]

theorem tokens_word {w : List α} (h : IsWord isSpace w) : tokens isSpace w = [w] := by
  rw [tokens_of_forall h.2, if_neg h.1]

theorem tokens_word_append_cons {w : List α} (h : IsWord isSpace w) (ys : List α) {c : α}
    (hc : isSpace c = true) : tokens isSpace (w ++ c :: ys) = w :: tokens isSpace ys := by
  rw [tokens_append_cons _ _ hc, tokens_word h]
  rfl

theorem isWord_of_mem_tokens {xs t : List α} (h : t ∈ tokens isSpace xs) :
    IsWord isSpace t := by
  induction hn : xs.length using Nat.strong_induction_on generalizing xs with
  | _ n ih =>
    by_cases hs : ∀ c ∈ xs, isSpace c = false
    · rw [tokens_of_forall hs] at h
      split at h
      · simp at h
      · rename_i hne
        obtain rfl := List.mem_singleton.mp h
        exact ⟨hne, hs⟩
    · push Not at hs
      obtain ⟨c, hc, hsp⟩ := hs
      obtain ⟨l, r, rfl⟩ := List.append_of_mem hc
      rw [tokens_append_cons _ _ (by simpa using hsp), List.mem_append] at h
      rw [List.length_append, List.length_cons] at hn
      rcases h with h | h
      · exact ih l.length (by omega) h rfl
      · exact ih r.length (by omega) h rfl

theorem tokens_dropWhile (xs : List α) :
    tokens isSpace (xs.dropWhile isSpace) = tokens isSpace xs := by
  induction xs with
  | nil => rfl
  | cons c cs ih =>
    by_cases hc : isSpace c = true
    · rw [List.dropWhile_cons_of_pos hc, ih, tokens_cons_space _ hc]
    · rw [List.dropWhile_cons_of_neg hc]

/-- The word at the head of a text that starts with a non-separator is its first
token, and the tokens of what follows are the others. -/
theorem tokens_takeWhile (c : α) (cs : List α) (hc : isSpace c = false) :
    tokens isSpace (c :: cs) =
      (c :: cs).takeWhile (fun a => !isSpace a) ::
        tokens isSpace ((c :: cs).dropWhile (fun a => !isSpace a)) := by
  have hw : IsWord isSpace ((c :: cs).takeWhile (fun a => !isSpace a)) := by
    refine ⟨by simp [hc], fun a ha => ?_⟩
    simpa using List.mem_takeWhile_imp ha
  conv_lhs => rw [← List.takeWhile_append_dropWhile (p := fun a => !isSpace a) (l := c :: cs)]
  cases hd : (c :: cs).dropWhile (fun a => !isSpace a) with
  | nil => rw [List.append_nil, tokens_word hw, tokens_nil]
  | cons d ds =>
    have hsp : isSpace d = true := by
      have := List.head?_dropWhile_not (fun a => !isSpace a) (c :: cs)
      rw [hd] at this
      simpa using this
    rw [tokens_word_append_cons hw _ hsp, tokens_cons_space _ hsp]

end Tokens

/-! ### Reading loops

One extraction as a step on the tokens that are still in the stream, and from it the whole loop,
by induction on the fuel. The state bits are needed in between only: a stream at its end that
has not failed has no token left. -/

/-- A stream a loop can still read from: not failed, and with nothing left once `eofbit` is set.
The loops keep it, up to the extraction that ends them. -/
structure Live (s : InputStream α) : Prop where
  ok : s.failbit = false
  eof : s.eofbit = true → s.rest = []

theorem live_ofList (xs : List α) : Live (ofList xs) := ⟨rfl, by simp [ofList]⟩

theorem Live.good_iff {s : InputStream α} (h : Live s) : s.good = !s.eofbit := by
  simp [good, h.ok]

/-- What one `>>` does to a live stream, in terms of the tokens it still holds:
it fails exactly when there are none, and otherwise takes the first. -/
theorem extract_live (isSpace : α → Bool) {s : InputStream α} (h : Live s) :
    match tokens isSpace s.rest with
    | [] => (extract isSpace s).2.ok = false
    | t :: ts => (extract isSpace s).2.ok = true ∧ (extract isSpace s).1 = t ∧
        Live (extract isSpace s).2 ∧ tokens isSpace (extract isSpace s).2.rest = ts ∧
        (extract isSpace s).2.rest.length < s.rest.length := by
  by_cases heof : s.eofbit = true
  · simp [h.eof heof, extract, h.good_iff, heof, ok]
  -- Separators in front are skipped, and are not part of the tokens either.
  · rw [← @tokens_dropWhile _ isSpace s.rest]
    cases hd : s.rest.dropWhile isSpace with
    | nil => simp [extract, h.good_iff, heof, hd, ok]
    | cons c cs =>
      have hc : isSpace c = false := by
        have := List.head?_dropWhile_not isSpace s.rest
        rw [hd] at this
        simpa using this
      have hlen : (c :: cs).length ≤ s.rest.length := by
        rw [← hd]; exact List.length_dropWhile_le _ _
      have htake : ((c :: cs).dropWhile (fun a => !isSpace a)).length < (c :: cs).length := by
        rw [List.dropWhile_cons_of_pos (by simp [hc])]
        exact Nat.lt_succ_of_le (List.length_dropWhile_le _ _)
      rw [tokens_takeWhile c cs hc]
      have hex : extract isSpace s =
          ((c :: cs).takeWhile (fun a => !isSpace a),
            ⟨(c :: cs).dropWhile (fun a => !isSpace a),
              ((c :: cs).dropWhile (fun a => !isSpace a)).isEmpty, false⟩) := by
        simp only [extract, h.good_iff, heof, hd, Bool.not_false, if_true]
      rw [hex]
      refine ⟨rfl, rfl, ⟨rfl, fun he => ?_⟩, rfl, htake.trans_le hlen⟩
      exact List.isEmpty_iff.mp he

/-- `while (in >> word)` runs over the tokens of the text. -/
theorem collect_extract {isSpace : α → Bool} {s : InputStream α} (h : Live s) {fuel : ℕ}
    (hf : s.rest.length < fuel) :
    collect (extract isSpace) fuel s = tokens isSpace s.rest := by
  induction fuel generalizing s with
  | zero => omega
  | succ fuel ih =>
    have hstep := extract_live isSpace h
    rw [collect]
    cases ht : tokens isSpace s.rest with
    | nil =>
      rw [ht] at hstep
      simp [hstep]
    | cons t ts =>
      rw [ht] at hstep
      obtain ⟨hok, rfl, hlive, rfl, hlen⟩ := hstep
      rw [if_pos hok, ih hlive (by omega)]

/-! ### Lines

Every delimiter ends a line, and what stands behind the last one is a line of its own only if it
is not empty. So a text with and one without a newline at its end have the same lines. -/

section Lines

variable [DecidableEq α] (delim : α)

/-- The lines of a text: the values of the loop `while (getline(in, line))`. -/
def lines (xs : List α) : List (List α) :=
  collect (getline delim) (xs.length + 1) (ofList xs)

variable {delim}

/-- Without a delimiter `getline` takes the rest of the stream, and fails only when there is
none: that is why a last line without an end is read, and no empty line behind one with it. -/
theorem getline_of_not_mem {s : InputStream α} (hs : s.good = true) (h : delim ∉ s.rest) :
    getline delim s = (s.rest, ⟨[], true, s.rest.isEmpty⟩) := by
  have hd : s.rest.dropWhile (· ≠ delim) = [] := by
    rw [List.dropWhile_eq_nil_iff]
    intro c hc
    simpa using fun hcd : c = delim => h (hcd ▸ hc)
  simp only [getline, hs, if_true, hd]

theorem getline_append_cons {s : InputStream α} (hs : s.good = true) {l r : List α}
    (hr : s.rest = l ++ delim :: r) (h : delim ∉ l) :
    getline delim s = (l, ⟨r, false, false⟩) := by
  have hl : ∀ c ∈ l, decide (c ≠ delim) = true := fun c hc => by
    simpa using fun hcd : c = delim => h (hcd ▸ hc)
  have hd : s.rest.dropWhile (· ≠ delim) = delim :: r := by
    rw [hr, List.dropWhile_append_of_pos hl, List.dropWhile_cons_of_neg (by simp)]
  have ht : s.rest.takeWhile (· ≠ delim) = l := by
    rw [hr, List.takeWhile_append_of_pos hl, List.takeWhile_cons_of_neg (by simp),
      List.append_nil]
  simp only [getline, hs, if_true, hd, ht]

/-- A stream that is no longer good fails the next `getline`. -/
theorem getline_ok_of_not_good {s : InputStream α} (hs : s.good = false) :
    (getline delim s).2.ok = false := by
  simp [getline, hs, ok]

/-- The line loop does not depend on its fuel. -/
theorem collect_getline_eq_lines {xs : List α} {fuel : ℕ} (hf : xs.length < fuel) :
    collect (getline delim) fuel (ofList xs) = lines delim xs := by
  suffices key : ∀ n (xs : List α) f g, xs.length < n → xs.length < f → xs.length < g →
      collect (getline delim) f (ofList xs) = collect (getline delim) g (ofList xs) from
    key _ xs _ _ (Nat.lt_succ_self _) hf (Nat.lt_succ_self _)
  intro n
  induction n with
  | zero => intro xs f g h; omega
  | succ n ih =>
    intro xs f g hn hf hg
    obtain ⟨f, rfl⟩ := Nat.exists_eq_add_of_lt (Nat.zero_lt_of_lt hf)
    obtain ⟨g, rfl⟩ := Nat.exists_eq_add_of_lt (Nat.zero_lt_of_lt hg)
    simp only [Nat.zero_add, collect]
    by_cases hmem : delim ∈ xs
    · obtain ⟨l, r, rfl, hl⟩ := List.eq_append_cons_of_mem hmem
      rw [List.length_append, List.length_cons] at hn hf hg
      rw [getline_append_cons (ofList_good _) rfl hl]
      have := ih r f g (by omega) (by omega) (by omega)
      simpa [ok, ofList] using this
    · have hend : ∀ k, collect (getline delim) k (⟨[], true, xs.isEmpty⟩ : InputStream α) = [] := by
        intro k
        cases k with
        | zero => rfl
        | succ k => rw [collect, getline_ok_of_not_good rfl]; rfl
      rw [getline_of_not_mem (ofList_good _) hmem, ofList_rest, hend f, hend g]

@[simp] theorem lines_nil : lines delim ([] : List α) = [] := by
  simp [lines, collect, getline, ofList, good, ok]

/-- A non-empty text without a delimiter is a single line. -/
theorem lines_of_not_mem {xs : List α} (hne : xs ≠ []) (h : delim ∉ xs) :
    lines delim xs = [xs] := by
  obtain ⟨c, cs, rfl⟩ := List.exists_cons_of_ne_nil hne
  have hg : getline delim (ofList (c :: cs)) = (c :: cs, ⟨[], true, false⟩) :=
    getline_of_not_mem (ofList_good _) h
  rw [lines, List.length_cons, collect, hg, collect, getline_ok_of_not_good rfl]
  rfl

theorem lines_append_cons {l : List α} (h : delim ∉ l) (r : List α) :
    lines delim (l ++ delim :: r) = l :: lines delim r := by
  have hlen : r.length < (l ++ delim :: r).length := by simp; omega
  rw [← collect_getline_eq_lines hlen, lines, collect,
    getline_append_cons (ofList_good _) rfl h]
  simp [ok, ofList]

/-- Induction over the lines of a text: it is empty, a last line without an end, or a line with
its end and a rest. -/
theorem lines_induction (delim : α) {motive : List α → Prop} (nil : motive [])
    (single : ∀ xs, xs ≠ [] → delim ∉ xs → motive xs)
    (cons : ∀ l r, delim ∉ l → motive r → motive (l ++ delim :: r)) (xs : List α) :
    motive xs := by
  induction hn : xs.length using Nat.strong_induction_on generalizing xs with
  | _ n ih =>
    by_cases hmem : delim ∈ xs
    · obtain ⟨l, r, rfl, hl⟩ := List.eq_append_cons_of_mem hmem
      refine cons l r hl (ih r.length ?_ r rfl)
      rw [List.length_append, List.length_cons] at hn
      omega
    · by_cases hne : xs = []
      · exact hne ▸ nil
      · exact single xs hne hmem

theorem not_mem_of_mem_lines {xs l : List α} (h : l ∈ lines delim xs) : delim ∉ l := by
  induction xs using lines_induction delim with
  | nil => simp at h
  | single xs hne hmem =>
    rw [lines_of_not_mem hne hmem, List.mem_singleton] at h
    exact h ▸ hmem
  | cons l' r hl ih =>
    rw [lines_append_cons hl, List.mem_cons] at h
    rcases h with rfl | h
    · exact hl
    · exact ih h

/-- The lines of a text are made of its characters. -/
theorem mem_of_mem_lines {xs l : List α} {c : α} (h : l ∈ lines delim xs) (hc : c ∈ l) :
    c ∈ xs := by
  induction xs using lines_induction delim with
  | nil => simp at h
  | single xs hne hmem =>
    rw [lines_of_not_mem hne hmem, List.mem_singleton] at h
    exact h ▸ hc
  | cons l' r hl ih =>
    rw [lines_append_cons hl, List.mem_cons] at h
    rcases h with rfl | h
    · exact List.mem_append_left _ hc
    · exact List.mem_append_right _ (List.mem_cons_of_mem _ (ih h))

/-- The lines of a text written line by line are those lines. -/
theorem lines_flatMap_append {ls : List (List α)} (h : ∀ l ∈ ls, delim ∉ l) :
    lines delim (ls.flatMap (· ++ [delim])) = ls := by
  induction ls with
  | nil => simp
  | cons l ls ih =>
    rw [List.flatMap_cons, List.append_assoc, List.singleton_append,
      lines_append_cons (h l List.mem_cons_self), ih fun l' hl' => h l' (List.mem_cons_of_mem _ hl')]

/-- Tokenising line by line gives the tokens of the whole text when the line
delimiter is itself a separator. -/
theorem flatMap_tokens_lines {isSpace : α → Bool} (hd : isSpace delim = true) (xs : List α) :
    (lines delim xs).flatMap (tokens isSpace) = tokens isSpace xs := by
  induction xs using lines_induction delim with
  | nil => simp
  | single xs hne hmem => simp [lines_of_not_mem hne hmem]
  | cons l r hl ih =>
    rw [lines_append_cons hl, List.flatMap_cons, ih, tokens_append_cons _ _ hd]

end Lines

end InputStream
