import MapReduceCpp.Clients.InvertedIndex

/-!
# MapReduceCpp.Clients.SparkInvertedIndex

`spark/InvertedIndex.py`, the program the output of `InvertedIndex.cpp` is compared
with.

The script writes every line of the input to a file of its own, `tmp/k.txt` for the
`k`-th line, and recovers the number of the line a word comes from as the fifth
character from the end of the file's path. That is the last digit of `k`
(`positionOf_linePath`), so from the tenth line on the positions are wrong: the two
programs agree exactly when no line from the tenth on has a word on it
(`spark_agrees_iff`).

What Spark leaves open is left open here. `wholeTextFiles` may deliver the files in
any order, and `reduceByKey` may combine the values of a key in any order and any
association (`Combines`).
-/

namespace MapReduceCpp

open InputStream Grouping

namespace Spark

/-! ### The script

Its steps under the words of the source. `wholeTextFiles` and `reduceByKey` are relations, as
Spark does not say in which order they work; the rest are functions. -/

/-- `str.isspace` for one character. It knows more white space than C++ does. -/
def isspace (c : Char) : Bool :=
  let n := c.toNat
  (9 ≤ n && n ≤ 13) || (28 ≤ n && n ≤ 32) || n == 0x85 || n == 0xa0 || n == 0x1680 ||
    (0x2000 ≤ n && n ≤ 0x200a) || n == 0x2028 || n == 0x2029 || n == 0x202f || n == 0x205f ||
    n == 0x3000

/-- `str.split()`. -/
def split (s : Str) : List Str := tokens isspace s

/-- `f.readlines()`: the lines with their ends. -/
def readlines : Str → List Str
  | [] => []
  | c :: cs =>
    if c = '\n' then [c] :: readlines cs
    else
      match readlines cs with
      | [] => [[c]]
      | line :: rest => (c :: line) :: rest

/-- `"tmp/%s.txt" % line_cnt`, below the working directory. -/
def linePath (cwd : Str) (lineCnt : ℕ) : Path :=
  cwd ++ "/tmp/".toList ++ toStr lineCnt ++ ".txt".toList

/-- The files of `tmp`: one for each line, numbered from 1. -/
def tmpFiles (cwd content : Str) : List (Path × Str) :=
  ((readlines content).zipIdx 1).map fun line => (linePath cwd line.2, line.1)

/-- `t[0][-5]`: the character before `.txt`. Every path in `tmp` is long enough. -/
def positionOf (path : Path) : Str := path.reverse[4]?.toList

/-- `flatMap(lambda t: ((t[0][-5], word) for word in t[1].split()))` and
`map(lambda u: (u[1], u[0]))`. -/
def wordPositions (txtfiles : List (Path × Str)) : List (Str × Str) :=
  (txtfiles.flatMap fun t => (split t.2).map fun word => (positionOf t.1, word)).map
    fun u => (u.2, u.1)

/-- `x` is a result of combining the values of a list with `f`, in some order and some
association. A single value is left as it is, and none cannot be combined. -/
inductive Combines {β : Type} (f : β → β → β) : List β → β → Prop
  | single (x : β) : Combines f [x] x
  | combine {xs ys zs : List β} {x y : β} : Combines f xs x → Combines f ys y →
      zs.Perm (xs ++ ys) → Combines f zs (f x y)

/-- `out` is a result of `reduceByKey(f)`: one entry for each key, with its values
combined. -/
structure ReduceByKey (f : Str → Str → Str) (pairs out : List (Str × Str)) : Prop where
  nodup : (out.map Prod.fst).Nodup
  keys : ∀ k, k ∈ out.map Prod.fst ↔ k ∈ pairs.map Prod.fst
  combines : ∀ k s, (k, s) ∈ out → Combines f (valuesOf k pairs) s

/-- `lambda a, b: a+" "+b`. -/
def join (a b : Str) : Str := a ++ " ".toList ++ b

/-- A possible result of the script on an input. -/
def Output (cwd content : Str) (out : List (Str × Str)) : Prop :=
  ∃ txtfiles : List (Path × Str), txtfiles.Perm (tmpFiles cwd content) ∧
    ReduceByKey join (wordPositions txtfiles) out

/-- A position is listed for a word. -/
def Lists (out : List (Str × Str)) (w : Str) (n : ℕ) : Prop :=
  ∃ s, (w, s) ∈ out ∧ toStr n ∈ split s

/-! ### Lines and words

Python splits lines and words at other characters than C++. On printable ASCII with blanks and
newlines both find the same words on the same lines, which is where the comparison is made. -/

/-- Printable ASCII, blanks and newlines. -/
def PlainText (content : Str) : Prop :=
  ∀ c ∈ content, (32 ≤ c.toNat ∧ c.toNat ≤ 126) ∨ c = '\t' ∨ c = '\n'

instance (content : Str) : Decidable (PlainText content) := List.decidableBAll _ content

/-- On plain text the two languages have the same white space. -/
theorem isspace_eq {c : Char} (h : (32 ≤ c.toNat ∧ c.toNat ≤ 126) ∨ c = '\t' ∨ c = '\n') :
    isspace c = MapReduceCpp.isspace c := by
  rcases h with ⟨hlo, hhi⟩ | rfl | rfl
  · have hne : ∀ d : Char, d.toNat < 32 → (c == d) = false := by
      intro d hd
      rw [beq_eq_false_iff_ne]
      intro he
      rw [he] at hlo
      omega
    have hblank : (c == ' ') = decide (c.toNat = 32) := by
      rw [Bool.eq_iff_iff, beq_iff_eq, decide_eq_true_eq]
      exact ⟨fun he => he ▸ rfl, fun he => Char.toNat_inj.mp he⟩
    have hcpp : MapReduceCpp.isspace c = decide (c.toNat = 32) := by
      simp only [MapReduceCpp.isspace, hblank, hne '\t' (by decide), hne '\n' (by decide),
        hne '\x0b' (by decide), hne '\x0c' (by decide), hne '\r' (by decide), Bool.or_false]
    rw [hcpp, Bool.eq_iff_iff]
    simp only [isspace, Bool.or_eq_true, Bool.and_eq_true, decide_eq_true_eq, beq_iff_eq]
    omega
  · rfl
  · rfl

theorem readlines_of_not_mem {xs : Str} (hne : xs ≠ []) (h : '\n' ∉ xs) : readlines xs = [xs] := by
  induction xs with
  | nil => exact absurd rfl hne
  | cons c cs ih =>
    rw [List.mem_cons, not_or] at h
    rw [readlines, if_neg (Ne.symm h.1)]
    by_cases hcs : cs = []
    · subst hcs
      rfl
    · rw [ih hcs h.2]

theorem readlines_append_cons {l : Str} (h : '\n' ∉ l) (r : Str) :
    readlines (l ++ '\n' :: r) = (l ++ ['\n']) :: readlines r := by
  induction l with
  | nil => rfl
  | cons c cs ih =>
    rw [List.mem_cons, not_or] at h
    rw [List.cons_append, readlines, if_neg (Ne.symm h.1), ih h.2]
    rfl

/-- The two languages find the same words on the same lines. -/
theorem map_split_readlines {content : Str} (h : PlainText content) :
    (readlines content).map split = (lines '\n' content).map (tokens MapReduceCpp.isspace) := by
  induction content using lines_induction '\n' with
  | nil => rfl
  | single xs hne hmem =>
    rw [readlines_of_not_mem hne hmem, lines_of_not_mem hne hmem, List.map_singleton,
      List.map_singleton, split, tokens_congr fun c hc => isspace_eq (h c hc)]
  | cons l r hmem ih =>
    have hl : tokens isspace l = tokens MapReduceCpp.isspace l :=
      tokens_congr fun c hc => isspace_eq (h c (List.mem_append_left _ hc))
    have hnewline : tokens isspace (l ++ ['\n']) = tokens isspace l := by
      rw [tokens_append_cons l [] (by decide), tokens_nil, List.append_nil]
    rw [readlines_append_cons hmem, lines_append_cons hmem, List.map_cons, List.map_cons,
      ih fun c hc => h c (List.mem_append_right _ (List.mem_cons_of_mem _ hc)), split, hnewline, hl]

/-! ### Positions

What the script takes for the number of a line. The path ends in the numeral and four more
characters, so the fifth from the end is the last digit of the numeral, and the digits before it
are cut off. -/

/-- The position cut out of a path is the last digit of the line number. -/
theorem positionOf_linePath (cwd : Str) (k : ℕ) :
    positionOf (linePath cwd k) = toStr (k % 10 : ℕ) := by
  have hlast : ∃ init, toStr k = init ++ [Nat.digitChar (k % 10)] := by
    rw [toStr_natCast]
    by_cases hk : k < 10
    · exact ⟨[], by rw [Nat.toDigits_of_lt_base hk, Nat.mod_eq_of_lt hk, List.nil_append]⟩
    · exact ⟨_, Nat.toDigits_of_base_le (by omega) (by omega)⟩
  obtain ⟨init, hinit⟩ := hlast
  have hdigit : toStr (k % 10 : ℕ) = [Nat.digitChar (k % 10)] := by
    rw [toStr_natCast, Nat.toDigits_of_lt_base (Nat.mod_lt k (by omega))]
  rw [hdigit, positionOf, linePath, hinit]
  simp

theorem mem_tmpFiles {cwd content : Str} {t : Path × Str} :
    t ∈ tmpFiles cwd content ↔ ∃ (i : ℕ) (line : Str), (readlines content)[i]? = some line ∧
      t = (linePath cwd (i + 1), line) := by
  rw [tmpFiles, List.mem_map]
  constructor
  · intro h
    obtain ⟨⟨line, k⟩, hline, rfl⟩ := h
    obtain ⟨hk, hget⟩ := List.mk_mem_zipIdx_iff_le_and_getElem?_sub.mp hline
    exact ⟨k - 1, line, hget, by rw [Nat.sub_add_cancel hk]⟩
  · intro h
    obtain ⟨i, line, hget, rfl⟩ := h
    exact ⟨(line, i + 1), List.mk_mem_zipIdx_iff_le_and_getElem?_sub.mpr ⟨by omega, hget⟩, rfl⟩

/-- A word comes with the last digit of the number of each line it is on, in whatever order the
files are delivered. -/
theorem mem_wordPositions {content cwd w p : Str} (h : PlainText content)
    {txtfiles : List (Path × Str)} (hperm : txtfiles.Perm (tmpFiles cwd content)) :
    (w, p) ∈ wordPositions txtfiles ↔ ∃ (i : ℕ) (line : Str),
      (lines '\n' content)[i]? = some line ∧ w ∈ tokens MapReduceCpp.isspace line ∧
        p = toStr ((i + 1) % 10 : ℕ) := by
  -- `readlines` keeps the newlines and splits at other characters than `getline`, but
  -- of plain text the words of the i-th line are the same.
  have hwords : ∀ i : ℕ, ((readlines content)[i]?).map split =
      ((lines '\n' content)[i]?).map (tokens MapReduceCpp.isspace) := by
    intro i
    rw [← List.getElem?_map, ← List.getElem?_map, map_split_readlines h]
  have hmem : (w, p) ∈ wordPositions txtfiles ↔ ∃ t ∈ tmpFiles cwd content,
      w ∈ split t.2 ∧ p = positionOf t.1 := by
    simp only [wordPositions, List.mem_map, List.mem_flatMap, hperm.mem_iff, Prod.mk.injEq]
    constructor
    · intro h
      obtain ⟨u, ⟨t, ht, word, hword, rfl⟩, rfl, rfl⟩ := h
      exact ⟨t, ht, hword, rfl⟩
    · intro h
      obtain ⟨t, ht, hw, rfl⟩ := h
      exact ⟨_, ⟨t, ht, w, hw, rfl⟩, rfl, rfl⟩
  rw [hmem]
  constructor
  · intro h
    obtain ⟨t, ht, hw, rfl⟩ := h
    obtain ⟨i, line, hget, rfl⟩ := mem_tmpFiles.mp ht
    have hline := hwords i
    rw [hget] at hline
    obtain ⟨line', hget', htokens⟩ := Option.map_eq_some_iff.mp hline.symm
    exact ⟨i, line', hget', htokens ▸ hw, positionOf_linePath cwd (i + 1)⟩
  · intro h
    obtain ⟨i, line, hget, hw, rfl⟩ := h
    have hline := hwords i
    rw [hget] at hline
    obtain ⟨line', hget', htokens⟩ := Option.map_eq_some_iff.mp hline
    exact ⟨_, mem_tmpFiles.mpr ⟨i, line', hget', rfl⟩, htokens ▸ hw,
      (positionOf_linePath cwd (i + 1)).symm⟩

/-! ### Combining

Positions are joined with a blank in between, so splitting the joined string gives them back, in
the order in which they were combined. -/

/-- Joined positions are read back as the positions, in some order. -/
theorem split_of_combines {vs : List Str} {s : Str} (h : Combines join vs s)
    (hvs : ∀ v ∈ vs, IsWord isspace v) : (split s).Perm vs := by
  induction h with
  | single x =>
    rw [split, tokens_word (hvs x (List.mem_singleton_self x))]
  | @combine xs ys zs x y _ _ hperm ihx ihy =>
    have hx := ihx fun v hv => hvs v (hperm.mem_iff.mpr (List.mem_append_left _ hv))
    have hy := ihy fun v hv => hvs v (hperm.mem_iff.mpr (List.mem_append_right _ hv))
    have hjoin : split (join x y) = split x ++ split y := by
      have happ : join x y = x ++ ' ' :: y := by simp [join]
      rw [happ, split, tokens_append_cons x y (by decide)]
      rfl
    rw [hjoin]
    exact (hx.append hy).trans hperm.symm

/-- Values can be combined, if there are any. -/
theorem exists_combines {β : Type} (f : β → β → β) {vs : List β} (h : vs ≠ []) :
    ∃ x, Combines f vs x := by
  induction vs with
  | nil => exact absurd rfl h
  | cons v vs ih =>
    by_cases hvs : vs = []
    · subst hvs
      exact ⟨v, .single v⟩
    · obtain ⟨x, hx⟩ := ih hvs
      exact ⟨f v x, .combine (.single v) hx (List.Perm.refl _)⟩

/-- The script has a result on every input. -/
theorem exists_output (cwd content : Str) : ∃ out, Output cwd content out := by
  have hvalue : ∀ k : Str, ∃ s, k ∈ (wordPositions (tmpFiles cwd content)).map Prod.fst →
      Combines join (valuesOf k (wordPositions (tmpFiles cwd content))) s := by
    intro k
    by_cases hk : k ∈ (wordPositions (tmpFiles cwd content)).map Prod.fst
    · obtain ⟨s, hs⟩ := exists_combines join (valuesOf_ne_nil.mpr hk)
      exact ⟨s, fun _ => hs⟩
    · exact ⟨[], fun h => absurd h hk⟩
  choose value hvalue using hvalue
  refine ⟨((wordPositions (tmpFiles cwd content)).map Prod.fst).dedup.map fun k => (k, value k),
    tmpFiles cwd content, List.Perm.refl _, ?_, fun k => ?_, fun k s hmem => ?_⟩
  · rw [List.map_map]
    simpa [Function.comp_def] using List.nodup_dedup _
  · rw [List.map_map]
    simp [Function.comp_def]
  · obtain ⟨k', hk', heq⟩ := List.mem_map.mp hmem
    obtain ⟨rfl, rfl⟩ := Prod.mk.inj heq
    exact hvalue k' (List.mem_dedup.mp hk')

/-- The script lists the last digit of the number of each line a word is on. -/
theorem lists_iff {cwd content : Str} {out : List (Str × Str)} (h : PlainText content)
    (hout : Output cwd content out) (w : Str) (n : ℕ) :
    Lists out w n ↔ ∃ (i : ℕ) (line : Str), (lines '\n' content)[i]? = some line ∧
      w ∈ tokens MapReduceCpp.isspace line ∧ n = (i + 1) % 10 := by
  obtain ⟨txtfiles, hperm, hreduce⟩ := hout
  have hmem : ∀ p, p ∈ valuesOf w (wordPositions txtfiles) ↔ ∃ (i : ℕ) (line : Str),
      (lines '\n' content)[i]? = some line ∧ w ∈ tokens MapReduceCpp.isspace line ∧
        p = toStr ((i + 1) % 10 : ℕ) := fun p => by rw [mem_valuesOf, mem_wordPositions h hperm]
  -- A position is a decimal number, so joining them with blanks keeps them apart.
  have hwords : ∀ v ∈ valuesOf w (wordPositions txtfiles), IsWord isspace v := by
    intro v hv
    obtain ⟨i, -, -, -, rfl⟩ := (hmem v).mp hv
    refine ⟨toStr_ne_nil _, fun c hc => ?_⟩
    have hdigit := isDigit_of_mem_toStr hc
    have hrange : 48 ≤ c.toNat ∧ c.toNat ≤ 57 := by
      simpa [Char.isDigit, UInt32.le_iff_toNat_le] using hdigit
    rw [isspace_eq (.inl ⟨by omega, by omega⟩), isspace_of_isDigit hdigit]
  constructor
  · intro hlist
    obtain ⟨s, hs, hn⟩ := hlist
    have hperm' := split_of_combines (hreduce.combines w s hs) hwords
    obtain ⟨i, line, hget, hw, hn'⟩ := (hmem _).mp (hperm'.mem_iff.mp hn)
    exact ⟨i, line, hget, hw, toStr_injective hn'⟩
  · intro hline
    obtain ⟨i, line, hget, hw, rfl⟩ := hline
    have hv := (hmem _).mpr ⟨i, line, hget, hw, rfl⟩
    have hkey : w ∈ out.map Prod.fst :=
      (hreduce.keys w).mpr (valuesOf_ne_nil.mp (List.ne_nil_of_mem hv))
    obtain ⟨⟨k, s⟩, hs, rfl⟩ := List.mem_map.mp hkey
    exact ⟨s, hs, (split_of_combines (hreduce.combines k s hs) hwords).mem_iff.mpr hv⟩

end Spark

/-! ### The comparison

The two programs are compared by what they list for a word, as sets. The only thing between them
is the numeral that the script cuts short. -/

namespace InvertedIndex

/-- A line number is listed for a word in one of the output files. -/
def Listed (job : Job) (d : Disk) (w : Str) (n : ℕ) : Prop :=
  ∃ r < job.nrReducer, ∃ text, d (job.output r) = some text ∧
    ∃ line ∈ lines '\n' text, ∃ ns, tokens isspace line = w :: ns ∧ toStr n ∈ ns

/-- The run of the C++ program is defined, and whatever order Spark works in, its positions are
those of the C++ program, counted from 1. -/
def Agrees (job : Job) (cwd content : Str) (ms rs : List ℕ) (d : Disk) : Prop :=
  let maps := job.mapPhase ms d
  let reduces := job.reducePhase rs maps.2
  (∀ t ∈ maps.1 ++ reduces.1, t.outcome = .ok 0) ∧
    ∀ out, Spark.Output cwd content out → ∀ w k,
      Spark.Lists out w k ↔ ∃ n, Listed job reduces.2 w n ∧ k = n + 1

variable {job : Job} {content : Str} {d : Disk} {ms rs : List ℕ}

/-- An exact run lists the lines a word is on. -/
theorem listed_iff (h : Exact job content ms rs d) (w : Str) (n : ℕ) :
    Listed job (job.reducePhase rs (job.mapPhase ms d).2).2 w n ↔
      ∃ line, (lines '\n' content)[n]? = some line ∧ w ∈ tokens isspace line := by
  obtain ⟨-, texts, htexts, hperm, -⟩ := h
  have hfields : ∀ k ∈ tokens isspace content,
      tokens isspace (entryLine (k, positions content k)) = k :: positions content k := by
    intro k hk
    refine tokens_entryLine ⟨isWord_of_mem_tokens hk, fun v hv => ?_⟩
    obtain ⟨i, -, -, -, rfl⟩ := mem_positions.mp hv
    exact word_toStr i
  constructor
  · -- A line of an output file is the entry of some word, and its first field tells which.
    intro hlist
    obtain ⟨r, hr, text, htext, line, hline, ns, hns, hn⟩ := hlist
    obtain rfl := Option.some.inj ((htexts r hr).symm.trans htext)
    have hmem := hperm.mem_iff.mp
      (List.mem_flatMap.mpr ⟨r, List.mem_range.mpr hr, hline⟩)
    obtain ⟨k, hk, rfl⟩ := List.mem_map.mp hmem
    rw [hfields k (List.mem_dedup.mp hk)] at hns
    obtain ⟨rfl, rfl⟩ := List.cons.inj hns
    obtain ⟨i, line', hget, hw, hi⟩ := mem_positions.mp hn
    exact ⟨line', toStr_injective hi ▸ hget, hw⟩
  -- A file that lists the word has a line of it, since the index has one for every token.
  · intro hline
    obtain ⟨line, hget, hw⟩ := hline
    have hk : w ∈ tokens isspace content := by
      rw [← flatMap_tokens_lines isspace_newline]
      exact List.mem_flatMap.mpr ⟨line, List.mem_of_getElem? hget, hw⟩
    have hmem := hperm.mem_iff.mpr
      (List.mem_map_of_mem (List.mem_dedup.mpr hk))
    obtain ⟨r, hr, hout⟩ := List.mem_flatMap.mp hmem
    exact ⟨r, List.mem_range.mp hr, _, htexts r (List.mem_range.mp hr), _, hout, _, hfields w hk,
      mem_positions.mpr ⟨n, line, hget, hw, rfl⟩⟩

end InvertedIndex

open InvertedIndex in
/-- **The checker agrees with InvertedIndex exactly on inputs without words from the
tenth line on** (and few enough for the counters of the C++ program). -/
theorem spark_agrees_iff (job : Job) (hjob : job.iface = InvertedIndex.iface) (cwd content : Str)
    (hplain : Spark.PlainText content) (d : Disk) (hapart : job.InputApart)
    (hd : d job.input = some content) {ms rs : List ℕ} (hms : ms.Perm (List.range job.nrMapper))
    (hrs : rs.Perm (List.range job.nrReducer)) :
    InvertedIndex.Agrees job cwd content ms rs d ↔
      (lines '\n' content).length < 2 ^ 31 ∧ (∀ w, (tokens isspace content).count w < 2 ^ 31) ∧
        ∀ (i : ℕ) (line : Str), (lines '\n' content)[i]? = some line → 9 ≤ i →
          tokens isspace line = [] := by
  constructor
  · intro h
    have hmapReturns := Job.mapReturns_of_outcomes hapart hms hd
      fun t ht => h.1 t (List.mem_append_left _ ht)
    have hlen := (hmapReturns 0 job.nrMapper_pos).length_lt
    have hcount := fun w => count_lt_of_outcomes hjob hapart hd hlen hms hrs h.1 w
    have hexact := exact_of_count_lt hjob hapart hd hlen hms hrs hcount
    refine ⟨hlen, hcount, fun i line hget hi => ?_⟩
    -- A word on line i is listed at i by the C++ program, but at i + 1 by Spark only if
    -- that is one digit long.
    obtain ⟨out, hout⟩ := Spark.exists_output cwd content
    by_contra hne
    obtain ⟨w, hw⟩ := List.exists_mem_of_ne_nil _ hne
    have hspark := (h.2 out hout w (i + 1)).mpr ⟨i, (listed_iff hexact w i).mpr ⟨line, hget, hw⟩, rfl⟩
    obtain ⟨j, -, -, -, hj⟩ := (Spark.lists_iff hplain hout w (i + 1)).mp hspark
    have hlt : (j + 1) % 10 < 10 := Nat.mod_lt _ (by omega)
    omega
  · intro h
    obtain ⟨hlen, hcount, hblank⟩ := h
    have hexact := exact_of_count_lt hjob hapart hd hlen hms hrs hcount
    refine ⟨hexact.1, fun out hout w k => ?_⟩
    rw [Spark.lists_iff hplain hout]
    -- The last digit is the whole number on the lines that have words.
    have hsmall : ∀ (i : ℕ) (line : Str), (lines '\n' content)[i]? = some line →
        w ∈ tokens isspace line → (i + 1) % 10 = i + 1 := by
      intro i line hget hw
      have hi : i < 9 := by
        by_contra hi
        rw [hblank i line hget (by omega)] at hw
        cases hw
      omega
    constructor
    · intro hline
      obtain ⟨i, line, hget, hw, rfl⟩ := hline
      exact ⟨i, (listed_iff hexact w i).mpr ⟨line, hget, hw⟩, hsmall i line hget hw⟩
    · intro hlist
      obtain ⟨n, hn, rfl⟩ := hlist
      obtain ⟨line, hget, hw⟩ := (listed_iff hexact w n).mp hn
      exact ⟨n, line, hget, hw, (hsmall n line hget hw).symm⟩

/-- Two words on the first two lines. -/
theorem spark_agrees_iff_sample :
    InvertedIndex.Agrees InvertedIndex.sampleJob "/home".toList "a b\na\n".toList [1, 0] [0, 1]
      (Job.sampleDisk "a b\na\n".toList) := by
  have hplain : Spark.PlainText "a b\na\n".toList := by decide
  have hblank : ∀ (i : ℕ) (line : Str), (lines '\n' "a b\na\n".toList)[i]? = some line → 9 ≤ i →
      tokens isspace line = [] := by
    intro i line hget hi
    have hlt := (List.getElem?_eq_some_iff.mp hget).1
    have hlen : (lines '\n' "a b\na\n".toList).length = 2 := by decide
    omega
  exact (spark_agrees_iff InvertedIndex.sampleJob rfl "/home".toList "a b\na\n".toList hplain
    (Job.sampleDisk "a b\na\n".toList) Job.sampleJob_inputApart (Job.sampleDisk_input _)
    (show [1, 0].Perm (List.range 2) by decide) (show [0, 1].Perm (List.range 2) by decide)).mpr
      ⟨by decide, fun _ => lt_of_le_of_lt List.count_le_length (by decide), hblank⟩

/-- A word on the tenth line: the C++ program lists line 9, the checker position 0
and not 10. -/
theorem spark_disagrees :
    InvertedIndex.Listed InvertedIndex.sampleJob
        (InvertedIndex.sampleJob.reducePhase [0, 1] (InvertedIndex.sampleJob.mapPhase [0, 1]
          (Job.sampleDisk "\n\n\n\n\n\n\n\n\na\n".toList)).2).2 "a".toList 9 ∧
      (∀ out, Spark.Output "/home".toList "\n\n\n\n\n\n\n\n\na\n".toList out →
        Spark.Lists out "a".toList 0 ∧ ¬ Spark.Lists out "a".toList 10) ∧
      ¬ InvertedIndex.Agrees InvertedIndex.sampleJob "/home".toList
        "\n\n\n\n\n\n\n\n\na\n".toList [0, 1] [0, 1]
        (Job.sampleDisk "\n\n\n\n\n\n\n\n\na\n".toList) := by
  have hplain : Spark.PlainText "\n\n\n\n\n\n\n\n\na\n".toList := by decide
  have hexact : InvertedIndex.Exact InvertedIndex.sampleJob "\n\n\n\n\n\n\n\n\na\n".toList
      [0, 1] [0, 1] (Job.sampleDisk "\n\n\n\n\n\n\n\n\na\n".toList) :=
    InvertedIndex.exact_of_count_lt rfl Job.sampleJob_inputApart (Job.sampleDisk_input _)
      (by decide) (show [0, 1].Perm (List.range 2) by decide)
      (show [0, 1].Perm (List.range 2) by decide)
      fun _ => lt_of_le_of_lt List.count_le_length (by decide)
  have hzero : ∀ out, Spark.Output "/home".toList "\n\n\n\n\n\n\n\n\na\n".toList out →
      Spark.Lists out "a".toList 0 := fun out hout =>
    (Spark.lists_iff hplain hout "a".toList 0).mpr ⟨9, "a".toList, by decide⟩
  refine ⟨(InvertedIndex.listed_iff hexact _ 9).mpr ⟨"a".toList, by decide⟩, fun out hout =>
    ⟨hzero out hout, fun hten => ?_⟩, fun h => ?_⟩
  · obtain ⟨j, -, -, -, hj⟩ := (Spark.lists_iff hplain hout "a".toList 10).mp hten
    have hlt : (j + 1) % 10 < 10 := Nat.mod_lt _ (by omega)
    omega
  · obtain ⟨out, hout⟩ := Spark.exists_output "/home".toList "\n\n\n\n\n\n\n\n\na\n".toList
    obtain ⟨n, -, hn⟩ := (h.2 out hout "a".toList 0).mp (hzero out hout)
    omega

end MapReduceCpp
