import MapReduceCpp.Clients

/-!
# MapReduceCpp.Clients.Main

How the `main` of a client application reads its configuration.

The three clients share the code: every line is cut into words, the first of which
names the variable and the second its value. Neither the number of words nor the
number is checked, so a line without a word is read out of bounds and a worker count
that `stoi` refuses ends the program. A later assignment replaces an earlier one, and
a line with any other first word is skipped (`readConfig_iff`).
-/

namespace MapReduceCpp

open InputStream

/-- The variables that `main` sets by configuration; `nr_workers` is not initialized, so it has
no value before a line sets it. -/
structure Config where
  nrWorkers : Option ℤ
  inputFileName : Str
  dataDirectory : Str
  deriving DecidableEq, Repr

/-- The words that name a variable in a configuration. -/
inductive Key
  | nWorker
  | inputFile
  | dataDir
  deriving DecidableEq

/-- How the word is spelled. -/
def Key.word : Key → Str
  | nWorker => "N_WORKER".toList
  | inputFile => "INPUTFILE".toList
  | dataDir => "DATADIR".toList

theorem Key.word_inj : ∀ {k k' : Key}, k.word = k'.word ↔ k = k' := by
  intro k k'
  cases k <;> cases k' <;> decide

/-- `v[i]` of a vector, which is not checked: to read behind its end is undefined. -/
def element (v : List Str) (i : ℕ) : Except Fault Str :=
  match v[i]? with
  | none => .error .undefined
  | some s => .ok s

namespace Config

/-- The variables before the first line. -/
def init : Config := ⟨none, [], []⟩

/-- The assignment that the words of a line ask for. The first word is compared with the three
names in turn, and a line with any other is left alone. -/
def assign (c : Config) (v : List Str) : Except Fault Config := do
  let key ← element v 0
  if key = Key.nWorker.word then
    let n ← stoi (← element v 1)
    .ok { c with nrWorkers := some n }
  else if key = Key.inputFile.word then
    let name ← element v 1
    .ok { c with inputFileName := name }
  else if key = Key.dataDir.word then
    let name ← element v 1
    .ok { c with dataDirectory := name }
  else .ok c

/-- The `MapReduceMaster` that `main` creates, if the number of workers has been set and is
positive. With any other there is nothing that could be said of a run. -/
def master (c : Config) : Option MapReduceMaster :=
  match c.nrWorkers with
  | none => none
  | some n =>
    if h : 0 < n ∧ n < 2 ^ 31 then
      some ⟨c.inputFileName, c.dataDirectory, n.toNat, n.toNat, by omega, by omega, by omega,
        by omega⟩
    else none

end Config

/-- The loop of `main` over the lines of the configuration, of which there are none if
the file cannot be opened. -/
def readConfig (file : Option Str) : Except Fault Config :=
  (lines '\n' (file.getD [])).foldlM (fun c str => c.assign (readWords str)) Config.init

/-- `main` up to the call of `process`. -/
def startMain (file : Option Str) : Except Fault (Option MapReduceMaster) := do
  let c ← readConfig file
  .ok c.master

/-- The master of a client has as many reducers as mappers. -/
theorem square_of_startMain {file : Option Str} {m : MapReduceMaster}
    (h : startMain file = .ok (some m)) : m.nrMapper = m.nrReducer := by
  unfold startMain at h
  cases hc : readConfig file with
  | error fault =>
    rw [hc, error_bind] at h
    cases h
  | ok c =>
    rw [hc, ok_bind, Except.ok.injEq, Config.master] at h
    split at h
    · cases h
    · split at h
      · obtain rfl := Option.some.inj h
        rfl
      · cases h

/-! ### Lines

What a line does to the variables depends on nothing but the line, so the whole file is settled
line by line: it can be read if all its lines can, and the last line that sets a variable has
the say. -/

/-- The value a line sets a variable to. -/
def setting (key : Key) (line : Str) : Option Str :=
  match tokens isspace line with
  | k :: v :: _ => if k = key.word then some v else none
  | _ => none

/-- The worker count a line sets. -/
def workerCount (line : Str) : Option ℤ :=
  (setting .nWorker line).bind fun v => (stoi v).toOption

/-- A line that `main` gets over: it has a word, a variable it names has a value, and a
worker count is a number. -/
def Readable (line : Str) : Prop :=
  match tokens isspace line with
  | [] => False
  | [k] => ∀ key : Key, k ≠ key.word
  | k :: v :: _ => k = Key.nWorker.word → (stoi v).isOk

variable {c c' : Config} {line : Str} {ls : List Str}

/-- One line: whether it can be read, and the variables behind it. -/
theorem assign_iff : c.assign (readWords line) = .ok c' ↔
    Readable line ∧
      ⟨((workerCount line).map some).getD c.nrWorkers,
        (setting .inputFile line).getD c.inputFileName,
        (setting .dataDir line).getD c.dataDirectory⟩ = c' := by
  rw [readWords_eq, Readable, workerCount, setting, setting, setting, Config.assign]
  rcases tokens isspace line with _ | ⟨k, _ | ⟨v, vs⟩⟩
  · simp [element, error_bind]
  · by_cases hkey : ∃ key : Key, k = key.word
    · obtain ⟨key, rfl⟩ := hkey
      cases key <;> simp [element, Key.word_inj, ok_bind, error_bind]
    · rw [not_exists] at hkey
      simp [element, hkey, ok_bind]
  · by_cases hkey : ∃ key : Key, k = key.word
    · obtain ⟨key, rfl⟩ := hkey
      cases key with
      | nWorker =>
        cases hv : stoi v <;> simp [element, Key.word_inj, hv, ok_bind, error_bind, Except.toOption,
          Except.isOk, Except.toBool]
      | inputFile => simp [element, Key.word_inj, ok_bind]
      | dataDir => simp [element, Key.word_inj, ok_bind]
    · rw [not_exists] at hkey
      simp [element, hkey, ok_bind]

/-- What is left of a variable that lines may replace. -/
theorem getLast?_filterMap_cons {α β : Type} (f : α → Option β) (x : α) (xs : List α) (b : β) :
    ((x :: xs).filterMap f).getLast?.getD b = (xs.filterMap f).getLast?.getD ((f x).getD b) := by
  cases h : f x with
  | none => rw [List.filterMap_cons_none h, Option.getD_none]
  | some y => rw [List.filterMap_cons_some h, List.getLast?_cons, Option.getD_some, Option.getD_some]

/-- All lines, from any values of the variables. By induction on the lines, with what a variable
is before the first of them as its value if none sets it. -/
theorem foldlM_assign_iff :
    ls.foldlM (fun c str => c.assign (readWords str)) c = .ok c' ↔
      (∀ line ∈ ls, Readable line) ∧
        ⟨(ls.filterMap fun line => (workerCount line).map some).getLast?.getD c.nrWorkers,
          (ls.filterMap (setting .inputFile)).getLast?.getD c.inputFileName,
          (ls.filterMap (setting .dataDir)).getLast?.getD c.dataDirectory⟩ = c' := by
  induction ls generalizing c with
  | nil => simp [pure, Except.pure]
  | cons line ls ih =>
    rw [List.foldlM_cons, getLast?_filterMap_cons, getLast?_filterMap_cons,
      getLast?_filterMap_cons, List.forall_mem_cons]
    cases hassign : c.assign (readWords line) with
    | error fault =>
      have hnot : ¬ Readable line := fun hread => by
        rw [assign_iff.mpr ⟨hread, rfl⟩] at hassign
        cases hassign
      simp [error_bind, hnot]
    | ok c₁ =>
      obtain ⟨hread, rfl⟩ := assign_iff.mp hassign
      rw [ok_bind, ih]
      simp [hread]

/-- **What `main` makes of its configuration.** It gets through exactly if every line has
a word, no variable is named without a value and every worker count is a number an `int`
can hold; each variable then has the value of the last line that sets it. -/
theorem readConfig_iff (file : Option Str) (c : Config) :
    readConfig file = .ok c ↔
      (∀ line ∈ lines '\n' (file.getD []), Readable line) ∧
        c.nrWorkers = ((lines '\n' (file.getD [])).filterMap workerCount).getLast? ∧
        c.inputFileName =
          ((lines '\n' (file.getD [])).filterMap (setting .inputFile)).getLast?.getD [] ∧
        c.dataDirectory =
          ((lines '\n' (file.getD [])).filterMap (setting .dataDir)).getLast?.getD [] := by
  have hmap : ∀ ls : List Str, (ls.filterMap fun line => (workerCount line).map some).getLast?.getD
      none = (ls.filterMap workerCount).getLast? := by
    intro ls
    rw [← List.map_filterMap, List.getLast?_map]
    cases (ls.filterMap workerCount).getLast? <;> rfl
  rw [readConfig, foldlM_assign_iff, Config.init, hmap]
  obtain ⟨n, f, dir⟩ := c
  simp only [Config.mk.injEq, eq_comm]

/-- A configuration as it is shipped, with a line that is skipped and one that is
replaced. -/
example : readConfig (some "N_WORKER 3\n# two are enough\nN_WORKER 2\nINPUTFILE a\nDATADIR b".toList) =
    .ok ⟨some 2, "a".toList, "b".toList⟩ := by decide

end MapReduceCpp
