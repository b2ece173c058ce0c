import MapReduceCpp.Clients.Main
import MapReduceCpp.Clients.WordCounter
import MapReduceCpp.Clients.InvertedIndex
import MapReduceCpp.Clients.ReverseWeblinkGraph
import MapReduceCpp.Process.Liveness

/-!
# MapReduceCpp.Programs

The client programs from their configuration to their output files.

What was shown of a single task and of tasks in sequence is here put on top of what
was shown of `process`. A user function need not be harmless for all arguments: where
no call throws that a run without crashes makes (`Job.Completes`), none throws in any
run, since no other controller gets to see anything but the input and complete temp
files (`Job.Completes.reaches`). So all workers survive what they compute, every code
is 0, `process` returns in every fair run, and the files it leaves are those the client
is meant to produce.
-/

namespace MapReduceCpp

open InputStream Grouping

variable {job : Job} {s : State} {content : Str} {d : Disk}

/-! ### Jobs that complete

The condition is on the calls of a sequential run. That it is enough for every run goes in a
circle that each step closes: as long as all codes are 0 the files are in order, and on files in
order the next controller returns 0. -/

/-- The calls that one pass over the input makes do not throw, and its lines can be numbered. -/
structure Job.Completes (job : Job) (content : Str) : Prop where
  map : ∀ m < job.nrMapper, job.MapReturns content m
  reduce : ∀ r < job.nrReducer, job.ReduceReturns content r

/-- A controller that begins while the files are in order succeeds: a mapper finds the input,
and a reducer the temp files that the mappers have been asked for. -/
theorem Job.Completes.begins (h : job.Completes content) (hb : job.Sound)
    (hd : d job.input = some content)
    (hr : Transition.Reaches (step job) (fun _ _ => True) (.init d) s)
    (hfiles : Files job content s) (l : Label) : Begins job job.Succeeds s l := by
  intro p k e _ hk _
  have hi := orderly_of_reaches hr
  have he := List.mem_of_getElem? hk
  obtain ⟨htask, -⟩ := (credit_of_reaches hr).running hi he
  have hlt := hi.topology.worker_lt p (hi.topology.lt_of_alive (hi.running he).1)
  rw [htask]
  cases hphase : s.ctrl.phase with
  | map => exact ⟨content, (input_of_reaches hb hr hphase).trans hd, h.map _ hlt⟩
  | reduce =>
    rw [hb.square] at hlt
    have hentries := Job.reducerEntries_eq fun m hm => hfiles.temps hi hphase hm hlt
    refine List.findSome?_eq_none_iff.mpr fun e he => h.reduce _ hlt e ?_
    rwa [hentries] at he

/-- Whatever is killed, every controller of every run succeeds. -/
theorem Job.Completes.reaches (h : job.Completes content) (hb : job.Sound)
    (hd : d job.input = some content) {ok : State → Label → Prop}
    (hr : Transition.Reaches (step job) ok (.init d) s) :
    Transition.Reaches (step job) (Begins job job.Succeeds) (.init d) s ∧ Errorless s ∧
      Files job content s := by
  -- The codes so far are 0, so the files are in order, so the next controller succeeds.
  have key : ∀ {s}, Transition.Reaches (step job) (Begins job job.Succeeds) (.init d) s →
      Errorless s ∧ Files job content s := by
    intro s hs
    have herr : Errorless s := fun p r hmem =>
      Except.ok.inj ((ends_of_reaches (P := (· = .ok 0)) (fun t d ht => ht.outcome)
        (fun _ _ hbegins => hbegins) hs).2 p r hmem)
    exact ⟨herr, (files_of_reaches hb hd hs).1 herr⟩
  suffices hs : Transition.Reaches (step job) (Begins job job.Succeeds) (.init d) s from
    ⟨hs, key hs⟩
  induction hr with
  | refl => exact .refl
  | tail hr _ hstep ih => exact .tail ih (h.begins hb hd hr.any (key ih).2 _) hstep

theorem Job.Completes.catches (h : job.Completes content) (hb : job.Sound)
    (hd : d job.input = some content) : job.Catches d := fun _ l hr p k e hl hk hprog =>
  (h.begins hb hd hr (h.reaches hb hd hr).2.2 l p k e hl hk hprog).caught

/-! ### Exceptions that nobody catches

The handlers of both controllers are for `int`s. Any other exception ends the worker, the master
takes that for a failure of its machine and has the task done again, by a worker that will meet
the same exception. -/

/-- The user functions throw no `int`, and do nothing undefined. -/
structure Job.Excepts (job : Job) : Prop where
  map : ∀ k v fault, (job.iface.mapFn k v).2 = some fault → ∃ what, fault = .exception what
  reduce : ∀ k vs fault, (job.iface.reduceFn k vs).2 = some fault → ∃ what, fault = .exception what

/-- Such a job has no code but 0, if the input is there: whatever is thrown leaves the
controller without a code. -/
theorem Job.Excepts.outcome (h : job.Excepts) {t : Task} {e : Disk}
    (hinput : t.phase = .map → e job.input = some content) {code : ℤ}
    (hcode : ((job.program t).run .all e).1.outcome = .ok code) : code = 0 := by
  obtain ⟨ph, idx⟩ := t
  cases ph with
  | map =>
    have hout := @Job.mapTask_outcome job content .all e idx (hinput rfl)
    rw [show job.program ⟨.map, idx⟩ = job.mapTask idx from rfl, hout] at hcode
    cases hfault : job.mapFault content idx with
    | none =>
      rw [hfault, mapOutcome] at hcode
      split at hcode
      · exact (Except.ok.inj hcode).symm
      · cases hcode
    | some fault =>
      obtain ⟨line, -, -, -, hthrown⟩ := Job.exists_of_mapFault hfault
      obtain ⟨what, rfl⟩ := h.map _ _ fault hthrown
      rw [hfault] at hcode
      cases hcode
  | reduce =>
    rw [show job.program ⟨.reduce, idx⟩ = job.reduceTask idx from rfl, Job.reduceTask_outcome]
      at hcode
    cases hfault : job.reduceFault .all e idx with
    | none =>
      rw [hfault] at hcode
      exact (Except.ok.inj hcode).symm
    | some fault =>
      obtain ⟨entry, -, hthrown⟩ := List.exists_of_findSome?_eq_some hfault
      obtain ⟨what, rfl⟩ := h.reduce _ _ fault hthrown
      rw [hfault] at hcode
      cases hcode

theorem Job.Excepts.errorless (h : job.Excepts) (hb : job.Sound) (hd : d job.input = some content)
    {ok : State → Label → Prop} (hr : Transition.Reaches (step job) ok (.init d) s) :
    Errorless s := by
  have hbegins : Transition.Reaches (step job)
      (Begins job fun t e => t.phase = .map → e job.input = some content) (.init d) s := by
    refine hr.strengthen fun s l hs _ p k e _ hk _ hphase => ?_
    have hi := orderly_of_reaches hs
    obtain ⟨htask, -⟩ := (credit_of_reaches hs).running hi (List.mem_of_getElem? hk)
    rw [htask] at hphase
    exact (input_of_reaches hb hs hphase).trans hd
  have hends := ends_of_reaches (P := fun out => ∀ code, out = .ok code → code = 0)
    (fun t e ht code hcode => h.outcome ht hcode) (fun _ _ hl => hl) hbegins
  exact fun p r hmem => hends.2 p r hmem r.2 rfl

/-- **An exception other than an `int` keeps `process` busy forever.** If the user
functions throw nothing else, some run of `process` comes to a return exactly if no call
that the job has to make throws: the process of a handler that throws is replaced as
often as it ends. -/
theorem returns_iff_completes (hb : job.Sound) (hd : d job.input = some content)
    (hlen : (lines '\n' content).length < 2 ^ 31) (hexc : job.Excepts) :
    (∃ s, Transition.Reaches (step job) (fun _ _ => True) (.init d) s ∧ s.ctrl = .returned) ↔
      (∀ line ∈ (lines '\n' content).zipIdx, (job.iface.mapFn (toStr line.2) line.1).2 = none) ∧
        ∀ r < job.nrReducer, ∀ e ∈ job.entries content r, (job.iface.reduceFn e.1 e.2).2 = none := by
  constructor
  · rintro ⟨s, hr, hc⟩
    have hfiles := (files_of_reaches hb hd hr).1 (hexc.errorless hb hd hr)
    have hi := orderly_of_reaches hr
    refine ⟨fun line hline => ?_, fun r hlt =>
      (@Files.written job s content ⟨.reduce, r⟩ hfiles hi hc hlt).1⟩
    have howner := @Job.lineOwner_lt job line
    have hmap := (@Files.written job s content ⟨.map, _⟩ hfiles hi hc howner).1
    exact hmap.returns _ (List.mem_map_of_mem (ListPartition.mem_part.mpr ⟨hline, rfl⟩))
  · rintro ⟨hmap, hreduce⟩
    have hcompl : job.Completes content :=
      ⟨fun m hm => Job.mapReturns_of_lines hlen hmap hm, hreduce⟩
    obtain ⟨s, hr, hc⟩ := exists_returned hb (hcompl.catches hb hd) (d := d) .refl
    exact ⟨s, hr.any, hc⟩

/-- One line that cannot be mapped keeps a worker busy forever. -/
theorem returns_iff_completes_throwingJob :
    ¬ ∃ s, Transition.Reaches (step (throwingJob (.exception "invalid_argument".toList)))
      (fun _ _ => True) (.init (Job.sampleDisk "a".toList)) s ∧ s.ctrl = .returned := by
  have hexc : (throwingJob (.exception "invalid_argument".toList)).Excepts :=
    ⟨fun _ _ _ h => ⟨_, (Option.some.inj h).symm⟩, fun _ _ _ h => by cases h⟩
  intro h
  obtain ⟨hmap, -⟩ := (returns_iff_completes ⟨Job.sampleJob_inputApart.temp, rfl⟩
    (Job.sampleDisk_input "a".toList) (by decide) hexc).mp h
  cases hmap ("a".toList, 0) (by decide)

/-! ### The clients

For each of the three clients, what is left to show is that its functions throw on none of the
calls that its own input leads to. The configuration enters by the counts, which `main` makes
equal. -/

/-- What a client program achieves on a disk: whatever is killed, all codes are 0 and
`process` returns with nothing but a good result, and in a fair run whose kills come to
an end, each when the master does not count on the process, it does return. -/
structure Job.Achieves (job : Job) (d : Disk) (Good : (ℕ → Str) → Prop) : Prop where
  codes : ∀ s, Transition.Reaches (step job) (fun _ _ => True) (.init d) s → Errorless s
  result : ∀ s, Transition.Reaches (step job) (fun _ _ => True) (.init d) s → s.ctrl = .returned →
    ∃ texts : ℕ → Str, (∀ r < job.nrReducer, s.disk (job.output r) = some (texts r)) ∧ Good texts
  returns : ∀ r : Transition.Run (step job) Timely (.init d), r.Fair Activity.acts →
    (∃ n, ∀ m ≥ n, ∀ p, r.label m ≠ some (.kill p)) → ∃ n, (r.state n).ctrl = .returned

theorem Job.Completes.achieves (h : job.Completes content) (hb : job.Sound)
    (hd : d job.input = some content) {Good : (ℕ → Str) → Prop}
    (hgood : Good (job.outputContent content)) : job.Achieves d Good where
  codes := fun _ hr => (h.reaches hb hd hr).2.1
  result := fun s hr hc => ⟨job.outputContent content, fun r hlt =>
    (@Files.written job s content ⟨.reduce, r⟩ (h.reaches hb hd hr).2.2 (orderly_of_reaches hr) hc
      hlt).2, hgood⟩
  returns := fun r hfair hkills => eventually_returned hb (h.catches hb hd) r hfair hkills

section Clients

variable {file : Option Str}

open WordCounter in
/-- **The word counting program counts words**, whatever is killed: a run that returns
leaves one output line for each token of the input, with its number of occurrences. -/
theorem wordCounter_main (hmain : startMain file = .ok (some job.toMapReduceMaster))
    (hjob : job.iface = WordCounter.iface) (hapart : job.InputApart)
    (hd : d job.input = some content) (hlen : (lines '\n' content).length < 2 ^ 31)
    (hcount : ∀ w, (tokens isspace content).count w < 2 ^ 31) :
    job.Achieves d fun texts =>
      ((List.range job.nrReducer).flatMap fun r => lines '\n' (texts r)).Perm
        ((tokens isspace content).dedup.map fun w =>
          w ++ " ".toList ++ toStr ((tokens isspace content).count w) ++ " ".toList) := by
  have hkeys : (job.sequentialPairs content).map Prod.fst = tokens isspace content := by
    simp [sequentialPairs_eq hjob, Function.comp_def]
  have hlist : ∀ k ∈ (job.sequentialPairs content).map Prod.fst,
      ∀ v ∈ [toStr ((tokens isspace content).count k)], '\n' ∉ v := fun k _ v hv => by
    rw [List.mem_singleton.mp hv]
    exact (word_toStr _).newline_not_mem
  obtain ⟨hreduce, hperm⟩ := Job.outputLines_perm (emitsWords hjob) (reduceFn_pairs hjob hcount) hlist
  have hcompl : job.Completes content :=
    ⟨fun m hm => Job.mapReturns_of_lines hlen (fun line _ => by rw [hjob]; rfl) hm, hreduce⟩
  refine hcompl.achieves ⟨hapart.temp, square_of_startMain hmain⟩ hd ?_
  rw [hkeys] at hperm
  simpa [entryLine, Job.outputLines] using hperm

/-- The configuration of a client with two workers. -/
def sampleConfig : Str := "N_WORKER 2\nINPUTFILE in.txt\nDATADIR data".toList

theorem startMain_sampleConfig (hashers : Hashers) (iface : MapReduceInterface) :
    startMain (some sampleConfig) =
      .ok (some (Job.sampleJob hashers iface 2 Job.two_workers).toMapReduceMaster) := by rfl

theorem wordCounter_main_sample :
    WordCounter.sampleJob.Achieves (Job.sampleDisk "a b\n\na".toList) fun texts =>
      ((List.range 2).flatMap fun r => lines '\n' (texts r)).Perm
        ((tokens isspace "a b\n\na".toList).dedup.map fun w => w ++ " ".toList ++
          toStr ((tokens isspace "a b\n\na".toList).count w) ++ " ".toList) :=
  wordCounter_main (startMain_sampleConfig _ _) rfl Job.sampleJob_inputApart
    (Job.sampleDisk_input _) (by decide) fun _ => lt_of_le_of_lt List.count_le_length (by decide)

open InvertedIndex in
/-- **The indexing program lists the lines of every word**, whatever is killed: a run that
returns leaves one output line for each token of the input, with the numbers of exactly
the lines it occurs on, in increasing string order. -/
theorem invertedIndex_main (hmain : startMain file = .ok (some job.toMapReduceMaster))
    (hjob : job.iface = InvertedIndex.iface) (hapart : job.InputApart)
    (hd : d job.input = some content) (hlen : (lines '\n' content).length < 2 ^ 31)
    (hcount : ∀ w, (tokens isspace content).count w < 2 ^ 31) :
    job.Achieves d fun texts => ∃ index : Str → List Str,
      ((List.range job.nrReducer).flatMap fun r => lines '\n' (texts r)).Perm
        ((tokens isspace content).dedup.map fun w => entryLine (w, index w)) ∧
      ∀ w, (index w).Pairwise (· < ·) ∧ ∀ v, v ∈ index w ↔ ∃ (i : ℕ) (line : Str),
        (lines '\n' content)[i]? = some line ∧ w ∈ tokens isspace line ∧ v = toStr i := by
  have hF : ∀ k vs, (k, vs) ∈ Shuffle.reference (job.pairs content) →
      job.iface.reduceFn k vs = ([(k, positions content k)], none) := by
    intro k vs hmem
    rw [(Shuffle.mem_reference.mp hmem).2, hjob]
    exact reduceFn_eq hjob (hcount k)
  have hlist : ∀ k ∈ (job.sequentialPairs content).map Prod.fst, ∀ v ∈ positions content k,
      '\n' ∉ v := by
    intro k _ v hv
    obtain ⟨i, -, -, -, rfl⟩ := mem_positions.mp hv
    exact (word_toStr i).newline_not_mem
  obtain ⟨hreduce, hperm⟩ := Job.outputLines_perm (InvertedIndex.emitsWords hjob) hF hlist
  rw [sequentialPairs_keys hjob] at hperm
  have hcompl : job.Completes content := ⟨fun m hm => mapReturns hjob hlen hm, hreduce⟩
  exact hcompl.achieves ⟨hapart.temp, square_of_startMain hmain⟩ hd
    ⟨positions content, hperm, fun w => ⟨positions_pairwise content w, fun v => mem_positions⟩⟩

theorem invertedIndex_main_sample :
    InvertedIndex.sampleJob.Achieves (Job.sampleDisk "a b a\n\na".toList) fun texts =>
      ∃ index : Str → List Str,
        ((List.range 2).flatMap fun r => lines '\n' (texts r)).Perm
          ((tokens isspace "a b a\n\na".toList).dedup.map fun w => entryLine (w, index w)) ∧
        ∀ w, (index w).Pairwise (· < ·) ∧ ∀ v, v ∈ index w ↔ ∃ (i : ℕ) (line : Str),
          (lines '\n' "a b a\n\na".toList)[i]? = some line ∧ w ∈ tokens isspace line ∧
            v = toStr i :=
  invertedIndex_main (startMain_sampleConfig _ _) rfl Job.sampleJob_inputApart
    (Job.sampleDisk_input _) (by decide) fun _ => lt_of_le_of_lt List.count_le_length (by decide)

open ReverseWeblinkGraph in
/-- **The link graph program reverses its graph**, whatever is killed, if no half edge
does harm in its temp file: a run that returns leaves one output line for each target, with the
sources of its edges. -/
theorem reverseWeblinkGraph_main (hmain : startMain file = .ok (some job.toMapReduceMaster))
    (hjob : job.iface = ReverseWeblinkGraph.iface) (hapart : job.InputApart)
    (hd : d job.input = some content) (hlen : (lines '\n' content).length < 2 ^ 31)
    (hspace : SpacelessLines content) (haligned : Aligned job content) :
    job.Achieves d fun texts => Reversed content (listed job.nrReducer texts) := by
  obtain ⟨hmap, hreduce, hrev⟩ := (exact_iff hjob hapart hd (.refl _) (.refl _)).mp
    (exact_of_aligned hjob hapart hd (.refl _) (.refl _) hspace hlen haligned)
  have hcompl : job.Completes content := ⟨hmap, hreduce⟩
  refine hcompl.achieves ⟨hapart.temp, square_of_startMain hmain⟩ hd ?_
  rwa [listed_outputContent hjob hreduce]

open ReverseWeblinkGraph in
theorem reverseWeblinkGraph_main_sample :
    (workers ⟨fun _ => 0, fun _ => 0⟩ 2 Job.two_workers).Achieves
      (Job.sampleDisk "a,b\n\nc,b\nx\n,\nx,x".toList) fun texts =>
        Reversed "a,b\n\nc,b\nx\n,\nx,x".toList (listed 2 texts) :=
  reverseWeblinkGraph_main (startMain_sampleConfig _ _) rfl Job.sampleJob_inputApart
    (Job.sampleDisk_input _) (by decide) (.of_all (by decide)) (by decide)

end Clients

end MapReduceCpp
