import MapReduceCpp.Reference
import MapReduceCpp.Lib.Interleave
import MapReduceCpp.Lib.Restart

/-!
# MapReduceCpp.Tasks

The tasks of one phase side by side, and a task that is cut short and started again.

The tasks of a phase have disjoint footprints: a mapper reads the input and writes
its own row of temp files, a reducer reads its own column of them and writes its own
output file, and the decimal numerals in the names keep the files of different ids
apart. Hence all interleavings of a phase end alike (`Job.interleavings_commute`).

A controller opens every file it writes, and opening truncates. So whatever a partial
run has left in the files of the task, a complete run replaces it
(`Job.rerun_harmless`).
-/

namespace MapReduceCpp

open FileProg InputStream

variable {acc : Access Path} {dir : Str} {m r R : ℕ} {O : Set Path}

/-! ### Writing only to opened files

A part of a controller that takes streams may be handed any; it is guarded if these are usable.
The opening loops make streams that are, and the parts behind them go on from the paths that
have been opened by then. -/

/-- A stream can be written to if it is not open or its file is among the opened ones. -/
def OFStream.Usable (s : OFStream) (O : Set Path) : Prop := s.isOpen = true → s.path ∈ O

theorem put_guarded {s : OFStream} (hs : s.Usable O) (xs : Str) :
    (s.put xs).Guarded (fun _ O' => O' = O) O := by
  unfold OFStream.put
  split
  · rename_i hopen
    exact ⟨hs hopen, rfl⟩
  · rfl

theorem close_guarded (s : OFStream) : s.close.Guarded (fun _ O' => O' = O) O := by
  unfold OFStream.close
  split <;> rfl

theorem ofstream_guarded (p : Path) :
    (ofstream p).Guarded (fun s O' => O ⊆ O' ∧ s.Usable O') O :=
  ⟨⟨Set.subset_insert p O, fun _ => Set.mem_insert p O⟩, subset_rfl, fun h => by cases h⟩

theorem writeEntries_guarded {s : OFStream} (hs : s.Usable O) (data : List (Str × List Str)) :
    (writeEntries s data).Guarded (fun _ O' => O' = O) O := by
  have hvals : ∀ vs, (writeValues s vs).Guarded (fun _ O' => O' = O) O := by
    intro vs
    induction vs with
    | nil => rfl
    | cons v vs ih => exact (put_guarded hs _).bind fun _ O' hO => hO ▸ ih
  induction data with
  | nil => rfl
  | cons e es ih =>
    refine (put_guarded hs _).bind fun _ O₁ h₁ => ?_
    refine (h₁ ▸ hvals e.2 : (writeValues s e.2).Guarded (fun _ O' => O' = O₁) O₁).bind
      fun _ O₂ h₂ => ?_
    subst h₁ h₂
    exact (put_guarded hs _).bind fun _ O₃ h₃ => h₃ ▸ ih

theorem writeKeyValVector_guarded (p : Path) (data : List (Str × List Str)) :
    (writeKeyValVector p data).Guarded (fun _ _ => True) O := by
  refine (ofstream_guarded p).bind fun s O₁ h₁ => ?_
  refine (writeEntries_guarded h₁.2 data).bind fun _ O₂ h₂ => ?_
  exact (close_guarded s).imp fun _ _ _ => trivial

theorem openTempFiles_guarded (rs : List ℕ) :
    (openTempFiles dir m rs).Guarded (fun files O' => O ⊆ O' ∧ ∀ file ∈ files, file.Usable O') O := by
  induction rs generalizing O with
  | nil => exact ⟨subset_rfl, fun _ h => by cases h⟩
  | cons r rs ih =>
    refine (ofstream_guarded _).bind fun file O₁ h₁ => ?_
    refine ih.bind fun files O₂ h₂ => ?_
    refine ⟨h₁.1.trans h₂.1, List.forall_mem_cons.mpr ⟨fun hopen => h₂.1 (h₁.2 hopen), h₂.2⟩⟩

theorem writePairs_guarded {reducerIdx : Str → ℤ} {files : List OFStream}
    (h : ∀ file ∈ files, file.Usable O) (pairs : List (Str × Str)) :
    (writePairs reducerIdx files pairs).Guarded (fun _ _ => True) O := by
  induction pairs with
  | nil => trivial
  | cons elem rest ih =>
    rw [writePairs]
    cases hfile : atIndex files (reducerIdx elem.1) with
    | none => trivial
    | some file =>
      have hmem : file ∈ files := mem_of_atIndex hfile
      exact (put_guarded (h file hmem) _).bind fun _ O' hO => hO ▸ ih

theorem closeTempFiles_guarded (files : List OFStream) :
    (closeTempFiles files).Guarded (fun _ _ => True) O := by
  induction files generalizing O with
  | nil => trivial
  | cons file files ih => exact (close_guarded file).bind fun _ _ _ => ih

namespace Job

variable {job : Job}

theorem mapTask_guarded (m : ℕ) : (job.mapTask m).Guarded (fun _ _ => True) ∅ := by
  intro input
  cases input with
  | none => trivial
  | some content =>
    simp only [FileProg.done_bind]
    split
    · trivial
    · refine (openTempFiles_guarded _).bind fun files O₁ h₁ => ?_
      refine (writePairs_guarded h₁.2 _).bind fun fault O₂ _ => ?_
      cases fault with
      | some fault => trivial
      | none => exact (closeTempFiles_guarded files).bind fun _ _ _ => trivial

theorem gatherTempFiles_guarded (is : List ℕ) (keyValueAcc : ValueMap) :
    (gatherTempFiles dir r is keyValueAcc).Guarded (fun _ O' => O' = O) O := by
  induction is generalizing keyValueAcc with
  | nil => rfl
  | cons i is ih => exact fun _ => ih _

theorem reduceTask_guarded (r : ℕ) : (job.reduceTask r).Guarded (fun _ _ => True) ∅ := by
  refine (gatherTempFiles_guarded _ _).bind fun res O₁ _ => ?_
  cases res with
  | error outcome => trivial
  | ok keyValueAcc =>
    simp only
    split
    · trivial
    · exact (writeKeyValVector_guarded _ _).bind fun _ _ _ => trivial

/-! ### Side by side

The footprints of the tasks of a phase, and what the general result on independent programs says
of them. -/

/-- A list of tasks keeps to the footprints of its members. -/
theorem tasks_within {n : ℕ} {task : ℕ → FileProg Path Char TaskResult} {Rd W : ℕ → Set Path}
    (h : ∀ i, (task i).Within (Rd i) (W i)) (i : ℕ) (q : FileProg Path Char TaskResult)
    (hq : ((List.range n).map task)[i]? = some q) : q.Within (Rd i) (W i) := by
  obtain ⟨j, hj, rfl⟩ := Option.map_eq_some_iff.mp (List.getElem?_map.symm.trans hq)
  obtain ⟨hlt, hget⟩ := List.getElem?_eq_some_iff.mp hj
  rw [List.getElem_range] at hget
  exact hget ▸ h i

/-- Map tasks read the input and write different temp files. That the input is none of these is
the only thing that has to be assumed. -/
theorem mapTasks_independent (hapart : job.InputApart) :
    Independent ((List.range job.nrMapper).map job.mapTask) (fun _ => {job.input})
      (fun m => tempPaths job.outputResultDirectory m job.nrReducer) where
  within := tasks_within mapTask_within
  apart := by
    intro m hm m' hm' hne p hp
    simp only [List.length_map, List.length_range] at hm hm'
    obtain ⟨r, hr, rfl⟩ := hp
    refine ⟨fun he => hapart.temp m' hm' r hr (Set.mem_singleton_iff.mp he).symm, fun hmem => ?_⟩
    obtain ⟨r', -, he⟩ := hmem
    exact hne (tempPath_inj.mp he).1.symm

/-- Reduce tasks read temp files and write different output files. No file is of both kinds,
whatever the input is called. -/
theorem reduceTasks_independent :
    Independent ((List.range job.nrReducer).map job.reduceTask)
      (reducerTempPaths job.outputResultDirectory job.nrMapper) (fun r => {job.output r}) where
  within := tasks_within reduceTask_within
  apart := by
    intro r _ r' _ hne p hp
    obtain rfl := Set.mem_singleton_iff.mp hp
    refine ⟨fun hmem => ?_, fun he => hne (job.output_inj.mp (Set.mem_singleton_iff.mp he)).symm⟩
    obtain ⟨m, -, he⟩ := hmem
    exact job.temp_ne_output he.symm

/-- **Concurrent tasks of one phase commute.** However the operations of the map tasks
are interleaved, they end with the results and in the directory of running the tasks
one after the other in the order of their ids, and so do the reduce tasks from any
directory. Files of different ids have different names. -/
theorem interleavings_commute (job : Job) (hapart : job.InputApart) (acc : Access Path)
    (d : Disk) :
    (∀ qs' d', Interleaves acc ((List.range job.nrMapper).map job.mapTask, d) (qs', d') →
      Complete qs' →
        qs' = (runAll acc ((List.range job.nrMapper).map job.mapTask) d).1.map done ∧
        d' = (runAll acc ((List.range job.nrMapper).map job.mapTask) d).2) ∧
      (∀ e qs' d', Interleaves acc ((List.range job.nrReducer).map job.reduceTask, e) (qs', d') →
        Complete qs' →
          qs' = (runAll acc ((List.range job.nrReducer).map job.reduceTask) e).1.map done ∧
          d' = (runAll acc ((List.range job.nrReducer).map job.reduceTask) e).2) ∧
      (∀ m r m' r', job.temp m r = job.temp m' r' ↔ m = m' ∧ r = r') ∧
      (∀ r r', job.output r = job.output r' ↔ r = r') ∧
      ∀ m r r', job.temp m r ≠ job.output r' :=
  ⟨fun _ _ h hc => interleaving_eq_runAll (mapTasks_independent hapart) h hc,
    fun _ _ _ h hc => interleaving_eq_runAll reduceTasks_independent h hc,
    fun _ _ _ _ => job.temp_inj, fun _ _ => job.output_inj, fun _ _ _ => job.temp_ne_output⟩

/-- Two mappers that take turns, and then two reducers, leave the directories of one after
the other. -/
theorem interleavings_commute_lineNumbers :
    ∃ s s', Transition.run (interleave .all) ((List.replicate 6 [0, 1]).flatten ++ [0])
        ([0, 1].map lineNumbers.mapTask, sampleDisk sampleLines) = some s ∧
      s.2 = (lineNumbers.mapPhase [0, 1] (sampleDisk sampleLines)).2 ∧
      Transition.run (interleave .all) ((List.replicate 7 [1, 0]).flatten ++ [0])
        ([0, 1].map lineNumbers.reduceTask, s.2) = some s' ∧
      s'.2 = (lineNumbers.reducePhase [0, 1] s.2).2 ∧
      s'.2 (lineNumbers.output 0) = some "aa 0 2 \n".toList := by
  have hrun : ((Transition.run (interleave .all) ((List.replicate 6 [0, 1]).flatten ++ [0])
      ([0, 1].map lineNumbers.mapTask, sampleDisk sampleLines)).bind fun s =>
        (Transition.run (interleave .all) ((List.replicate 7 [1, 0]).flatten ++ [0])
          ([0, 1].map lineNumbers.reduceTask, s.2)).map fun s' =>
            (completeTest s.1, completeTest s'.1, s'.2 (lineNumbers.output 0))) =
      some (true, true, some "aa 0 2 \n".toList) := by decide +kernel
  obtain ⟨s, hs, hrun⟩ := Option.bind_eq_some_iff.mp hrun
  obtain ⟨s', hs', heq⟩ := Option.map_eq_some_iff.mp hrun
  simp only [Prod.mk.injEq] at heq
  obtain ⟨hdone, hdone', hout⟩ := heq
  obtain ⟨hmap, hreduce, -⟩ :=
    interleavings_commute lineNumbers sampleJob_inputApart .all (sampleDisk sampleLines)
  have hmapped := hmap s.1 s.2 (Transition.reaches_of_run hs) (complete_of_test hdone)
  have hreduced := hreduce s.2 s'.1 s'.2 (Transition.reaches_of_run hs') (complete_of_test hdone')
  exact ⟨s, s', hs, hmapped.2, hs', hreduced.2, hout⟩

/-! ### Once more from the start

What the recovery of `process` rests on. A worker that is killed leaves its files as they are,
half of them empty and one of them cut off in a line, and the one that takes its place starts
the same controller over. -/

/-- **Re-execution after partial runs is harmless.** However often a task has been cut
short, wherever, a complete run of it gives the result and the directory that one
complete run on the original directory gives, and nothing but the files of the task
has changed at any time. -/
theorem rerun_harmless (job : Job) (hapart : job.InputApart) (acc : Access Path) (d : Disk) :
    (∀ m < job.nrMapper, ∀ ns : List ℕ,
      (job.mapTask m).run acc ((job.mapTask m).cuts acc ns d) = (job.mapTask m).run acc d ∧
        ∀ p, (∀ r < job.nrReducer, p ≠ job.temp m r) →
          (job.mapTask m).cuts acc ns d p = d p ∧ ((job.mapTask m).run acc d).2 p = d p) ∧
      ∀ r < job.nrReducer, ∀ ns : List ℕ,
        (job.reduceTask r).run acc ((job.reduceTask r).cuts acc ns d) =
            (job.reduceTask r).run acc d ∧
          (∀ p ≠ job.output r, (job.reduceTask r).cuts acc ns d p = d p ∧
            ((job.reduceTask r).run acc d).2 p = d p) ∧
          ∀ m r', (job.reduceTask r).cuts acc ns d (job.temp m r') = d (job.temp m r') ∧
            ((job.reduceTask r).run acc d).2 (job.temp m r') = d (job.temp m r') := by
  refine ⟨fun m hm ns => ⟨?_, fun p hp => ?_⟩, fun r _ ns => ?_⟩
  · refine run_cuts (mapTask_within m) (fun p hp hmem => ?_) (mapTask_guarded m) ns d
    obtain rfl := Set.mem_singleton_iff.mp hp
    obtain ⟨r, hr, he⟩ := hmem
    exact hapart.temp m hm r hr he
  · have hout : p ∉ tempPaths job.outputResultDirectory m job.nrReducer := by
      intro hmem
      obtain ⟨r, hr, he⟩ := hmem
      exact hp r hr he
    exact ⟨cuts_frame (mapTask_within m) ns d hout, run_frame (mapTask_within m) d hout⟩
  · have hframe : ∀ p ≠ job.output r, (job.reduceTask r).cuts acc ns d p = d p ∧
        ((job.reduceTask r).run acc d).2 p = d p :=
      fun p hp => ⟨cuts_frame (reduceTask_within r) ns d hp, run_frame (reduceTask_within r) d hp⟩
    refine ⟨?_, hframe, fun m r' => hframe _ job.temp_ne_output⟩
    -- No file a reduce task reads is the one it writes.
    refine run_cuts (reduceTask_within r) (fun p hp hmem => ?_) (reduceTask_guarded r) ns d
    obtain rfl := Set.mem_singleton_iff.mp hmem
    obtain ⟨m, -, he⟩ := hp
    exact job.temp_ne_output he.symm

/-- A mapper that died after emptying its first temp file, and then before doing
anything, leaves no trace. -/
theorem rerun_harmless_lineNumbers :
    (lineNumbers.mapTask 0).run .all ((lineNumbers.mapTask 0).cuts .all [2, 0]
      (sampleDisk "aa\nb\n".toList)) =
        (lineNumbers.mapTask 0).run .all (sampleDisk "aa\nb\n".toList) := by
  obtain ⟨hmap, -⟩ := rerun_harmless lineNumbers sampleJob_inputApart .all
    (sampleDisk "aa\nb\n".toList)
  exact (hmap 0 (by decide) [2, 0]).1

end Job

end MapReduceCpp
