import MapReduceCpp.Process.Credit

/-!
# MapReduceCpp.Process.Files

What the files of a run hold, whatever crashes.

A controller may be killed after any of its file operations and started again in a
new process, so nothing can be said of the files of a task while it is pending. What
can be said is in `Files`: every controller that is running is on track, which means
that, if it is going to return 0, it would do so from the disk as it is now with the
files of its task written (`OnTrack`), and the files of a credited task, and of one
that has returned behind its client, are written. A step of one controller does not
take another one off the track, because the tasks of one phase have disjoint
footprints and a reduce task finds the map phase over.

All of this is up to the first call that returns another code than 0 (`Errorless`).
If the user functions never throw there is no such call (`files_of_reaches`). Files
that belong to no task of the job are left alone in any case (`frame_of_reaches`).
-/

namespace MapReduceCpp

open FileProg InputStream

variable {job : Job} {s s' : State} {l : Label} {c : Ctrl} {ph : Phase} {w p q : ℕ}
  {t t' : Task} {content : Str} {d d' : Disk} {prog prog' : FileProg Path Char TaskResult}

namespace Job

variable (job)

/-- The files the controller of a task reads. -/
def reads : Task → Set Path
  | ⟨.map, _⟩ => {job.input}
  | ⟨.reduce, idx⟩ => reducerTempPaths job.outputResultDirectory job.nrMapper idx

/-- The files the controller of a task writes. -/
def writes : Task → Set Path
  | ⟨.map, idx⟩ => tempPaths job.outputResultDirectory idx job.nrReducer
  | ⟨.reduce, idx⟩ => {job.output idx}

/-- The input file is none of the job's temp files, and there are as many mappers as reducers,
so that every task of either phase has a worker and every worker one task of each. -/
structure Sound : Prop where
  apart : ∀ m < job.nrMapper, ∀ r < job.nrReducer, job.input ≠ job.temp m r
  square : job.nrMapper = job.nrReducer

/-- The user functions never throw. -/
structure Returns : Prop where
  map : ∀ k v, (job.iface.mapFn k v).2 = none
  reduce : ∀ k vs, (job.iface.reduceFn k vs).2 = none

variable (content : Str)

/-- What a task needs is on the disk: the input for a mapper, all temp files of its column for a
reducer. -/
def Ready (t : Task) (d : Disk) : Prop :=
  match t with
  | ⟨.map, _⟩ => d job.input = some content
  | ⟨.reduce, idx⟩ => ∀ m < job.nrMapper, d (job.temp m idx) = some (job.tempContent content m idx)

/-- What a task has to leave is on the disk. That the functions return is part of it, as
otherwise nobody says what should be there. -/
def Written (t : Task) (d : Disk) : Prop :=
  match t with
  | ⟨.map, idx⟩ => job.MapReturns content idx ∧
      ∀ r < job.nrReducer, d (job.temp idx r) = some (job.tempContent content idx r)
  | ⟨.reduce, idx⟩ => job.ReduceReturns content idx ∧
      d (job.output idx) = some (job.outputContent content idx)

/-- If the rest of a controller, from the disk as it is, ends with code 0, then with the files
of its task written; and it ends with no other code unless a user function throws. The whole
rest is run here at once, which is allowed because nobody else touches its files. -/
def OnTrack (t : Task) (prog : FileProg Path Char TaskResult) (d : Disk) : Prop :=
  ∀ code, (prog.run .all d).1.outcome = .ok code →
    (job.Returns → code = 0) ∧ (code = 0 → job.Written content t (prog.run .all d).2)

variable {job content}

/-- A controller keeps to the files of its task. -/
theorem program_within (t : Task) :
    (job.program t).Within (job.reads t) (job.writes t) := by
  obtain ⟨ph, idx⟩ := t
  cases ph with
  | map => exact mapTask_within idx
  | reduce => exact reduceTask_within idx

/-- A controller starts on track, over whatever an earlier process has left in the files it
writes. -/
theorem program_onTrack (h : job.Ready content t d) :
    job.OnTrack content t (job.program t) d := by
  intro code hcode
  obtain ⟨ph, idx⟩ := t
  cases ph with
  | map =>
    have hd : d job.input = some content := h
    have hview : Access.all.view d job.input = some content := h
    have hcode' : ((job.mapTask idx).run .all d).1.outcome = .ok code := hcode
    refine ⟨fun hret => ?_, fun hzero => ?_⟩
    · rcases length_lt_of_mapTask hview hcode' with hlen | ⟨line, -, -, -, hne⟩
      · rw [mapTask_returns ⟨hlen, fun kv _ => hret.map _ _⟩ hview] at hcode'
        exact (Except.ok.inj hcode').symm
      · exact absurd (hret.map _ _) hne
    · subst hzero
      have hmret := mapReturns_of_outcome hd hcode'
      exact ⟨hmret, (run_mapTask hmret hd).2⟩
  | reduce =>
    have hcode' : ((job.reduceTask idx).run .all d).1.outcome = .ok code := hcode
    refine ⟨fun hret => ?_, fun hzero => ?_⟩
    · rw [run_reduceTask (fun e _ => hret.reduce _ _) h] at hcode'
      exact (Except.ok.inj hcode').symm
    · subst hzero
      have hrret := reduceReturns_of_outcome h hcode'
      -- Code 0 means that no call has thrown, so the output is the whole of it.
      refine ⟨hrret, ?_⟩
      rw [show job.program ⟨.reduce, idx⟩ = job.reduceTask idx from rfl, run_reduceTask hrret h]
      exact Function.update_self _ _ _

/-- Different tasks write different files, as the numbers in a name can be read back from it. -/
theorem writes_apart (h : t ≠ t') {x : Path} (hx : x ∈ job.writes t) : x ∉ job.writes t' := by
  obtain ⟨ph, idx⟩ := t
  obtain ⟨ph', idx'⟩ := t'
  intro hx'
  cases ph with
  | map =>
    obtain ⟨r, -, rfl⟩ := hx
    cases ph' with
    | map =>
      obtain ⟨r', -, he⟩ := hx'
      exact h (by rw [(tempPath_inj.mp he).1])
    | reduce => exact tempPath_ne_outputPath (Set.mem_singleton_iff.mp hx')
  | reduce =>
    obtain rfl := Set.mem_singleton_iff.mp hx
    cases ph' with
    | map =>
      obtain ⟨r', -, he⟩ := hx'
      exact tempPath_ne_outputPath he.symm
    | reduce => exact h (by rw [outputPath_inj.mp (Set.mem_singleton_iff.mp hx')])

/-- No map task writes the input file. -/
theorem Sound.input_apart (hb : job.Sound) (hph : t.phase = .map) (hlt : t.id < job.nrMapper) :
    job.input ∉ job.writes t := by
  obtain ⟨ph, idx⟩ := t
  obtain rfl : ph = .map := hph
  intro hx
  obtain ⟨r, hr, he⟩ := hx
  exact hb.apart idx hlt r hr he

/-- What a reducer reads no reducer writes. -/
theorem reads_apart_of_reduce {t' : Task} (ht : t.phase = .reduce) (ht' : t'.phase = .reduce)
    {x : Path} (hx : x ∈ job.reads t) : x ∉ job.writes t' := by
  obtain ⟨ph, idx⟩ := t
  obtain ⟨ph', idx'⟩ := t'
  obtain rfl : ph = .reduce := ht
  obtain rfl : ph' = .reduce := ht'
  obtain ⟨m, -, rfl⟩ := hx
  exact fun hx' => tempPath_ne_outputPath (Set.mem_singleton_iff.mp hx')

/-- A task reads nothing that a task of the same phase writes, which is why two processes may be
at work in one phase. -/
theorem Sound.reads_apart (hb : job.Sound) (hph : t.phase = t'.phase)
    (hlt : t'.id < job.nrMapper) {x : Path} (hx : x ∈ job.reads t) : x ∉ job.writes t' := by
  obtain ⟨ph, idx⟩ := t
  obtain ⟨ph', idx'⟩ := t'
  obtain rfl : ph = ph' := hph
  cases ph with
  | map =>
    obtain rfl := Set.mem_singleton_iff.mp hx
    exact hb.input_apart rfl hlt
  | reduce => exact reads_apart_of_reduce rfl rfl hx

/-- What a task has written depends on the files it writes. -/
theorem Written.congr (h : job.Written content t d) (hd : ∀ x ∈ job.writes t, d' x = d x) :
    job.Written content t d' := by
  obtain ⟨ph, idx⟩ := t
  cases ph with
  | map => exact ⟨h.1, fun r hr => (hd _ (tempPath_mem hr)).trans (h.2 r hr)⟩
  | reduce => exact ⟨h.1, (hd _ (Set.mem_singleton _)).trans h.2⟩

/-- A controller stays on track when its footprint stays as it is. -/
theorem OnTrack.congr (h : job.OnTrack content t prog d)
    (hwithin : prog.Within (job.reads t) (job.writes t))
    (hd : ∀ x, x ∈ job.reads t ∨ x ∈ job.writes t → d' x = d x) :
    job.OnTrack content t prog d' := by
  obtain ⟨hres, hfoot⟩ := @run_congr _ _ _ _ Access.all _ _ _ hwithin _ _ hd
  intro code hcode
  rw [hres] at hcode
  obtain ⟨hret, hwritten⟩ := h code hcode
  exact ⟨hret, fun hzero => (hwritten hzero).congr fun x hx => hfoot x (.inr hx)⟩

end Job

/-! ### Steps and files

A step is either a file operation, or leaves the disk alone. Of the second kind two matter to
the files: a controller is started, and a controller returns. -/

/-- A file operation of a running controller. -/
def State.perform (s : State) (p k : ℕ) (e : Exec) (prog : FileProg Path Char TaskResult)
    (d : Disk) : State :=
  { s.setServer p
      { s.servers p with
        running := (s.servers p).running.set k ⟨e.task, prog, openedAfter e.prog e.opened⟩ } with
    disk := d }

/-- A step is a file operation, or it leaves the disk alone and starts at most one controller,
for a task that was waiting. -/
theorem Step.files (hs : Step job s l s') :
    (∃ p k e prog d, l = .file p k ∧ (s.servers p).running[k]? = some e ∧
        e.prog.step .all s.disk = some (prog, d) ∧ s' = s.perform p k e prog d) ∨
      s'.disk = s.disk ∧ ∀ p, ∀ e ∈ (s'.servers p).running, e ∈ (s.servers p).running ∨
        ∃ t, .task t ∈ (s.servers p).inbox ∧ e = ⟨t, job.program t, []⟩ := by
  have hset : ∀ {pid : ℕ} {v : Server}, (∀ e ∈ v.running, e ∈ (s.servers pid).running ∨
        ∃ t, .task t ∈ (s.servers pid).inbox ∧ e = ⟨t, job.program t, []⟩) →
      ∀ p, ∀ e ∈ ((s.setServer pid v).servers p).running, e ∈ (s.servers p).running ∨
        ∃ t, .task t ∈ (s.servers p).inbox ∧ e = ⟨t, job.program t, []⟩ :=
    fun hv => State.forall_setServer (P := fun p v => ∀ e ∈ v.running, e ∈ (s.servers p).running ∨
      ∃ t, .task t ∈ (s.servers p).inbox ∧ e = ⟨t, job.program t, []⟩) hv fun _ _ he => .inl he
  have hspawn : ∀ w p, ∀ e ∈ ((s.spawn w).servers p).running, e ∈ (s.servers p).running ∨
      ∃ t, .task t ∈ (s.servers p).inbox ∧ e = ⟨t, job.program t, []⟩ :=
    fun w => State.forall_spawn (P := fun p v => ∀ e ∈ v.running, e ∈ (s.servers p).running ∨
      ∃ t, .task t ∈ (s.servers p).inbox ∧ e = ⟨t, job.program t, []⟩) w
      (fun _ he => by cases he) fun _ _ he => .inl he
  cases hs with
  | op hk hop => exact .inl ⟨_, _, _, _, _, rfl, hk, hop, rfl⟩
  | fork _ _ => exact .inr ⟨rfl, hspawn _⟩
  | refork _ => exact .inr ⟨rfl, hspawn _⟩
  | send _ _ => exact .inr ⟨rfl, hset fun e he => .inl he⟩
  | @answer ph w p status _ _ _ =>
    refine .inr ⟨by cases status <;> rfl, ?_⟩
    simp only [State.goto, State.credit_servers]
    exact hset fun e he => .inl he
  | @start pid k t hlen hk =>
    refine .inr ⟨rfl, hset fun e he => ?_⟩
    rcases List.mem_append.mp he with he | he
    · exact .inl he
    · exact .inr ⟨t, List.mem_of_getElem? hk, List.mem_singleton.mp he⟩
  | reply _ _ => exact .inr ⟨rfl, hset fun e he => .inl he⟩
  | exit _ _ => exact .inr ⟨rfl, hset fun e he => by cases he⟩
  | finish _ _ _ => exact .inr ⟨rfl, hset fun e he => .inl (List.mem_of_mem_eraseIdx he)⟩
  | fault _ _ _ => exact .inr ⟨rfl, hset fun e he => by cases he⟩
  | kill _ => exact .inr ⟨rfl, hset fun e he => by cases he⟩
  | _ => exact .inr ⟨rfl, fun p e he => .inl he⟩

/-- What runs after a file operation is the controller that performed it, or another one
that was running before. -/
theorem State.mem_perform {k : ℕ} {e e' : Exec} (hk : (s.servers p).running[k]? = some e)
    (he' : e' ∈ ((s.perform p k e prog d).servers q).running) :
    q = p ∧ e' = ⟨e.task, prog, openedAfter e.prog e.opened⟩ ∨
      (e' ∈ (s.servers q).running ∧ q ≠ p ∨
        q = p ∧ ∃ j, j ≠ k ∧ (s.servers p).running[j]? = some e') := by
  by_cases hq : q = p
  · subst hq
    rw [State.perform, State.setServer_self] at he'
    obtain ⟨j, hj⟩ := List.mem_iff_getElem?.mp he'
    by_cases hjk : j = k
    · subst hjk
      rw [List.getElem?_set_self (List.getElem?_eq_some_iff.mp hk).1] at hj
      exact .inl ⟨rfl, (Option.some.inj hj).symm⟩
    · rw [List.getElem?_set_ne (Ne.symm hjk)] at hj
      exact .inr (.inr ⟨rfl, j, hjk, hj⟩)
  · rw [show (s.perform p k e prog d).servers q = s.servers q from State.setServer_ne s _ hq] at he'
    exact .inr (.inl ⟨he', hq⟩)

/-- An operation lets no call return: even the last one is followed by the step that ends the
handler. -/
theorem State.returned_perform {k : ℕ} {e : Exec} :
    ((s.perform p k e prog d).servers q).returned = (s.servers q).returned := by
  by_cases hq : q = p
  · subst hq
    rw [State.perform, State.setServer_self]
  · rw [show (s.perform p k e prog d).servers q = s.servers q from State.setServer_ne s _ hq]

theorem State.returns_perform {k : ℕ} {e : Exec} (t : Task) :
    ((s.perform p k e prog d).servers q).returns t = (s.servers q).returns t := by
  rw [Server.returns, Server.returns, State.returned_perform]

/-- A step lets at most one call return, that of a controller at its end. The code is what the
controller has computed, and nobody reads it. -/
theorem Step.returned (ht : Topology job s) (hs : Step job s l s') :
    (∀ q, (s'.servers q).returned = (s.servers q).returned) ∨
      ∃ p e res code, e ∈ (s.servers p).running ∧ e.prog = .done res ∧ res.outcome = .ok code ∧
        (s'.servers p).returned = (s.servers p).returned ++ [(e.task, code)] ∧
        ∀ q ≠ p, (s'.servers q).returned = (s.servers q).returned := by
  have hset : ∀ {pid : ℕ} {v : Server}, v.returned = (s.servers pid).returned → ∀ q,
      ((s.setServer pid v).servers q).returned = (s.servers q).returned :=
    fun hv => State.forall_setServer (P := fun q v => v.returned = (s.servers q).returned)
      hv fun _ => rfl
  have hspawn : ∀ w q, ((s.spawn w).servers q).returned = (s.servers q).returned := by
    refine fun w => State.forall_spawn (P := fun q v => v.returned = (s.servers q).returned)
      w ?_ fun _ => rfl
    rw [ht.unspawned _ le_rfl]
    rfl
  cases hs with
  | @finish pid k e res code hk hprog hres =>
    refine .inr ⟨pid, e, res, code, List.mem_of_getElem? hk, hprog, hres, ?_, fun q hq => ?_⟩
    · rw [State.setServer_self]
    · rw [State.setServer_ne s _ hq]
  | fork _ _ => exact .inl (hspawn _)
  | refork _ => exact .inl (hspawn _)
  | send _ _ => exact .inl (hset rfl)
  | answer _ _ _ =>
    left
    simp only [State.goto, State.credit_servers]
    exact hset rfl
  | start _ _ => exact .inl (hset rfl)
  | reply _ _ => exact .inl (hset rfl)
  | exit _ _ => exact .inl (hset rfl)
  | op _ _ => exact .inl (hset rfl)
  | fault _ _ _ => exact .inl (hset rfl)
  | kill _ => exact .inl (hset rfl)
  | _ => exact .inl fun _ => rfl

/-- A call that has just returned was that of a controller at its end. -/
theorem Step.returns (ht : Topology job s) (hs : Step job s l s')
    (h : 0 < (s'.servers p).returns t) :
    0 < (s.servers p).returns t ∨ ∃ e ∈ (s.servers p).running, e.task = t ∧
      ∃ res code, e.prog = .done res ∧ res.outcome = .ok code ∧
        (t, code) ∈ (s'.servers p).returned := by
  rcases hs.returned ht with hsame | ⟨q, e, res, code, he, hprog, hres, hself, hne⟩
  · rw [Server.returns, hsame] at h
    exact .inl h
  · by_cases hp : p = q
    · subst hp
      by_cases htask : e.task = t
      · refine .inr ⟨e, he, htask, res, code, hprog, hres, ?_⟩
        rw [hself, htask]
        exact List.mem_append_right _ (List.mem_singleton_self _)
      · left
        rw [Server.returns, hself] at h
        simpa [Server.returns, List.count_append, htask] using h
    · rw [Server.returns, hne p hp] at h
      exact .inl h

/-- Every call that has returned has returned 0. -/
def Errorless (s : State) : Prop := ∀ p, ∀ r ∈ (s.servers p).returned, r.2 = 0

theorem Step.returned_subset (ht : Topology job s) (hs : Step job s l s') (q : ℕ) :
    ∀ r ∈ (s.servers q).returned, r ∈ (s'.servers q).returned := by
  intro r hr
  rcases hs.returned ht with hsame | ⟨p, e, res, code, -, -, -, hself, hne⟩
  · rwa [hsame]
  · by_cases hq : q = p
    · subst hq
      rw [hself]
      exact List.mem_append_left _ hr
    · rwa [hne q hq]

/-- A state without errors had none before. -/
theorem Errorless.of_step (h : Errorless s') (ht : Topology job s) (hs : Step job s l s') :
    Errorless s := fun p r hr => h p r (hs.returned_subset ht p r hr)

/-! ### Footprints

That a controller keeps to the files of its task is a fact about its text (`program_within`),
and an operation at a time it stays one about what is left of it. -/

/-- What a controller has open after an operation is still among its files. -/
theorem openedAfter_subset {W R : Set Path} {opened : List Path} (hprog : prog.Within R W)
    (ho : ∀ x ∈ opened, x ∈ W) : ∀ x ∈ openedAfter prog opened, x ∈ W := by
  intro x hx
  cases prog with
  | create path k =>
    rcases List.mem_cons.mp hx with rfl | hx
    · exact hprog.1
    · exact ho x hx
  | close path k => exact ho x (List.mem_of_mem_filter hx)
  | done res => exact ho x hx
  | read path k => exact ho x hx
  | append path xs k => exact ho x hx

/-- Every running controller keeps to the files of its task. -/
def Confined (job : Job) (s : State) : Prop :=
  ∀ p, ∀ e ∈ (s.servers p).running, e.prog.Within (job.reads e.task) (job.writes e.task) ∧
    ∀ x ∈ e.opened, x ∈ job.writes e.task

/-- A step keeps every controller to its files, those that it starts included. -/
theorem Confined.step (h : Confined job s) (hs : Step job s l s') : Confined job s' := by
  intro q e' he'
  rcases hs.files with ⟨p, k, e, prog, d, -, hk, hop, rfl⟩ | ⟨-, hrun⟩
  · obtain ⟨hwithin, hopened⟩ := h p e (List.mem_of_getElem? hk)
    rcases State.mem_perform hk he' with ⟨rfl, rfl⟩ | ⟨hold, -⟩ | ⟨rfl, j, -, hj⟩
    · exact ⟨(hwithin.step hop).1, openedAfter_subset hwithin hopened⟩
    · exact h q e' hold
    · exact h q e' (List.mem_of_getElem? hj)
  · rcases hrun q e' he' with hold | ⟨t, -, rfl⟩
    · exact h q e' hold
    · exact ⟨Job.program_within t, fun x hx => by cases hx⟩

theorem confined_of_reaches {ok : State → Label → Prop}
    (h : Transition.Reaches (step job) ok (.init d) s) : Confined job s :=
  h.invariant (fun _ _ _ hP _ hstep => hP.step (step_cases hstep)) fun p e he => by cases he

/-! ### Pending tasks

What `Credit` says of the tasks, for the controllers that are running: they are of the current
phase, and no two are of the same task. This is the one place where the worry about a task done
twice at the same time is met. -/

/-- A controller runs in a live process, for a task that was sent there. -/
theorem Orderly.running (h : Orderly job s) {e : Exec} (he : e ∈ (s.servers p).running) :
    (s.servers p).alive = true ∧ 0 < (s.servers p).inProgress e.task ∧
      0 < (s.servers p).requested e.task := by
  have hlive : (s.servers p).alive = true := by
    by_contra hdead
    rw [((h.coherent p).dead (Bool.eq_false_iff.mpr hdead)).2] at he
    cases he
  have hpos := Server.inProgress_pos.mpr ⟨e, he, rfl⟩
  have hcons := (h.coherent p).conserved hlive e.task
  exact ⟨hlive, hpos, by omega⟩

/-- So does a task that waits for a thread. -/
theorem Orderly.waiting (h : Orderly job s) (ht : .task t ∈ (s.servers p).inbox) :
    (s.servers p).alive = true ∧ 0 < (s.servers p).waiting t ∧ 0 < (s.servers p).requested t := by
  have hlive : (s.servers p).alive = true := by
    by_contra hdead
    rw [((h.coherent p).dead (Bool.eq_false_iff.mpr hdead)).1] at ht
    cases ht
  have hpos : 0 < (s.servers p).waiting t := List.count_pos_iff.mpr ht
  have hcons := (h.coherent p).conserved hlive t
  exact ⟨hlive, hpos, by omega⟩

/-- In the reduce phase no map task is pending. -/
theorem Credit.quiet_map (h : Credit s) (hi : Orderly job s) (hphase : s.ctrl.phase = .reduce)
    (w : ℕ) : Quiet s ⟨.map, w⟩ :=
  hi.quiet_of_reduce (fun w hw => (h.status .map w hw).1) hphase w

/-- What a live process has not finished is a task of the current phase, and it is the only such
task there. A map task cannot be left over in the reduce phase, because it is quiet. -/
theorem Credit.pending (h : Credit s) (hi : Orderly job s) (hlive : (s.servers p).alive = true)
    (hreq : 0 < (s.servers p).requested t)
    (hret : (s.servers p).returns t < (s.servers p).requested t) :
    t = ⟨s.ctrl.phase, (s.servers p).worker⟩ ∧ (s.servers p).requested t = 1 := by
  obtain ⟨hid, hphase⟩ := hi.requested hreq
  have hlink := hi.linked_of_requested hlive hreq
  obtain ⟨ph, idx⟩ := t
  obtain rfl : idx = (s.servers p).worker := hid
  rcases hphase with hphase | ⟨hm, hr⟩
  · obtain rfl : ph = s.ctrl.phase := hphase
    have hdue := hi.accounting.due _ _ hlink
    refine ⟨rfl, ?_⟩
    split at hdue <;> omega
  · obtain rfl : ph = .map := hm
    have hquiet := h.quiet_map hi hr (s.servers p).worker p hlive
    omega

/-- So a controller that is running is that of the worker, for the current phase, and runs once. -/
theorem Credit.running (h : Credit s) (hi : Orderly job s) {e : Exec}
    (he : e ∈ (s.servers p).running) :
    e.task = ⟨s.ctrl.phase, (s.servers p).worker⟩ ∧ (s.servers p).inProgress e.task = 1 := by
  obtain ⟨hlive, hpos, hreq⟩ := hi.running he
  have hcons := (hi.coherent p).conserved hlive e.task
  obtain ⟨htask, hone⟩ := h.pending hi hlive hreq (by omega)
  exact ⟨htask, by omega⟩

/-- Two running controllers are one, or their tasks differ: two processes belong to different
workers, and one process has the task once. -/
theorem Credit.distinct (h : Credit s) (hi : Orderly job s) {k : ℕ} {e e' : Exec}
    (hk : (s.servers p).running[k]? = some e)
    (he' : e' ∈ (s.servers q).running ∧ q ≠ p ∨
      q = p ∧ ∃ j, j ≠ k ∧ (s.servers p).running[j]? = some e') : e'.task ≠ e.task := by
  obtain ⟨htask, hone⟩ := h.running hi (List.mem_of_getElem? hk)
  rcases he' with ⟨he', hq⟩ | ⟨rfl, j, hj, he'⟩
  · obtain ⟨htask', -⟩ := h.running hi he'
    intro heq
    rw [htask, htask'] at heq
    -- The live process of a worker is unique.
    exact hq (hi.topology.alone q p (hi.running he').1 (hi.running (List.mem_of_getElem? hk)).1
      (Task.mk.inj heq).2)
  · intro heq
    have hk' : ((s.servers q).running.map Exec.task)[k]? = some e.task := by
      rw [List.getElem?_map, hk]
      rfl
    have hcount := count_of_getElem? hk' e.task
    have hmem : e.task ∈ ((s.servers q).running.map Exec.task).eraseIdx k := by
      refine List.mem_eraseIdx_iff_getElem?.mpr ⟨j, hj, ?_⟩
      rw [List.getElem?_map, he', Option.map_some, heq]
    have hpos := List.count_pos_iff.mpr hmem
    rw [Server.inProgress] at hone
    simp only [if_true] at hcount
    omega

/-! ### The invariant

A step of one controller changes files of its own task only. Every other fact is about a task
that differs from it, because it is quiet or because it is run elsewhere, and is not touched. -/

/-- What the disk of a state holds. -/
structure Files (job : Job) (content : Str) (s : State) : Prop where
  /-- A reducer may write over the input file, a mapper does not. -/
  input : s.ctrl.phase = .map → s.disk job.input = some content
  /-- Whatever a killed process has left, the one that does the task now is on track. -/
  running : ∀ p, ∀ e ∈ (s.servers p).running, job.OnTrack content e.task e.prog s.disk
  /-- The files of a credited task are written. -/
  status : ∀ (ph : Phase) (w : ℕ), (s.phases ph).taskStatus[w]? = some 1 →
    job.Written content ⟨ph, w⟩ s.disk
  /-- Those of a task that has returned behind its client are too, though the master does not
  know. -/
  linked : ∀ ph w p, s.linked w = some p → 0 < (s.servers p).returns ⟨ph, w⟩ →
    job.Written content ⟨ph, w⟩ s.disk

theorem files_init (h : d job.input = some content) : Files job content (.init d) where
  input := fun _ => h
  running := by intro p e he; cases he
  status := by intro ph w hw; cases hw
  linked := by intro ph w p hp; cases hp

/-- A client that leads to a process in which calls have returned did so before: a new
connection leads to a process that was sent nothing. -/
theorem Orderly.linked_of_step (h : Orderly job s) (h' : Orderly job s') (hs : Step job s l s')
    (hp : s'.linked w = some p) (hret : 0 < (s.servers p).returns t) : s.linked w = some p := by
  have hreq : 0 < (s.servers p).requested t := Nat.lt_of_lt_of_le hret ((h.coherent p).returns_le t)
  have hpw := (h.returns_step hs rfl hret).1
  rw [(h'.topology.linked w p hp).2] at hpw
  rcases hs.linked hp with hlink | hlive
  · exact hlink
  · rw [hpw]
    refine h.linked_of_requested ?_ hreq
    rcases hs.server p with he | hmove | ⟨rfl, -⟩
    · rwa [he] at hlive
    · exact hmove.alive hlive
    · rw [h.topology.unspawned _ le_rfl] at hreq
      cases hreq

/-- A task that can be started finds what it needs: a map task the input, as the phase is the
map phase, and a reduce task the files of all mappers, as all of them are credited. -/
theorem Files.ready (h : Files job content s) (hb : job.Sound) (hi : Orderly job s)
    (hcr : Credit s) (ht : .task t ∈ (s.servers p).inbox) : job.Ready content t s.disk := by
  obtain ⟨hlive, hwait, hreq⟩ := hi.waiting ht
  have hcons := (hi.coherent p).conserved hlive t
  obtain ⟨rfl, -⟩ := hcr.pending hi hlive hreq (by omega)
  cases hphase : s.ctrl.phase with
  | map => exact h.input hphase
  | reduce =>
    have hfin : s.ctrl.finished .map = true := by simp [Ctrl.finished, hphase]
    have hlt : (s.servers p).worker < job.nrReducer := by
      rw [← hb.square]
      exact hi.topology.worker_lt p (hi.topology.lt_of_alive hlive)
    intro m hm
    exact (h.status .map m (hi.control.finished .map hfin m hm)).2 _ hlt

/-- Steps that leave the disk alone keep it in order. A controller that is started is on track,
and one that returns 0 has come to the end of its track. -/
theorem Files.calm (h : Files job content s) (hb : job.Sound) (hi : Orderly job s)
    (hcr : Credit s) (hi' : Orderly job s') (herr : Errorless s')
    (hs : Step job s l s') (hdisk : s'.disk = s.disk)
    (hrun : ∀ p, ∀ e ∈ (s'.servers p).running, e ∈ (s.servers p).running ∨
      ∃ t, .task t ∈ (s.servers p).inbox ∧ e = ⟨t, job.program t, []⟩) : Files job content s' := by
  refine ⟨fun hphase => ?_, fun p e he => ?_, fun ph w hone => ?_, fun ph w p hp hret => ?_⟩
  · rw [hdisk]
    refine h.input ?_
    cases hold : s.ctrl.phase with
    | map => rfl
    | reduce => rw [hs.phase_reduce hi.control hold] at hphase; cases hphase
  · rw [hdisk]
    rcases hrun p e he with hold | ⟨t, ht, rfl⟩
    · exact h.running p e hold
    · exact Job.program_onTrack (h.ready hb hi hcr ht)
  · rw [hdisk]
    rcases hs.status_one hone with hold | ⟨p, hp, hr⟩
    · exact h.status ph w hold
    · have hret := hi.returns_of_reply hr
      rw [(hi.topology.linked w p hp).2] at hret
      exact h.linked ph w p hp hret
  · rw [hdisk]
    rcases hs.returns hi.topology hret with hold | ⟨e, he, htask, res, code, hprog, hres, hmem⟩
    · exact h.linked ph w p (hi.linked_of_step hi' hs hp hold) hold
    · -- A controller on its track that ends with 0 has written its files.
      have htrack := h.running p e he
      rw [hprog] at htrack
      rw [← htask]
      exact (htrack code hres).2 (herr p _ hmem)

/-- A file operation of one controller keeps the disk in order. The controller itself goes along
its track, and all others do not notice. -/
theorem Files.perform (h : Files job content s) (hb : job.Sound) (hi : Orderly job s)
    (hcr : Credit s) (hconf : Confined job s) {k : ℕ} {e : Exec}
    (hk : (s.servers p).running[k]? = some e)
    (hop : e.prog.step .all s.disk = some (prog, d)) :
    Files job content (s.perform p k e prog d) := by
  have he := List.mem_of_getElem? hk
  obtain ⟨hwithin', hframe⟩ := (hconf p e he).1.step hop
  obtain ⟨htask, hone⟩ := hcr.running hi he
  obtain ⟨hlive, hpos, -⟩ := hi.running he
  have hlt : e.task.id < job.nrMapper := by
    rw [htask]
    exact hi.topology.worker_lt p (hi.topology.lt_of_alive hlive)
  -- A quiet task is not the one that is being run.
  have hquiet : ∀ t, Quiet s t → t ≠ e.task := by
    intro t hq ht
    have hzero := hq.inProgress (hi.coherent p) hlive
    rw [ht] at hzero
    omega
  have hwritten : ∀ t, Quiet s t → job.Written content t s.disk → job.Written content t d :=
    fun t hq hw => hw.congr fun x hx => hframe x (Job.writes_apart (hquiet t hq) hx)
  -- Neither is another one that is being run.
  have hother : ∀ q e', e'.task ≠ e.task → e' ∈ (s.servers q).running →
      job.OnTrack content e'.task e'.prog d := by
    intro q e' hne he'
    have hph : e'.task.phase = e.task.phase := by rw [(hcr.running hi he').1, htask]
    refine (h.running q e' he').congr (hconf q e' he').1 fun x hx => hframe x ?_
    rcases hx with hx | hx
    · exact hb.reads_apart hph hlt hx
    · exact Job.writes_apart hne hx
  refine ⟨fun hphase => ?_, fun q e' he' => ?_, fun ph w hw => ?_, fun ph w q hq hret => ?_⟩
  -- In the map phase the controller is a mapper, and no mapper writes the input.
  · have hmap : e.task.phase = .map := by rw [htask]; exact hphase
    exact (hframe _ (hb.input_apart hmap hlt)).trans (h.input hphase)
  · rcases State.mem_perform hk he' with ⟨rfl, rfl⟩ | hold
    · -- The controller that has performed the operation.
      intro code hcode
      have hrun : prog.run .all d = e.prog.run .all s.disk := run_of_step hop
      simp only [State.perform, hrun] at hcode ⊢
      exact h.running q e he code hcode
    · refine hother q e' (hcr.distinct hi hk hold) ?_
      rcases hold with ⟨hold, -⟩ | ⟨rfl, j, -, hj⟩
      · exact hold
      · exact List.mem_of_getElem? hj
  · exact hwritten _ (hcr.status ph w hw).1 (h.status ph w hw)
  · rw [State.returns_perform] at hret
    exact hwritten _ (hcr.linked ph w q hq hret) (h.linked ph w q hq hret)

/-- A call that returns while the functions do not throw returns 0. -/
theorem Files.errorless (h : Files job content s) (herr : Errorless s) (hret : job.Returns)
    (hi : Orderly job s) (hs : Step job s l s') : Errorless s' := by
  intro q r hr
  rcases hs.returned hi.topology with hsame | ⟨p, e, res, code, he, hprog, hres, hself, hne⟩
  · rw [hsame] at hr
    exact herr q r hr
  · by_cases hq : q = p
    · subst hq
      rw [hself] at hr
      rcases List.mem_append.mp hr with hr | hr
      · exact herr q r hr
      · have htrack := h.running q e he
        rw [hprog] at htrack
        rw [List.mem_singleton.mp hr]
        exact (htrack code hres).1 hret
    · rw [hne q hq] at hr
      exact herr q r hr

/-- Up to the first error the disk is in order in every state of every run, and where the
functions never throw there is no error. The two are shown together, as each needs the other one
step before. -/
theorem files_of_reaches {ok : State → Label → Prop} (hb : job.Sound)
    (hd : d job.input = some content)
    (h : Transition.Reaches (step job) ok (.init d) s) :
    (Errorless s → Files job content s) ∧ (job.Returns → Errorless s) := by
  induction h with
  | refl => exact ⟨fun _ => files_init hd, fun _ p r hr => by cases hr⟩
  | tail hr hok hstep ih =>
    have hs := step_cases hstep
    have hi := orderly_of_reaches hr
    refine ⟨fun herr => ?_, fun hret => ?_⟩
    · have hfiles := ih.1 (herr.of_step hi.topology hs)
      rcases hs.files with ⟨p, k, e, prog, d', -, hk, hop, rfl⟩ | ⟨hdisk, hrun⟩
      · exact hfiles.perform hb hi (credit_of_reaches hr) (confined_of_reaches hr) hk hop
      · exact hfiles.calm hb hi (credit_of_reaches hr) (orderly_of_reaches (.tail hr hok hstep))
          herr hs hdisk hrun
    · have herr := ih.2 hret
      exact (ih.1 herr).errorless herr hret hi hs

/-! ### Other files

Every controller is that of a task of the job, so a file that no task writes is a file that
nobody writes. -/

/-- A file that no task of the job writes is left alone, whatever happens. -/
theorem frame_of_reaches {ok : State → Label → Prop} {x : Path}
    (hx : ∀ t : Task, t.id < job.nrMapper → x ∉ job.writes t)
    (h : Transition.Reaches (step job) ok (.init d) s) : s.disk x = d x := by
  induction h with
  | refl => rfl
  | tail hr hok hstep ih =>
    rcases (step_cases hstep).files with ⟨p, k, e, prog, d', -, hk, hop, rfl⟩ | ⟨hdisk, -⟩
    · have he := List.mem_of_getElem? hk
      have hi := orderly_of_reaches hr
      have hlt : e.task.id < job.nrMapper := by
        rw [((credit_of_reaches hr).running hi he).1]
        exact hi.topology.worker_lt p (hi.topology.lt_of_alive (hi.running he).1)
      exact (((confined_of_reaches hr p e he).1.step hop).2 x (hx e.task hlt)).trans ih
    · rw [hdisk, ih]

end MapReduceCpp
