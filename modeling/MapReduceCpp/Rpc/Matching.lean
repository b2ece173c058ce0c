import MapReduceCpp.Rpc.Transit

/-!
# MapReduceCpp.Rpc.Matching

The client finds the promise of each response.

A call is in one of four stages for the client (`Tracked`): its handler waits in the
strand, its entry waits for the response, the entry has been answered and waits to be
erased, or it is gone. A response comes for a call that has been executed and had no
response before, so it meets an entry of its own that still waits: no promise is given
two answers, none gets that of another call, and none is broken (`matched_of_reaches`).
-/

namespace MapReduceCpp.Rpc

variable {host : Host} {s s' : Conn} {e : Event} {c : Call}

namespace Posted

/-- The handler enters the call with a number. -/
def enters (n : ℕ) : Posted → Bool
  | post c => c.number = n
  | erase _ => false

/-- The handler erases the entry of an id. -/
def erasesId (id : ℤ) : Posted → Bool
  | post _ => false
  | erase id' => id' = id

end Posted

namespace Conn

/-- How often the handler of a call waits in the strand. -/
def posts (s : Conn) (n : ℕ) : ℕ := s.strand.countP (Posted.enters n)

/-- How often the strand is to erase an entry. -/
def erases (s : Conn) (id : ℤ) : ℕ := s.strand.countP (Posted.erasesId id)

end Conn

/-- A call whose handler waits is a waiting call, and is counted as such. -/
theorem posts_le (s : Conn) (n : ℕ) : s.posts n ≤ (s.waiting.map Call.number).count n := by
  have hstrand : ∀ ps : List Posted,
      ps.countP (Posted.enters n) = ((ps.filterMap Posted.call?).map Call.number).count n := by
    intro ps
    induction ps with
    | nil => rfl
    | cons p ps ih =>
      cases p with
      | post c => simp [Posted.enters, List.countP_cons, List.count_cons, ih]
      | erase id => simpa [Posted.enters] using ih
  simp only [Conn.posts, hstrand, Conn.waiting, Multiset.map_add, Multiset.count_add,
    Multiset.map_coe, Multiset.coe_count]
  omega

/-- Where a call is for the client. The handlers that enter and erase an entry are counted, as
the strand may hold handlers of many calls in any order. -/
inductive Tracked (s : Conn) (c : Call) : Prop
  /-- Its handler waits, and nothing is known of it. -/
  | posted (hpost : s.posts c.number = 1) (hentry : s.ongoingCalls c.number = none)
      (hpromise : s.promises c.number = none) (herase : s.erases c.number = 0)
  /-- Its entry waits for the response. -/
  | waits (hpost : s.posts c.number = 0)
      (hentry : s.ongoingCalls c.number = some ⟨c.name, some c.number, false⟩)
      (hpromise : s.promises c.number = none) (herase : s.erases c.number = 0)
  /-- The promise has its answer, and the entry waits to be erased. -/
  | answered {r : Response} (hpost : s.posts c.number = 0)
      (hentry : s.ongoingCalls c.number = some ⟨c.name, some c.number, true⟩)
      (hr : r ∈ s.received) (hid : r.id = c.number)
      (hpromise : s.promises c.number = some (Conn.answerOf c.name r))
      (herase : s.erases c.number = 1)
  /-- The entry is erased, and the answer stays. -/
  | gone {r : Response} (hpost : s.posts c.number = 0) (hentry : s.ongoingCalls c.number = none)
      (hr : r ∈ s.received) (hid : r.id = c.number)
      (hpromise : s.promises c.number = some (Conn.answerOf c.name r))
      (herase : s.erases c.number = 0)

/-- The client's side of all calls: each is tracked, and nothing is there but what belongs to a
call. -/
structure Matched (s : Conn) : Prop where
  /-- No handler of the client's thread has thrown. -/
  fine : s.crashed = false
  tracked : ∀ c ∈ s.calls, Tracked s c
  entries : ∀ id entry, s.ongoingCalls id = some entry → ∃ c ∈ s.calls, id = c.number
  promised : ∀ n a, s.promises n = some a → ∃ c ∈ s.calls, n = c.number
  erasing : ∀ id, 0 < s.erases id → ∃ c ∈ s.calls, id = c.number
  /-- A response that has been read has been given to a promise. -/
  given : ∀ r ∈ s.received, ∃ n a, r.id = (n : ℕ) ∧ s.promises n = some a

theorem matched_init : Matched .init where
  fine := rfl
  tracked := by intro c hc; cases hc
  entries := by intro id entry h; cases h
  promised := by intro n a h; cases h
  erasing := by intro id h; cases h
  given := by intro r hr; cases hr

/-- What the client does not touch stays as it is. -/
theorem Tracked.congr (h : Tracked s c) (hpost : s'.posts c.number = s.posts c.number)
    (hentry : s'.ongoingCalls c.number = s.ongoingCalls c.number)
    (hpromise : s'.promises c.number = s.promises c.number)
    (herase : s'.erases c.number = s.erases c.number) (hreceived : s.received ⊆ s'.received) :
    Tracked s' c := by
  cases h with
  | posted h1 h2 h3 h4 =>
    exact .posted (hpost.trans h1) (hentry.trans h2) (hpromise.trans h3) (herase.trans h4)
  | waits h1 h2 h3 h4 =>
    exact .waits (hpost.trans h1) (hentry.trans h2) (hpromise.trans h3) (herase.trans h4)
  | answered h1 h2 hr hid h3 h4 =>
    exact .answered (hpost.trans h1) (hentry.trans h2) (hreceived hr) hid (hpromise.trans h3)
      (herase.trans h4)
  | gone h1 h2 hr hid h3 h4 =>
    exact .gone (hpost.trans h1) (hentry.trans h2) (hreceived hr) hid (hpromise.trans h3)
      (herase.trans h4)

/-- Steps that leave the client alone keep the calls matched. -/
theorem Matched.congr (h : Matched s) (hcalls : s'.calls = s.calls)
    (hcrashed : s'.crashed = s.crashed)
    (hstrand : s'.strand = s.strand) (hentry : s'.ongoingCalls = s.ongoingCalls)
    (hpromise : s'.promises = s.promises) (hreceived : s'.received = s.received) : Matched s' := by
  have hposts : ∀ n, s'.posts n = s.posts n := fun n => by rw [Conn.posts, Conn.posts, hstrand]
  have herases : ∀ id, s'.erases id = s.erases id := fun id => by
    rw [Conn.erases, Conn.erases, hstrand]
  refine ⟨hcrashed.trans h.fine, fun c hc => ?_, ?_, ?_, fun id hid => ?_, ?_⟩
  · exact (h.tracked c (hcalls ▸ hc)).congr (hposts _) (congrFun hentry _) (congrFun hpromise _)
      (herases _) (hreceived ▸ List.Subset.refl _)
  · rw [hentry, hcalls]
    exact h.entries
  · rw [hpromise, hcalls]
    exact h.promised
  · rw [herases] at hid
    rw [hcalls]
    exact h.erasing id hid
  · rw [hreceived, hpromise]
    exact h.given

/-- A call whose handler waits has not been entered. -/
theorem Tracked.of_posts (h : Tracked s c) (hpost : 0 < s.posts c.number) :
    s.posts c.number = 1 ∧ s.ongoingCalls c.number = none ∧ s.promises c.number = none ∧
      s.erases c.number = 0 := by
  cases h with
  | posted h1 h2 h3 h4 => exact ⟨h1, h2, h3, h4⟩
  | waits h1 => omega
  | answered h1 => omega
  | gone h1 => omega

/-- An entry that is to be erased has been answered. -/
theorem Tracked.of_erases (h : Tracked s c) (herase : 0 < s.erases c.number) :
    s.posts c.number = 0 ∧ s.erases c.number = 1 ∧ ∃ r ∈ s.received, r.id = c.number ∧
      s.promises c.number = some (Conn.answerOf c.name r) := by
  cases h with
  | posted _ _ _ h4 => omega
  | waits _ _ _ h4 => omega
  | answered h1 _ hr hid h3 h4 => exact ⟨h1, h4, _, hr, hid, h3⟩
  | gone _ _ _ _ _ h4 => omega

/-- The entry of a call that has been executed and whose response has not been read
waits. -/
theorem Transit.waits (ht : Transit host s) (h : Tracked s c) {run : Ending × Locals}
    (hended : (c, run) ∈ s.ended) {r : Response} (hid : r.id = c.number)
    (hr : r ∈ s.toClient) :
    s.ongoingCalls c.number = some ⟨c.name, some c.number, false⟩ ∧ s.promises c.number = none ∧
      s.posts c.number = 0 ∧ s.erases c.number = 0 := by
  have hcount : 0 < (s.ended.map fun x => x.1.number).count c.number :=
    List.count_pos_iff.mpr (List.mem_map.mpr ⟨_, hended, rfl⟩)
  have honce := ht.once c.number
  have hsingle := ht.single c.number
  -- Another response to the same call would be one too many.
  have hunread : ∀ r' ∈ s.received, r'.id ≠ c.number := by
    intro r' hr' hid'
    have h1 : 0 < ((s.toClient.map Response.id).count (c.number : ℤ)) :=
      List.count_pos_iff.mpr (List.mem_map.mpr ⟨r, hr, hid⟩)
    have h2 : 0 < ((s.received.map Response.id).count (c.number : ℤ)) :=
      List.count_pos_iff.mpr (List.mem_map.mpr ⟨r', hr', hid'⟩)
    simp only [Conn.responses, Multiset.map_add, Multiset.count_add, Multiset.map_coe,
      Multiset.coe_count] at hsingle
    omega
  cases h with
  | posted h1 =>
    -- A call that has been executed does not wait any more.
    have hle := posts_le s c.number
    omega
  | waits h1 h2 h3 h4 => exact ⟨h2, h3, h1, h4⟩
  | answered _ _ hr' hid' => exact absurd hid' (hunread _ hr')
  | gone _ _ hr' hid' => exact absurd hid' (hunread _ hr')

/-! ### The steps of the client

Each of the four moves one call on by a stage and leaves the others where they are, since their
numbers differ. -/

section Steps

variable {n : ℕ} {id : ℤ} {rest : List Posted} {p : Posted}

/-- A new call waits to be entered. -/
theorem Matched.call (h : Matched s) (ht : Transit host s) (hnumber : c.number = s.calls.length + 1) :
    Matched { s with calls := s.calls ++ [c], strand := s.strand ++ [.post c] } := by
  have hold : ∀ c' ∈ s.calls, c'.number ≠ c.number := fun c' hc' hn => by
    have := (ht.number_le hc').2
    omega
  have hposts : ∀ n,
      ({ s with calls := s.calls ++ [c], strand := s.strand ++ [.post c] } : Conn).posts n =
        s.posts n + if c.number = n then 1 else 0 := by
    intro n
    simp [Conn.posts, List.countP_append, List.countP_cons, Posted.enters]
  have herases : ∀ id,
      ({ s with calls := s.calls ++ [c], strand := s.strand ++ [.post c] } : Conn).erases id =
        s.erases id := by
    intro id
    simp [Conn.erases, List.countP_append, Posted.erasesId]
  refine ⟨h.fine, fun c' hc' => ?_, fun id entry he => ?_, fun n a hn => ?_, fun id hid => ?_,
    h.given⟩
  · rcases List.mem_append.mp hc' with hc' | hc'
    · refine (h.tracked c' hc').congr ?_ rfl rfl (herases _) (List.Subset.refl _)
      rw [hposts, if_neg (hold c' hc').symm]
      rfl
    · obtain rfl := List.mem_singleton.mp hc'
      -- Nothing is known under its number yet.
      refine .posted ?_ ?_ ?_ ?_
      · rw [hposts, if_pos rfl, Nat.add_eq_right]
        by_contra hne
        have hpos := lt_of_lt_of_le (Nat.pos_of_ne_zero hne) (posts_le s c'.number)
        obtain ⟨c'', hc'', hn⟩ := Multiset.mem_map.mp (Multiset.count_pos.mp hpos)
        exact hold c'' (ht.waiting c'' hc'') hn
      · refine Option.eq_none_iff_forall_ne_some.mpr fun entry he => ?_
        obtain ⟨c'', hc'', hn⟩ := h.entries _ entry he
        exact hold c'' hc'' (by exact_mod_cast hn.symm)
      · refine Option.eq_none_iff_forall_ne_some.mpr fun a ha => ?_
        obtain ⟨c'', hc'', hn⟩ := h.promised _ a ha
        exact hold c'' hc'' hn.symm
      · rw [herases]
        by_contra hne
        obtain ⟨c'', hc'', hn⟩ := h.erasing _ (Nat.pos_of_ne_zero hne)
        exact hold c'' hc'' (by exact_mod_cast hn.symm)
  · obtain ⟨c', hc', hn⟩ := h.entries id entry he
    exact ⟨c', List.mem_append_left _ hc', hn⟩
  · obtain ⟨c', hc', hn⟩ := h.promised n a hn
    exact ⟨c', List.mem_append_left _ hc', hn⟩
  · rw [herases] at hid
    obtain ⟨c', hc', hn⟩ := h.erasing id hid
    exact ⟨c', List.mem_append_left _ hc', hn⟩

/-- The handler of a call enters it. -/
theorem Matched.post (h : Matched s) (ht : Transit host s) (hstrand : s.strand = .post c :: rest) :
    Matched ({ s with strand := rest }.handle (.post c)) := by
  have hposts : ∀ n, s.posts n = rest.countP (Posted.enters n) + if c.number = n then 1 else 0 := by
    intro n
    simp [Conn.posts, hstrand, List.countP_cons, Posted.enters]
  have herases : ∀ id, s.erases id = rest.countP (Posted.erasesId id) := by
    intro id
    simp [Conn.erases, hstrand, Posted.erasesId]
  have hc : c ∈ s.calls := ht.waiting c (by simp [Conn.waiting, hstrand])
  -- The key is free, so that `insert` inserts.
  obtain ⟨hone, hentry, hpromise, herase⟩ :=
    (h.tracked c hc).of_posts (by rw [hposts, if_pos rfl]; omega)
  have hkey := Call.key_eq (ht.number_lt hc)
  simp only [Conn.handle, hkey, hentry]
  refine ⟨h.fine, fun c' hc' => ?_, fun id entry he => ?_, h.promised, fun id hid => ?_, h.given⟩
  · by_cases hn : c'.number = c.number
    · obtain rfl := ht.eq_of_number hc' hc hn
      refine .waits ?_ (Function.update_self ..) hpromise ((herases _).symm.trans herase)
      rw [hposts, if_pos rfl] at hone
      exact Nat.add_right_cancel hone
    · refine (h.tracked c' hc').congr ?_ (Function.update_of_ne ?_ _ _) rfl (herases _).symm
        (List.Subset.refl _)
      · rw [hposts, if_neg (Ne.symm hn)]
        rfl
      · exact_mod_cast hn
  · by_cases hid : id = c.number
    · exact ⟨c, hc, hid⟩
    · exact h.entries id entry ((Function.update_of_ne hid _ _).symm.trans he)
  · exact h.erasing id (lt_of_lt_of_eq hid (herases id).symm)

/-- No handler of the strand answers a call, or breaks a promise. -/
theorem Matched.promises_handle (h : Matched s) (ht : Transit host s)
    (hstrand : s.strand = p :: rest) :
    ({ s with strand := rest }.handle p).promises = s.promises := by
  cases p with
  | post c =>
    have hc : c ∈ s.calls := ht.waiting c (by simp [Conn.waiting, hstrand])
    obtain ⟨-, hentry, -, -⟩ := (h.tracked c hc).of_posts (by
      simp [Conn.posts, hstrand, Posted.enters])
    simp [Conn.handle, Call.key_eq (ht.number_lt hc), hentry]
  | erase id => rfl

/-- The entry of a call is erased. -/
theorem Matched.erase (h : Matched s) (ht : Transit host s) (hstrand : s.strand = .erase id :: rest) :
    Matched ({ s with strand := rest }.handle (.erase id)) := by
  have hposts : ∀ n, s.posts n = rest.countP (Posted.enters n) := by
    intro n
    simp [Conn.posts, hstrand, Posted.enters]
  have herases : ∀ id', s.erases id' =
      rest.countP (Posted.erasesId id') + if id = id' then 1 else 0 := by
    intro id'
    simp [Conn.erases, hstrand, List.countP_cons, Posted.erasesId]
  obtain ⟨c, hc, rfl⟩ := h.erasing id (by rw [herases, if_pos rfl]; omega)
  -- Only an entry that has been answered is erased.
  obtain ⟨hpost, hone, r, hr, hrid, hpromise⟩ :=
    (h.tracked c hc).of_erases (by rw [herases, if_pos rfl]; omega)
  simp only [Conn.handle]
  refine ⟨h.fine, fun c' hc' => ?_, fun id entry he => ?_, h.promised, fun id hid => ?_, h.given⟩
  · by_cases hn : c'.number = c.number
    · obtain rfl := ht.eq_of_number hc' hc hn
      refine .gone ((hposts _).symm.trans hpost) (Function.update_self ..) hr hrid hpromise ?_
      rw [herases, if_pos rfl] at hone
      exact Nat.add_right_cancel hone
    · have hne : (c'.number : ℤ) ≠ c.number := by exact_mod_cast hn
      refine (h.tracked c' hc').congr (hposts _).symm (Function.update_of_ne hne _ _) rfl ?_
        (List.Subset.refl _)
      rw [herases, if_neg hne.symm]
      rfl
  · by_cases hid : id = c.number
    · exact ⟨c, hc, hid⟩
    · exact h.entries id entry ((Function.update_of_ne hid _ _).symm.trans he)
  · refine h.erasing id ?_
    rw [herases]
    exact Nat.add_pos_left hid _

/-- A response is given to the promise of its call. Its entry is there and waits, so
`operator[]` finds it and `set_value` does not throw. -/
theorem Matched.read {r : Response} {wire : List Response} (h : Matched s) (ht : Transit host s)
    (hwire : s.toClient = r :: wire) :
    ∃ c ∈ s.calls, ∃ resp, Response.ofObject r.getData = .ok resp ∧
      Matched ({ s with toClient := wire, received := r :: s.received }.respond resp) ∧
      ({ s with toClient := wire, received := r :: s.received }.respond resp).promises =
        Function.update s.promises c.number (some (Conn.answerOf c.name r)) ∧
      s.promises c.number = none := by
  have hr : r ∈ s.toClient := hwire ▸ List.mem_cons_self
  obtain ⟨⟨c, run⟩, hended, served, hserve, hresp⟩ :=
    ht.responded r (by simp [Conn.responses, hwire])
  have hc := ht.ended _ hended
  have hans := answers_of_message (ht.number_lt hc) hserve hresp
  obtain ⟨hentry, hpromise, hpost, herase⟩ := ht.waits (h.tracked c hc) hended hans.id hr
  -- The client reads what the server has packed, under the number of the call.
  have hparse := hans.ofObject (Int.natCast_nonneg _) (by exact_mod_cast ht.number_lt hc)
  have hanswer : Conn.answerOf c.name ⟨c.number, r.error, some (r.result.getD .nil), false⟩ =
      Conn.answerOf c.name r := by
    unfold Conn.answerOf
    cases r.error <;> rfl
  refine ⟨c, hc, _, hparse, ?_, ?_, hpromise⟩
  · simp only [Conn.respond, hentry, Option.getD_some, Bool.false_eq_true, if_false, hanswer]
    have hposts : ∀ n, (s.strand ++ [Posted.erase c.number]).countP (Posted.enters n) =
        s.posts n := by
      intro n
      simp [Conn.posts, List.countP_append, Posted.enters]
    have herases : ∀ id, (s.strand ++ [Posted.erase c.number]).countP (Posted.erasesId id) =
        s.erases id + if (c.number : ℤ) = id then 1 else 0 := by
      intro id
      simp [Conn.erases, List.countP_append, List.countP_cons, Posted.erasesId]
    refine ⟨h.fine, fun c' hc' => ?_, fun id entry he => ?_, fun n a hn => ?_, fun id hid => ?_,
      fun r' hr' => ?_⟩
    · by_cases hn : c'.number = c.number
      · obtain rfl := ht.eq_of_number hc' hc hn
        refine .answered ((hposts _).trans hpost) (Function.update_self ..) List.mem_cons_self hans.id
          (Function.update_self ..) ((herases _).trans ?_)
        rw [herase, if_pos rfl]
      · have hne : (c'.number : ℤ) ≠ c.number := by exact_mod_cast hn
        refine (h.tracked c' hc').congr (hposts _) (Function.update_of_ne hne _ _)
          (Function.update_of_ne hn _ _) ((herases _).trans ?_) (List.subset_cons_self _ _)
        rw [if_neg hne.symm, Nat.add_zero]
    · by_cases hid : id = c.number
      · exact ⟨c, hc, hid⟩
      · exact h.entries id entry ((Function.update_of_ne hid _ _).symm.trans he)
    · by_cases hid : n = c.number
      · exact ⟨c, hc, hid⟩
      · exact h.promised n a ((Function.update_of_ne hid _ _).symm.trans hn)
    · by_cases hne : (c.number : ℤ) = id
      · exact ⟨c, hc, hne.symm⟩
      · refine h.erasing id ?_
        have := herases id
        rw [if_neg hne, Nat.add_zero] at this
        exact this ▸ hid
    · rcases List.mem_cons.mp hr' with rfl | hr'
      · exact ⟨c.number, _, hans.id, Function.update_self ..⟩
      · obtain ⟨n, a, hid, ha⟩ := h.given r' hr'
        refine ⟨n, a, hid, (Function.update_of_ne (fun hn => ?_) _ _).trans ha⟩
        rw [hn, hpromise] at ha
        cases ha
  · simp only [Conn.respond, hentry, Option.getD_some, Bool.false_eq_true, if_false, hanswer]

end Steps

/-- What a step does to the client's side: three kinds touch it, and all others leave it still. -/
inductive ClientStep (s : Conn) (e : Event) (s' : Conn) : Prop
  | still (hcalls : s'.calls = s.calls) (hcrashed : s'.crashed = s.crashed)
      (hstrand : s'.strand = s.strand) (hentry : s'.ongoingCalls = s.ongoingCalls)
      (hpromise : s'.promises = s.promises) (hreceived : s'.received = s.received)
  | call {c : Call} (hnumber : c.number = s.calls.length + 1)
      (heq : s' = { s with calls := s.calls ++ [c], strand := s.strand ++ [.post c] })
  | strand {p : Posted} {rest : List Posted} (hstrand : s.strand = p :: rest)
      (heq : s' = { s with strand := rest }.handle p)
  | read {r : Response} {wire : List Response} (hwire : s.toClient = r :: wire)
      (heq : ∀ resp, Response.ofObject r.getData = .ok resp →
        s' = { s with toClient := wire, received := r :: s.received }.respond resp)

theorem client_of_step (h : connStep host s e = some s') : ClientStep s e s' := by
  cases connStep_cases h with
  | call _ _ hnumber => exact .call hnumber rfl
  | strand _ hstrand => exact .strand hstrand rfl
  | read _ _ hwire hread =>
    refine .read hwire fun resp hresp => ?_
    obtain rfl := Except.ok.inj (hread.symm.trans hresp)
    rfl
  | unreadable _ _ hwire hfault =>
    refine .read hwire fun resp hresp => ?_
    cases hfault.symm.trans hresp
  | @writeStrand p => cases p <;> exact .still rfl rfl rfl rfl rfl rfl
  | _ => exact .still rfl rfl rfl rfl rfl rfl

/-- A step keeps the calls matched, and gives no promise a second answer. -/
theorem Matched.step (h : Matched s) (ht : Transit host s) (hstep : connStep host s e = some s') :
    Matched s' ∧ ∀ n a, s.promises n = some a → s'.promises n = some a := by
  cases client_of_step hstep with
  | still hcalls hcrashed hstrand hentry hpromise hreceived =>
    exact ⟨h.congr hcalls hcrashed hstrand hentry hpromise hreceived,
      fun n a ha => by rw [hpromise, ha]⟩
  | call hnumber heq =>
    obtain rfl := heq
    exact ⟨h.call ht hnumber, fun _ _ ha => ha⟩
  | @strand p rest hstrand heq =>
    obtain rfl := heq
    refine ⟨?_, fun n a ha => by rw [h.promises_handle ht hstrand, ha]⟩
    cases p with
    | post c => exact h.post ht hstrand
    | erase id => exact h.erase ht hstrand
  | read hwire heq =>
    obtain ⟨c, -, resp, hresp, hmatched, hpromises, hnone⟩ := h.read ht hwire
    obtain rfl := heq resp hresp
    refine ⟨hmatched, fun n a ha => ?_⟩
    rw [hpromises, Function.update_of_ne (fun hn => by rw [hn, hnone] at ha; cases ha), ha]

/-- The calls are matched in every state of every run with few calls. -/
theorem matched_of_reaches (h : Transition.Reaches (connStep host) Few .init s) : Matched s :=
  h.invariant_of (I := Transit host) (P := Matched) (fun _ hs => transit_of_reaches hs)
    (fun _ _ _ ht hm _ hstep => (hm.step ht hstep).1) matched_init

/-! ### Answers

The two invariants together: the value of a promise comes from a response, the response from an
execution, and the execution has the number of the promise. -/

/-- What a call has been answered with is what the server made of it. -/
theorem Transit.answer (ht : Transit host s) (hm : Matched s) {n : ℕ} {a : Answer}
    (ha : s.promises n = some a) :
    ∃ c run served resp, (c, run) ∈ s.ended ∧ c.number = n ∧
      serve host.funcs host.suppressExceptions run c.message = .ok served ∧
      served.response = some resp ∧ a = Conn.answerOf c.name resp := by
  obtain ⟨c, hc, rfl⟩ := hm.promised n a ha
  have hread : ∃ r ∈ s.received, r.id = c.number ∧ a = Conn.answerOf c.name r := by
    cases hm.tracked c hc with
    | posted _ _ h3 => rw [h3] at ha; cases ha
    | waits _ _ h3 => rw [h3] at ha; cases ha
    | answered _ _ hr hid h3 => exact ⟨_, hr, hid, (Option.some.inj (h3.symm.trans ha)).symm⟩
    | gone _ _ hr hid h3 => exact ⟨_, hr, hid, (Option.some.inj (h3.symm.trans ha)).symm⟩
  obtain ⟨r, hr, hid, rfl⟩ := hread
  obtain ⟨⟨c', run⟩, hended, served, hserve, hresp⟩ :=
    ht.responded r (by simp [Conn.responses, hr])
  have hc' := ht.ended _ hended
  have hans := answers_of_message (ht.number_lt hc') hserve hresp
  have hn : (c'.number : ℤ) = c.number := hans.id.symm.trans hid
  obtain rfl := ht.eq_of_number hc' hc (by exact_mod_cast hn)
  exact ⟨c', run, served, r, hended, rfl, hserve, hresp, rfl⟩

/-- **Every call is executed at most once and answered by its own execution.** Whatever is
lost, whichever writes and reads fail, whenever the server dies and in whichever order its
threads work: as long as fewer than `2^32` calls are made, no handler of the client fails,
no call is executed twice, and a future that has a value has for good what the server
made of that very call. `ongoing_calls_` holds entries of calls under their numbers, with
the promise of the call, and one that is satisfied has been answered. -/
theorem calls_matched (h : Transition.Reaches (connStep host) Few .init s) :
    s.crashed = false ∧ (s.ended.map fun x => x.1.number).Nodup ∧
      (∀ n a, s.promises n = some a →
        (∃ c run served resp, (c, run) ∈ s.ended ∧ c.number = n ∧
          serve host.funcs host.suppressExceptions run c.message = .ok served ∧
          served.response = some resp ∧ a = Conn.answerOf c.name resp) ∧
        ∀ s', Transition.Reaches (connStep host) Few s s' → s'.promises n = some a) ∧
      ∀ id entry, s.ongoingCalls id = some entry → ∃ c ∈ s.calls, id = c.number ∧
        entry.func = c.name ∧ entry.promise = some c.number ∧
        (entry.satisfied = true ↔ (s.promises c.number).isSome = true) := by
  have ht := transit_of_reaches h
  have hm := matched_of_reaches h
  refine ⟨hm.fine, List.nodup_iff_count_le_one.mpr fun n => ?_, fun n a ha => ⟨ht.answer hm ha,
    fun s' hs' => ?_⟩, fun id entry he => ?_⟩
  · have := ht.once n
    omega
  · exact hs'.invariant_of (I := fun s => Transit host s ∧ Matched s)
      (P := fun s => s.promises n = some a)
      (fun s' hs' => ⟨transit_of_reaches (h.trans hs'), matched_of_reaches (h.trans hs')⟩)
      (fun _ _ _ hi hn _ hstep => (hi.2.step hi.1 hstep).2 n a hn) ha
  · obtain ⟨c, hc, rfl⟩ := hm.entries id entry he
    refine ⟨c, hc, rfl, ?_⟩
    cases hm.tracked c hc with
    | posted _ h2 => rw [h2] at he; cases he
    | waits _ h2 h3 =>
      obtain rfl := Option.some.inj (h2.symm.trans he)
      simp [h3]
    | answered _ h2 _ _ h3 =>
      obtain rfl := Option.some.inj (h2.symm.trans he)
      simp [h3]
    | gone _ h2 => rw [h2] at he; cases he

/-- A server with two functions and two threads. -/
def sampleHost : Host where
  funcs := [("map".toList, ⟨1, fun _ => true⟩), ("is_map_done".toList, ⟨0, fun _ => true⟩)]
  suppressExceptions := false
  threads := 2

/-- Two calls, of which the second is answered while the first is being executed. -/
def sampleEvents : List Event :=
  [.connect, .call "map".toList [.integer 0], .call "is_map_done".toList [], .strand, .sent, .strand,
    .sent, .receive, .receive, .start 0, .start 0, .finish 1 (.returned (.boolean false), .clear),
    .writeStrand, .written, .read, .strand]

/-- A test of `Few`. -/
def fewTest (s : Conn) : Event → Bool
  | .call _ _ => s.calls.length + 1 < 2 ^ 32
  | _ => true

theorem few_of_test (h : fewTest s e = true) : Few s e := by
  rintro name args rfl
  exact of_decide_eq_true h

/-- The second call has its answer for good, the first has none. -/
theorem calls_matched_sample :
    ∃ s, Transition.Reaches (connStep sampleHost) Few .init s ∧ s.promises 1 = none ∧
      ∃ a, a.asBool = some false ∧
        ∀ s', Transition.Reaches (connStep sampleHost) Few s s' → s'.promises 2 = some a := by
  have hrun : (Transition.run (Transition.guarded fewTest (connStep sampleHost)) sampleEvents
      .init).map (fun s => ((s.promises 1).isNone, (s.promises 2).bind Answer.asBool)) =
      some (true, some false) := by decide +kernel
  obtain ⟨s, hs, heq⟩ := Option.map_eq_some_iff.mp hrun
  obtain ⟨hone, htwo⟩ := Prod.mk.inj heq
  obtain ⟨a, ha, hbool⟩ := Option.bind_eq_some_iff.mp htwo
  have hreach := Transition.reaches_of_tested (fun _ _ => few_of_test) hs
  obtain ⟨-, -, hanswers, -⟩ := calls_matched hreach
  exact ⟨s, hreach, Option.isNone_iff_eq_none.mp hone, a, hbool, (hanswers 2 a ha).2⟩

end MapReduceCpp.Rpc
