/-
  Composed words are local: a run of one never reaches the frames below its own.
-/
import ThreadedForth.Proofs.Callers
import ThreadedForth.Proofs.FrozenCode
import ThreadedForth.Proofs.IdentityHashes

namespace ThreadedForth

/-! ## Words that only call others -/

/-- A word that never acts on its caller, and whose place no such word takes: a composed word, a
    primitive that may start a nested run, or a word whose action belongs to such a word. -/
def Heap.Tame (h : Heap) (w : WordId) : Prop :=
  ∃ T : WordId → Prop, T w ∧ ∀ v, T v →
    (h.word v).code = .ok .docol ∨ (∃ p, (h.word v).code = .ok (.native p) ∧ p.nests = true) ∨
      ∃ body entry, (h.word v).code = .ok (.indirect body entry) ∧ T body

namespace Heap.Tame

variable {h : Heap} {w : WordId}

theorem cases (ht : h.Tame w) :
    (h.word w).code = .ok .docol ∨ (∃ p, (h.word w).code = .ok (.native p) ∧ p.nests = true) ∨
      ∃ body entry, (h.word w).code = .ok (.indirect body entry) ∧ h.Tame body := by
  obtain ⟨T, hw, hT⟩ := ht
  rcases hT w hw with hc | hc | ⟨body, entry, hc, hb⟩
  · exact .inl hc
  · exact .inr (.inl hc)
  · exact .inr (.inr ⟨body, entry, hc, T, hb, hT⟩)

/-- The tame words are the largest set with this property. -/
theorem of_closed {T : WordId → Prop} (hw : T w)
    (hT : ∀ v, T v → (h.word v).code = .ok .docol ∨
      (∃ p, (h.word v).code = .ok (.native p) ∧ p.nests = true) ∨
      ∃ body entry, (h.word v).code = .ok (.indirect body entry) ∧ T body) : h.Tame w :=
  ⟨T, hw, hT⟩

theorem of_call (hc : (h.word w).code = .ok .docol ∨
    ∃ p, (h.word w).code = .ok (.native p) ∧ p.nests = true) : h.Tame w := by
  refine of_closed (T := fun v => v = w) rfl ?_
  rintro v rfl
  rcases hc with hc | hc
  · exact .inl hc
  · exact .inr (.inl hc)

/-- Tame words stay tame if their code changes only to actions that belong to tame words. -/
theorem mono {h' : Heap} (ht : h.Tame w) (hc : ∀ v c, (h.word v).code = .ok c →
    (h'.word v).code = .ok c ∨
      ∃ body entry, (h'.word v).code = .ok (.indirect body entry) ∧ h.Tame body) : h'.Tame w := by
  refine of_closed (T := h.Tame) ht fun v hv => ?_
  have hchange : ∀ c, (h.word v).code = .ok c → (h'.word v).code = .ok c ∨
      ∃ body entry, (h'.word v).code = .ok (.indirect body entry) ∧ h.Tame body := hc v
  rcases hv.cases with hd | ⟨p, hp, hn⟩ | ⟨body, entry, hi, hb⟩
  · rcases hchange _ hd with hd | ha
    · exact .inl hd
    · exact .inr (.inr ha)
  · rcases hchange _ hp with hp | ha
    · exact .inr (.inl ⟨p, hp, hn⟩)
    · exact .inr (.inr ha)
  · rcases hchange _ hi with hi | ha
    · exact .inr (.inr ⟨body, entry, hi, hb⟩)
    · exact .inr (.inr ha)

end Heap.Tame

/-- A step keeps the words tame that are not the innermost one, and the outermost one. -/
theorem Shift.guards {h : Heap} {vs ws : List WordId} (hs : Shift h vs ws)
    (hb : ∀ v ∈ vs.tail, h.Tame v) (hv : ∀ v, vs = [v] → h.Tame v) :
    (∀ v ∈ ws.tail, h.Tame v) ∧ ∀ v, ws = [v] → h.Tame v := by
  cases hs with
  | back _ k =>
    refine ⟨fun v hm => ?_, fun v he => ?_⟩
    · rw [List.tail_drop, ← List.drop_tail] at hm
      exact hb v (List.mem_of_mem_drop hm)
    · cases k with
      | zero => exact hv v he
      | succ k =>
        have hm : v ∈ vs.drop (k + 1) := he ▸ List.mem_cons_self
        rw [← List.drop_tail] at hm
        exact hb v (List.mem_of_mem_drop hm)
  | call hc =>
    refine ⟨fun v hm => ?_, fun v he => by cases he⟩
    rcases List.mem_cons.1 hm with rfl | hm
    · exact .of_call hc
    · exact hb v hm
  | replace hc =>
    refine ⟨hb, fun v he => ?_⟩
    cases he
    rcases (hv _ rfl).cases with hd | ⟨p, hp, hn⟩ | ⟨body, entry, hi, ht⟩
    · rcases hc with ⟨_, hc⟩ | ⟨_, hc, _⟩
      · cases hd.symm.trans hc
      · cases hd.symm.trans hc
    · rcases hc with ⟨_, hc⟩ | ⟨q, hc, hq⟩
      · cases hp.symm.trans hc
      · cases hp.symm.trans hc
        cases hn.symm.trans hq
    · rcases hc with ⟨_, hc⟩ | ⟨_, hc, _⟩
      · cases hi.symm.trans hc
        exact ht
      · cases hi.symm.trans hc

namespace Machine

/-- A step changes the code of a word only if `does>` acts on it: its action becomes the rest of
    the word that called `(does>)`. -/
theorem code_of_step (x : Machine) {v : WordId} {c : Code} (hc : (x.heap.word v).code = .ok c) :
    (x.step.machine.heap.word v).code = .ok c ∨
      ∃ f body entry rest, x.primitive? = some (.memory .doesRuntime) ∧
        x.frames = f :: ⟨body, entry⟩ :: rest ∧
        (x.step.machine.heap.word v).code = .ok (.indirect body entry) := by
  obtain ⟨hand, hm⟩ := x.step_moves
  have hslot := Word.code_eq_ok_iff.1 hc
  have hs : 1 ≤ (x.heap.word v).size := (Array.getElem?_eq_some_iff.1 hslot).1
  have hv : x.heap.Has (.word v) := by
    refine Nat.lt_of_not_le fun hv => ?_
    simp [Heap.word, hv, default, Word.blank, Word.size] at hs
  rcases (hm.follows hv hs).1.code with hsame | ⟨body, entry, he, haction⟩
  · exact .inl (Word.code_eq_ok_iff.2 (hsame.trans hslot))
  · rcases he with ⟨p, hp, rfl, -, f, rest, hf⟩ | ⟨_, _, _, he⟩
    · exact .inr ⟨f, body, entry, rest, hp, hf, Word.code_eq_ok_iff.2 haction⟩
    · cases he

/-! ## Runs of composed words -/

/-- The invariant of a run of a composed word: every word in it that is not the innermost one only
    calls others, and so does the outermost one. -/
structure Guarded (z : Machine) : Prop where
  own : z.OwnRun
  below : ∀ v ∈ z.nesting.tail, z.heap.Tame v
  single : ∀ v, z.nesting = [v] → z.heap.Tame v

variable {z : Machine} {c d : Context}

/-- The primitive that runs on top of callers belongs to the run. -/
theorem OwnRun.frames_of_primitive? (h : z.OwnRun) {p : Primitive}
    (hp : (z.atop c).primitive? = some p) :
    ∃ f rest, z.frames = f :: rest ∧ (z.heap.word f.word).code = .ok (.native p) := by
  obtain ⟨Q, hr, hn⟩ := h.runs
  obtain ⟨q, rs, hq⟩ : ∃ q rs, z.runs = q :: rs := by
    rw [hr]
    exact List.exists_cons_of_ne_nil (by simp)
  have hruns : (z.atop c).runs =
      q.lift c.frames.length :: (rs.map (Run.lift c.frames.length) ++ c.runs) := by
    show z.runs.map _ ++ _ = _
    rw [hq]
    rfl
  cases hf : z.frames with
  | nil =>
    have hback : (z.atop c).isBackAt (q.lift c.frames.length).base = true := by
      rw [isBackAt_iff, length_atop, hf]
      exact Nat.add_le_add_right (Nat.zero_le _) _
    unfold primitive? at hp
    rw [hruns] at hp
    cases hcf : (z.atop c).frames with
    | nil => simp [hcf] at hp
    | cons f fs => simp [hcf, hback] at hp
  | cons f rest =>
    refine ⟨f, rest, rfl, ?_⟩
    have hframes : (z.atop c).frames = f :: (rest ++ c.frames) := by
      show z.frames ++ c.frames = _
      rw [hf]
      rfl
    unfold primitive? at hp
    rw [hruns, hframes] at hp
    simp only at hp
    split at hp
    · cases hp
    · split at hp
      · rename_i q hcode
        cases hp
        exact hcode
      · cases hp

/-- In a run of a composed word, a primitive that acts on its caller finds it in the run. -/
theorem Guarded.caller (h : Guarded z) {p : Primitive} (hp : (z.atop c).primitive? = some p)
    (ha : p.actsOnCaller = true) : 2 ≤ z.frames.length := by
  obtain ⟨f, rest, hf, hc⟩ := h.own.frames_of_primitive? hp
  cases rest with
  | cons g rest => simp [hf]
  | nil =>
    have hn : p.nests = true := by
      rcases (h.single f.word (by simp [nesting, hf])).cases with hd | ⟨q, hq, hn⟩ | ⟨_, _, hi, _⟩
      · rw [hc] at hd
        cases hd
      · rw [hc] at hq
        cases hq
        exact hn
      · rw [hc] at hi
        cases hi
    have hnone : p.actsOnCaller = false := by
      cases p with
      | arithmetic => rfl
      | memory w => cases w <;> first | rfl | cases hn
      | host w => cases w <;> first | rfl | cases hn
      | _ => cases hn
    rw [hnone] at ha
    cases ha

/-- Tame words stay tame in a run of a composed word: an action belongs to a word of the run. -/
theorem Guarded.tame (h : Guarded z) {v : WordId} (hv : z.heap.Tame v) :
    (z.atop c).step.machine.heap.Tame v := by
  refine hv.mono fun u code hu => ?_
  rcases (z.atop c).code_of_step hu with hc | ⟨f, body, entry, rest, hp, hf, hc⟩
  · exact .inl hc
  · refine .inr ⟨body, entry, hc, h.below body ?_⟩
    have h2 := h.caller hp rfl
    have hf : z.frames ++ c.frames = f :: ⟨body, entry⟩ :: rest := hf
    rcases hz : z.frames with _ | ⟨f₁, _ | ⟨f₂, fs⟩⟩
    · simp [hz] at h2
    · simp [hz] at h2
    · rw [hz] at hf
      cases hf
      simp [nesting, hz]

theorem Guarded.step (h : Guarded z) {g : Debugger} {x : Machine}
    (hs : (z.atop (c.seen g)).step = .running x) :
    ∃ z' g', x = z'.atop (c.seen g') ∧ Guarded z' := by
  obtain ⟨p, k, -, hp, -, hstays⟩ := h.own.step (c := c) (d := c)
    (fun p hp => ⟨h.caller hp, .refl _ _⟩) g g
  rw [hs] at hp
  cases p with
  | ended => cases hp
  | failed => cases hp
  | running z' =>
    cases hp
    obtain ⟨hown, hshift⟩ := hstays
    have htame : ∀ {v}, z.heap.Tame v → z'.heap.Tame v := by
      intro v hv
      have ht := h.tame (c := c.seen g) hv
      rw [hs] at ht
      exact ht
    obtain ⟨hbelow, hsingle⟩ := hshift.guards h.below h.single
    exact ⟨z', k, rfl, hown, fun v hv => htame (hbelow v hv), fun v hv => htame (hsingle v hv)⟩

/-- The invariant holds during the whole run. -/
theorem Guarded.goes (h : Guarded z) {n : Nat} {g : Debugger} {x : Machine}
    (hg : Goes n (z.atop (c.seen g)) x) : ∃ z' g', x = z'.atop (c.seen g') ∧ Guarded z' := by
  generalize hy : z.atop (c.seen g) = y at hg
  induction hg generalizing z g with
  | refl => exact ⟨z, g, hy.symm, h⟩
  | step hs _ ih =>
    subst hy
    obtain ⟨z', g', rfl, hz'⟩ := h.step hs
    exact ih hz' rfl

theorem Guarded.start {m : Machine} {w : WordId} (hw : m.heap.Tame w) :
    Guarded (({ m with frames := [], runs := [] } : Machine).startRun w .outside) := by
  refine ⟨.start m w, fun v hv => absurd hv List.not_mem_nil, fun v hv => ?_⟩
  cases hv
  exact hw

theorem guarded_within {m : Machine} {w : WordId} (hw : (m.heap.word w).code = .ok .docol)
    {n : Nat} {x : Machine} (hg : Goes n ((m.within c).startRun w .outside) x) :
    ∃ z g, x = z.atop (c.seen g) ∧ Guarded z := by
  rw [show (m.within c).startRun w .outside =
    (({ m with frames := [], runs := [] } : Machine).startRun w .outside).atop
      (c.seen c.debugger) from within_startRun m w c] at hg
  exact (Guarded.start (.of_call (.inl hw))).goes hg

/-- All along a run on top of callers, other callers and other addresses would make no difference to
    the answers that primitives get when they ask what is alive, or where an object is. -/
def IndifferentAt (f : ObjId → UInt64) (c d : Context) (x : Machine) : Prop :=
  ∀ (n : Nat) (z : Machine) (g : Debugger) (p : Primitive), Goes n x (z.atop (c.seen g)) →
    (z.atop c).primitive? = some p → p.SameAnswers (z.atop c) ((z.atop d).located f)

/-- A composed word does not act on its callers. -/
theorem contained_within {m : Machine} {w : WordId} (hw : (m.heap.word w).code = .ok .docol)
    (c : Context) : Contained c ((m.within c).startRun w .outside) := by
  intro n z g p hg hp ha
  obtain ⟨z', g', he, hz'⟩ := guarded_within hw hg
  have hframes : z.frames = z'.frames := List.append_cancel_right (congrArg Machine.frames he)
  have hsame : (z.atop (c.seen g)).primitive? = (z'.atop (c.seen g')).primitive? := by rw [he]
  rw [hframes]
  exact hz'.caller (c := c) (hsame.symm.trans hp) ha

/-- **Composed words are local.**  A composed word that is executed under other callers has the same
    result, step by step, and leaves each machine its callers: it ends or fails in the same way, or
    goes on forever under both.  This holds as long as the callers make no difference to the
    answers when a primitive asks for the word created last or for a reference count.  Under other
    callers the objects may be at other addresses; then the hash of an array or a record, which is
    that of its address, has to be the same as well.  Whatever is asked, the callers' frames stay
    as they are during the run, and a primitive that acts on its caller finds it above them. -/
theorem composed_words_local (m : Machine) (w : WordId) (hw : (m.heap.word w).code = .ok .docol)
    (c d : Context) :
    (∀ n x, Goes n ((m.within c).startRun w .outside) x → ∃ fs, x.frames = fs ++ c.frames ∧
      ∀ p, x.primitive? = some p → p.actsOnCaller = true → 2 ≤ fs.length) ∧
    ∀ f, IndifferentAt f c d ((m.within c).startRun w .outside) → ∀ fuel,
      SameResult c d (((m.within c).execute fuel w).map (alter (·.located f)))
        (((m.located f).within d).execute fuel w) := by
  refine ⟨fun n x hg => ?_, fun f hi fuel => ?_⟩
  · obtain ⟨z, g, rfl, hz⟩ := guarded_within hw hg
    exact ⟨z.frames, rfl, fun p hp ha => hz.caller hp ha⟩
  · have hhash : ∀ n x, Goes n ((m.within c).startRun w .outside) x → x.HashesAlike f := by
      intro n x hg hp
      obtain ⟨z, g, rfl, -⟩ := guarded_within hw hg
      exact (hi n z g _ hg hp).address rfl
    have hmoved : ((m.located f).within c).execute fuel w =
        ((m.within c).execute fuel w).map (alter (·.located f)) :=
      execute_located fun x hx => (goes_of_mem_trail hx).elim fun n hg => hhash n x hg
    rw [← hmoved]
    refine execute_within (m.located f) w (contained_within (m := m.located f) hw c) (fun n z g p hg hp => ?_) fuel
    -- What is asked in the run at the other addresses is what is asked in the run itself.
    obtain ⟨y, hgy, he⟩ := goes_located (m := (m.within c).startRun w .outside) hhash hg
    have hy : y = (z.located y.addresses).atop (c.seen g) := congrArg (·.located y.addresses) he.symm
    rw [hy] at hgy
    have ha := hi n (z.located y.addresses) g p hgy hp
    exact ⟨ha.last, ha.count, fun _ => rfl⟩

instance (p : Primitive) (x y : Machine) : Decidable (p.SameAnswers x y) :=
  decidable_of_iff ((p.asksLast x.compiler = true → x.latest = y.latest) ∧
    (p = .object .refcount → x.topCount = y.topCount) ∧
    (p = .object (.invoke .hash) → x.topAddress = y.topAddress))
    ⟨fun h => ⟨h.1, h.2.1, h.2.2⟩, fun h => ⟨h.1, h.2, h.3⟩⟩

/-- Whether a run without callers comes to an end within the fuel, and callers would make no
    difference to the answers that primitives get, nor would the addresses of objects. -/
def staysIndifferent (f : ObjId → UInt64) (d : Context) : Nat → Machine → Bool
  | 0, _ => false
  | fuel + 1, x =>
    (x.primitive?.all fun p => p.SameAnswers x ((x.atop d).located f)) &&
      match x.step with
      | .running x' => staysIndifferent f d fuel x'
      | _ => true

theorem sameAnswers_of_staysIndifferent {f : ObjId → UInt64} {fuel n : Nat} {x y : Machine}
    {p : Primitive} (h : staysIndifferent f d fuel x = true) (hg : Goes n x y)
    (hp : y.primitive? = some p) : p.SameAnswers y ((y.atop d).located f) := by
  induction fuel generalizing n x with
  | zero => cases h
  | succ fuel ih =>
    simp only [staysIndifferent, Bool.and_eq_true] at h
    obtain ⟨h₁, h₂⟩ := h
    cases hg with
    | refl =>
      rw [hp] at h₁
      simpa using h₁
    | step hs hg =>
      rw [hs] at h₂
      exact ih h₂ hg

theorem indifferent_of_staysIndifferent {f : ObjId → UInt64} (fuel : Nat) {x : Machine}
    {g : Debugger} (h : staysIndifferent f d fuel x = true) : IndifferentAt f ⟨[], [], g⟩ d x := by
  intro n z j p hg hp
  -- Without callers, nothing is below the frames and the runs.
  have hatop : ∀ i : Debugger, z.atop ⟨[], [], i⟩ = { z with debugger := i } := by
    intro i
    have hlift : z.runs.map (Run.lift 0) = z.runs := List.map_id _
    simp [atop, within, hlift]
  rw [hatop] at hp ⊢
  have hg : Goes n x { z with debugger := j } := hatop j ▸ hg
  have ha := sameAnswers_of_staysIndifferent h hg hp
  exact ⟨ha.last, ha.count, ha.address⟩

/-- A machine after a line. -/
def afterLine (text : String) (m : Machine) : Machine :=
  after ((processLine 64 (after (fill text m))).getD (.ok () default))

theorem Reached.afterLine {m : Machine} {text : String} (h : Reached .rest m)
    (hr : (Machine.processLine 64 (after (Machine.fill text m))).isSome = true) :
    Reached .rest (Machine.afterLine text m) := by
  obtain ⟨r, hr⟩ := Option.isSome_iff_exists.1 hr
  rw [Machine.afterLine, hr]
  exact (h.fill text).processLine hr

theorem Leads.afterLine {ph : Phase} {m₀ m : Machine} {text : String} (h : Leads ph m₀ .rest m)
    (hr : (Machine.processLine 64 (after (Machine.fill text m))).isSome = true) :
    Leads ph m₀ .rest (Machine.afterLine text m) := by
  obtain ⟨r, hr⟩ := Option.isSome_iff_exists.1 hr
  rw [Machine.afterLine, hr]
  exact (h.tail (.fill text)).processLine hr

/-- A machine with the word `w`, which asks for the next free position. -/
def asking : Machine :=
  afterLine ": w here drop ;" (ofNames {} [":", ";", "here", "drop"])

theorem asking_eq : asking = afterLine ": w here drop ;" (stocked {} (supply
    [⟨"drop", .stack .drop, false⟩, ⟨"here", .memory .here, false⟩, ⟨":", .defining .colon, false⟩,
      ⟨";", .defining .semicolon, true⟩])) :=
  congrArg (afterLine _) (ofNames_eq _ _ (by decide) (by decide))

/-- The word `w` on its own, and called by itself where all objects are at one address. -/
theorem composed_words_local_of_here :
    ∃ (m : Machine) (w : WordId), (m.heap.word w).code = .ok .docol ∧
      IndifferentAt (fun _ => 64) ⟨[], [], {}⟩ ⟨[⟨w, 2⟩], [⟨0, .outside⟩], {}⟩
        ((m.within ⟨[], [], {}⟩).startRun w .outside) ∧
      SameResult ⟨[], [], {}⟩ ⟨[⟨w, 2⟩], [⟨0, .outside⟩], {}⟩
        (((m.within ⟨[], [], {}⟩).execute 8 w).map (alter (·.located fun _ => 64)))
        (((m.located fun _ => 64).within ⟨[⟨w, 2⟩], [⟨0, .outside⟩], {}⟩).execute 8 w) := by
  have hspec : (asking.heap.word ⟨20⟩).code = .ok .docol ∧
      staysIndifferent (fun _ => 64) ⟨[⟨⟨20⟩, 2⟩], [⟨0, .outside⟩], {}⟩ 8
        ((asking.within ⟨[], [], {}⟩).startRun ⟨20⟩ .outside) = true := by
    rw [asking_eq]
    decide +kernel
  obtain ⟨hw, hstays⟩ := hspec
  have hi : IndifferentAt (fun _ => 64) ⟨[], [], {}⟩ ⟨[⟨⟨20⟩, 2⟩], [⟨0, .outside⟩], {}⟩
      ((asking.within ⟨[], [], {}⟩).startRun ⟨20⟩ .outside) :=
    indifferent_of_staysIndifferent 8 hstays
  generalize asking = m at hw hi
  exact ⟨m, ⟨20⟩, hw, hi, (composed_words_local m ⟨20⟩ hw _ _).2 _ hi 8⟩

theorem not_sameResult {x y : Option (EStateM.Result Error Machine Unit)}
    (hx : (x matches some (.ok _ _)) = true) (hy : (y matches some (.error _ _)) = true) :
    ¬ SameResult c d x y := by
  intro h
  rcases x with _ | x
  · cases hx
  · rcases y with _ | y
    · cases hy
    · obtain ⟨r, g, g', rfl, rfl⟩ := h
      cases r with
      | ok => cases hy
      | error => cases hx

/-- A machine with the word `inner`, which forgets a word and asks for the next free position, and
    the word `w` that calls it; the line has the name of that word. -/
def forgetting : Machine :=
  after (fill "w" (afterLine ": w inner ;" (afterLine ": inner forget here drop ;"
    (ofNames {} [":", ";", "forget", "here", "drop"]))))

theorem forgetting_eq : forgetting = after (fill "w" (afterLine ": w inner ;"
    (afterLine ": inner forget here drop ;" (stocked {} (supply
      [⟨"drop", .stack .drop, false⟩, ⟨"here", .memory .here, false⟩, ⟨":", .defining .colon, false⟩,
        ⟨";", .defining .semicolon, true⟩, ⟨"forget", .defining .forget, false⟩]))))) :=
  congrArg (after <| fill _ <| afterLine _ <| afterLine _ ·)
    (ofNames_eq _ _ (by decide) (by decide))

/-- Callers keep words alive: the word `inner` forgets its caller, which stays the word created last
    as long as it is running, and without this caller no word has been created. -/
theorem callers_keep_words_alive :
    ¬ ∀ (m : Machine) (w : WordId) (c d : Context), (m.heap.word w).code = .ok .docol →
      c.debugger.isWatching = false → d.debugger = c.debugger →
      ∀ fuel, SameResult c d ((m.within c).execute fuel w) ((m.within d).execute fuel w) := by
  intro h
  have hspec : (forgetting.heap.word ⟨21⟩).code = .ok .docol ∧
      (((forgetting.within ⟨[⟨⟨22⟩, 2⟩], [⟨0, .outside⟩], {}⟩).execute 16 ⟨21⟩) matches
        some (.ok _ _)) = true ∧
      (((forgetting.within ⟨[], [], {}⟩).execute 16 ⟨21⟩) matches some (.error _ _)) = true := by
    rw [forgetting_eq]
    decide +kernel
  obtain ⟨hw, hcalled, halone⟩ := hspec
  generalize forgetting = m at hw hcalled halone
  exact not_sameResult hcalled halone
    (h m ⟨21⟩ ⟨[⟨⟨22⟩, 2⟩], [⟨0, .outside⟩], {}⟩ ⟨[], [], {}⟩ hw rfl rfl 16)

end Machine
end ThreadedForth
