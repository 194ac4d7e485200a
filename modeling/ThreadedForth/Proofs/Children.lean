/-
  Words that define words: what `does>` makes of a word, and what such a word does later.
-/
import ThreadedForth.Proofs.Activations
import ThreadedForth.Proofs.CountedLoops
import ThreadedForth.Proofs.Invariants

namespace ThreadedForth
namespace Machine

variable {ph ph' : Phase} {m m' s x z : Machine} {w c r : WordId} {pos entry : Nat}
  {rest : List Frame} {rs : List Run} {left? : Option Nat}

/-! ## The word created last -/

/-- Every word that is made while words run becomes the one created last. -/
theorem newest_kept (n : Nat) : Kept fun m => n < m.heap.words.size →
    m.compiler.last? = some ⟨m.heap.words.size - 1⟩ where
  same := by
    intro m m' h hwords hcompiler
    rwa [hwords, hcompiler]
  mode h _ _ := h
  finish h := h
  update := by
    intro m h v f _
    simpa [Heap.updateWord, Heap.setWord] using h
  start := by
    intro m _ name _
    simp [starting, Compiler.start, Heap.addWord]
  define := by
    intro m _ v _ _
    simp [Heap.addWord]

/-- The one word that was made in a run is the one created last. -/
theorem last?_of_one {n : Nat} (hg : Goes n s x) (hone : x.heap.words.size = s.heap.words.size + 1) :
    x.compiler.last? = some ⟨s.heap.words.size⟩ := by
  have hx := (newest_kept s.heap.words.size).goes (fun h => absurd h (Nat.lt_irrefl _)) hg
  rw [hx (by omega), hone, Nat.add_sub_cancel]

/-! ## The action is given -/

/-- A run of the defining word `w`, called above the frames `rest`, from `s` to `x`: the machine `x` is
    at the `does>` at the position `pos` of `w`, and `c` is the one word that was made on the
    way. -/
structure Makes (w c : WordId) (pos : Nat) (rest : List Frame) (rs : List Run) (s x : Machine) :
    Prop where
  called : s.Stands w 1 rest rs
  covers : Covers rs rest
  goes : ∃ n, Goes n s x
  stands : x.Stands w pos rest rs
  composed : (x.heap.word w).code = .ok .docol
  does : ∃ r, (x.heap.word w).body[pos]? = some (.call r) ∧
    (x.heap.word r).code = .ok (.native (.memory .doesRuntime))
  child : c = ⟨s.heap.words.size⟩
  one : x.heap.words.size = s.heap.words.size + 1

/-- The word made is alive when `does>` is reached, and no interrupt is due there. -/
structure Defines (w c : WordId) (pos : Nat) (rest : List Frame) (rs : List Run) (s x : Machine) :
    Prop extends Makes w c pos rest rs s x where
  alive : x.heap.isAlive x.roots c = true
  calm : x.interrupt = false

/-- The machine with an action given to the word `c`, the elements of `w` from `entry` on, and with the
    frames `rest`. -/
def taught (x : Machine) (c w : WordId) (entry : Nat) (rest : List Frame) (g : Debugger) : Machine :=
  { x with
    heap := x.heap.updateWord c fun u =>
      { u with body := u.body.setIfInBounds 0 (.direct (.indirect w entry)) }
    frames := rest
    debugger := g }

/-- What `(does>)` does, called by `w`: the word created last gets the rest of `w` as its action. -/
theorem run_doesRuntime {ip : Nat} (hf : x.frames = ⟨r, 1⟩ :: ⟨w, ip⟩ :: rest)
    (hlast : x.compiler.last? = some c) (ha : x.heap.isAlive x.roots c = true)
    (hsize : 0 < (x.heap.word c).size) :
    (Primitive.memory .doesRuntime).run x =
      .ok .leave (x.taught c w ip (⟨r, 1⟩ :: ⟨w, ip⟩ :: rest) x.debugger) := by
  have hparent : M.parent x = .ok ⟨w, ip⟩ x := by
    have hx : x = { x with frames := ⟨r, 1⟩ :: ⟨w, ip⟩ :: rest } := by rw [← hf]
    rw [hx]
    rfl
  have hm : M.last x = .ok c x := by
    show M.lift (x.compiler.last x.heap x.roots) x = _
    rw [Compiler.last, hlast]
    simp only [ha, if_true]
    rfl
  have hset : (x.heap.word c).setCode (.indirect w ip) = .ok { x.heap.word c with
      body := (x.heap.word c).body.setIfInBounds 0 (.direct (.indirect w ip)) } := by
    simp only [Word.setCode, Word.poke, Word.checkSlot, if_true, hsize]
  have hact : setLastCode (.indirect w ip) x =
      .ok () (x.taught c w ip (⟨r, 1⟩ :: ⟨w, ip⟩ :: rest) x.debugger) := by
    rw [setLastCode, M.bind_ok hm]
    show M.setHeap (x.heap.changeWord c fun u => u.setCode (.indirect w ip)) x = _
    rw [Heap.changeWord, hset, taught, ← hf]
    rfl
  show (M.parent >>= fun f => setLastCode (.indirect f.word f.ip) >>= fun _ => pure Flow.leave) x = _
  rw [M.bind_ok hparent, M.bind_ok hact]
  rfl

/-- What is alive stays so when a word is called. -/
theorem isAlive_calling (hx : x.Stands w pos rest rs) (ha : x.heap.isAlive x.roots c = true)
    (g : Debugger) : x.heap.isAlive ((x.standing w entry rest rs g).enter r).roots c = true := by
  have hsub : ∀ q ∈ x.roots, q ∈ ((x.standing w entry rest rs g).enter r).roots := by
    intro q hq
    simp only [roots, standing, enter, hx.frames, hx.runs, List.map_cons, List.mem_append, List.mem_cons] at hq ⊢
    tauto
  exact Heap.isAlive_iff.2 ((Heap.isAlive_iff.1 ha).imp (hsub _) fun h => h.mono hsub)

theorem Defines.has (hd : Defines w c pos rest rs s x) : x.heap.Has (.word c) := by
  rw [hd.child]
  show s.heap.words.size < x.heap.words.size
  rw [hd.one]
  exact Nat.lt_succ_self _

theorem Defines.size (hd : Defines w c pos rest rs s x) (hr : Reached (.word left?) s) :
    0 < (x.heap.word c).size := by
  obtain ⟨n, hg⟩ := hd.goes
  exact ((hr.goes hg).sound.heap.word hd.has).one_le_size

/-- **`does>` ends the defining word.**  Nothing but the code of the word made has changed. -/
theorem Defines.ends (hd : Defines w c pos rest rs s x) (hr : Reached (.word left?) s) :
    ∃ g, Goes 2 x (x.taught c w (pos + 1) rest g) := by
  obtain ⟨n, hg⟩ := hd.goes
  obtain ⟨r, hbody, hcode⟩ := hd.does
  have hlast : x.compiler.last? = some c := hd.child ▸ last?_of_one hg hd.one
  have hsize : 0 < (x.heap.word c).size := hd.size hr
  have hcar : Carries w (x.heap.word w).body.toList x := ⟨rfl, hd.composed, hd.calm⟩
  obtain ⟨g, hcall⟩ := step_call_standing hcar hd.covers (c := r)
    (by rw [Array.getElem?_toList]; exact hbody) x.debugger
  rw [hd.stands.eq_standing] at hcall
  refine ⟨g, .step hcall (.one ?_)⟩
  obtain ⟨q, qs, rfl, hle⟩ := hd.covers
  have hrun := run_doesRuntime (x := (x.standing w (pos + 1) rest (q :: qs) g).enter r) rfl hlast
    (isAlive_calling hd.stands hd.alive g) hsize
  have hcode' : (((x.standing w (pos + 1) rest (q :: qs) g).enter r).heap.word r).code =
      .ok (.native (.memory .doesRuntime)) := hcode
  rw [step_of_frame (m := (x.standing w (pos + 1) rest (q :: qs) g).enter r) rfl rfl
    (by show q.base < rest.length + 1 + 1; omega) hd.calm, stepFrame]
  simp only [hcode', hrun]
  have hback : ¬ ((((x.standing w (pos + 1) rest (q :: qs) g).enter r).taught c w (pos + 1)
      (⟨r, 1⟩ :: ⟨w, pos + 1⟩ :: rest) g).popFrame.isBackAt q.base = true) := by
    rw [isBackAt_iff]
    show ¬ rest.length + 1 ≤ q.base
    omega
  show Progress.running (if (((x.standing w (pos + 1) rest (q :: qs) g).enter r).taught c w (pos + 1)
      (⟨r, 1⟩ :: ⟨w, pos + 1⟩ :: rest) g).popFrame.isBackAt q.base = true then _ else _) = _
  rw [if_neg hback]
  show Progress.running { x.taught c w (pos + 1) rest g with runs := q :: qs } = _
  rw [taught, ← hd.stands.runs]

/-! ## The action is kept -/

/-- What can come of a session in which `does>` does not act on the word `c`. -/
inductive Spares (c : WordId) : Phase → Machine → Phase → Machine → Prop
  | refl (ph : Phase) (m : Machine) : Spares c ph m ph m
  | tail {ph ph₁ ph' : Phase} {m m₁ m' : Machine} (h : Spares c ph m ph₁ m₁)
    (hc : ¬ ActsOn ph₁ m₁ c) (hn : Next ph₁ m₁ ph' m') : Spares c ph m ph' m'

theorem Spares.leads (h : Spares c ph m ph' m') : Leads ph m ph' m' := by
  induction h with
  | refl => exact .refl _ _
  | tail _ _ hn ih => exact ih.tail hn

/-- Without another action the code of a word stays. -/
theorem Spares.code (h : Spares c ph m ph' m') (hr : Reached ph m) (hc : m.heap.Has (.word c)) {k : Code}
    (hk : (m.heap.word c).code = .ok k) : (m'.heap.word c).code = .ok k := by
  induction h with
  | refl => exact hk
  | tail h hspare hn ih =>
    have hk₁ := ih hr hc hk
    rw [Word.code_eq_ok_iff] at hk₁ ⊢
    obtain ⟨-, hhas, -⟩ := h.leads.follows hr hc
    rcases (hn.follows (hr.leads h.leads) hhas).1.code with hsame | ⟨_, _, hx, -⟩
    · exact hsame.trans hk₁
    · exact absurd (Edits.actsOn hx) hspare

/-! ## The action is run -/

/-- The machine with the address of the data of `c` on the data stack, and with a frame of `w` at
    `entry` in place of the one of `c`. -/
def acting (z : Machine) (c w : WordId) (entry : Nat) (rest : List Frame) : Machine :=
  { z with
    data := { z.data with items := .ptr (z.heap.pointer c 1) :: z.data.items }
    frames := ⟨w, entry⟩ :: rest }

/-- Whenever the word `c` has been called on the machine `z`, above any frames `rest`: the next step
    pushes the address of its data, and puts `w` in its place, at `entry`.  What runs then is the
    composed word `w`, with the elements that it had at `s`, above the frames of the caller, until
    it comes back to them or an error leaves it. -/
def Acts (c w : WordId) (entry : Nat) (s z : Machine) : Prop :=
  ∀ rest, z.frames = ⟨c, 1⟩ :: rest → Covers z.runs rest → z.interrupt = false →
    z.data.depth < z.data.capacity → (z.heap.word w).code = .ok .docol →
    z.step = .running (z.acting c w entry rest) ∧
    ∀ n x, Goes n (z.acting c w entry rest) x → (x.heap.word w).code = .ok .docol →
      (∀ i < (s.heap.word w).size, (x.heap.word w).body[i]? = (s.heap.word w).body[i]?) ∧
      (Grounded w rest z.runs x ∨
        ∃ k b, k ≤ n ∧ Goes k (z.acting c w entry rest) b ∧ Left rest z.runs b)

/-- A word with an action pushes the address of its data, and goes on there. -/
theorem step_indirect (hf : z.frames = ⟨c, 1⟩ :: rest) (hr : Covers z.runs rest)
    (hi : z.interrupt = false) (hroom : z.data.depth < z.data.capacity)
    (hc : (z.heap.word c).code = .ok (.indirect w entry)) :
    z.step = .running (z.acting c w entry rest) := by
  obtain ⟨q, qs, hq, hle⟩ := hr
  have hpush : M.push (.ptr (z.heap.pointer c 1)) z =
      .ok () { z with data := { z.data with items := .ptr (z.heap.pointer c 1) :: z.data.items } } := by
    simp only [M.push, Stack.push, hroom, if_true]
  rw [step_of_frame hq hf (by rw [hf, List.length_cons]; omega) hi, stepFrame]
  simp only [hc, hpush]
  rfl

/-- The frame of the action is the only one above those of the caller. -/
theorem grounded_acting (z : Machine) (c w : WordId) (entry : Nat) (rest : List Frame) :
    Grounded w rest z.runs (z.acting c w entry rest) :=
  ⟨⟨[⟨w, entry⟩], rfl, rfl⟩, [], rfl, Nat.le_refl _⟩

theorem acts_of_code (hs : Reached (.word left?) s) (hw : s.heap.Has (.word w))
    (hb : s.compiler.building? ≠ some w) {left?' : Option Nat} (hl : Leads (.word left?) s (.word left?') z)
    (hc : (z.heap.word c).code = .ok (.indirect w entry)) : Acts c w entry s z := by
  intro rest hf hr hi hroom hz
  have hstep := step_indirect hf hr hi hroom hc
  refine ⟨hstep, fun n x hg hx => ?_⟩
  have hl₁ : Leads (.word left?) s (.word left?') (z.acting c w entry rest) := hl.tail (.step hstep)
  exact ⟨(hl₁.goes hg).slots_of_docol hs hw hb (Word.code_eq_ok_iff.1 hx),
    (grounded_acting z c w entry rest).goes hr (hs.leads hl₁) hg hx⟩

/-! ## The data are kept apart -/

/-- The data of the word `c` are its own.  No arithmetic leads from one word into another; and once
    `c` is not under construction any more, a slot of it changes only when something is stored
    through a pointer to this very slot, and slots are added only while it is the word created
    last. -/
def Secludes (c : WordId) (ph : Phase) (z : Machine) : Prop :=
  (∀ p n q, z.heap.offset p n = .ok q → q.target = p.target) ∧
    (z.compiler.building? ≠ some c → ∀ ph' z', Next ph z ph' z' → ∀ i ≠ 0,
      (z'.heap.word c).body[i]? = (z.heap.word c).body[i]? ∨
        (∃ p : Pointer, p.target = c ∧ p.index = i ∧ Stores ph z p) ∨
        ((z.heap.word c).body[i]? = none ∧ Extends ph z c))

theorem Reached.secludes (h : Reached ph z) (hc : z.heap.Has (.word c)) : Secludes c ph z := by
  refine ⟨fun p n q hq => ?_, fun hb ph' z' hn i hi => ?_⟩
  · simp only [Heap.offset] at hq
    split at hq
    · cases hq
      rfl
    · cases hq
  · obtain ⟨hf, -⟩ := hn.follows h hc
    cases hslot : (z.heap.word c).body[i]? with
    | some e =>
      rcases hf.slots hb i e hi hslot with hsame | ⟨_, _, p, _, _, hp, hpi, hx⟩
      · exact .inl hsame
      · exact .inr (.inl ⟨p, hp, hpi, Edits.stores hx⟩)
    | none =>
      rcases hf.grows hb with hsize | hx
      · refine .inl (Array.getElem?_eq_none ?_)
        rw [hsize]
        exact Array.getElem?_eq_none_iff.1 hslot
      · exact .inr (.inr ⟨rfl, Edits.extends hx hc⟩)

/-- **What `does>` means.**  A run of a defining word `w` that has made one word `c` stops at `does>`
    and comes back to its caller, and the code of `c` is all that this changes.  Whatever happens
    from then on: as long as `does>` does not act on `c` again, `c` pushes the address of its own
    data whenever it is called, and goes on in `w` after `does>`, above the frames of its caller;
    and what is stored through a pointer into another word never changes the data of `c`. -/
theorem does_gives_action (hr : Reached (.word left?) s) (hd : Defines w c pos rest rs s x) :
    ∃ g, Goes 2 x (x.taught c w (pos + 1) rest g) ∧
      (∀ left?' z, Spares c (.word left?) (x.taught c w (pos + 1) rest g) (.word left?') z →
        Acts c w (pos + 1) s z) ∧
      ∀ ph z, Leads (.word left?) (x.taught c w (pos + 1) rest g) ph z → Secludes c ph z := by
  obtain ⟨g, hgoes⟩ := hd.ends hr
  obtain ⟨n, hg⟩ := hd.goes
  have hx : Reached (.word left?) x := hr.goes hg
  have hy : Reached (.word left?) (x.taught c w (pos + 1) rest g) := hx.goes hgoes
  have hl : Leads (.word left?) s (.word left?) (x.taught c w (pos + 1) rest g) :=
    Leads.goes (.refl _ _) (hg.trans hgoes)
  have hchild : x.heap.Has (.word c) := hd.has
  have hhas : (x.taught c w (pos + 1) rest g).heap.Has (.word c) := Heap.has_setWord.2 hchild
  have hcode : ((x.taught c w (pos + 1) rest g).heap.word c).code = .ok (.indirect w (pos + 1)) := by
    rw [Word.code_eq_ok_iff]
    show ((x.heap.updateWord c _).word c).body[0]? = _
    rw [Heap.updateWord, Heap.word_setWord, if_pos ⟨rfl, hchild⟩, Array.getElem?_setIfInBounds_self,
      if_pos (show 0 < (x.heap.word c).body.size from hd.size hr)]
  have hframe : (⟨w, 1⟩ : Frame) ∈ s.frames := hd.called.frames ▸ List.mem_cons_self
  have hw : s.heap.Has (.word w) := (hr.sound.frames _ hframe).has
  have hb : s.compiler.building? ≠ some w := by
    intro hb
    obtain ⟨_, ho⟩ := hr.owning
    exact (ho.unreferenced hb).frames _ hframe rfl
  refine ⟨g, hgoes, fun left?' z hz => ?_, fun ph z hz => ?_⟩
  · exact acts_of_code hr hw hb (hl.trans hz.leads) (hz.code hy hhas hcode)
  · exact (hy.leads hz).secludes (hz.follows hy hhas).2.1

/-! ## Some defining words -/

/-- A machine after a definition of the word `d`, with a line to read from. -/
def definedD (definition line : String) : Machine :=
  after (fill line (afterLine definition ((ofNames {} [":", ";", "create", "forget", ",", "does>", "(does>)",
    "@"]).installAll [⟨"host-interrupt", .host .interrupt, false⟩])))

/-- The definitions of `d`, and the names that it reads. -/
def definitionsOfD : List (String × String) :=
  [(": d create , does> @ ; 5", "c"),
   (": d create forget does> @ ;", "c c"),
   (": d create host-interrupt does> @ ;", "c")]

/-- A machine that runs `d` and is at its `does>`. -/
def atDoes (d : String × String) : Machine :=
  (goesTo? 4 ((definedD d.1 d.2).startRun ⟨25⟩ .outside)).getD default

theorem ofNames_definedD :
    ofNames {} [":", ";", "create", "forget", ",", "does>", "(does>)", "@"] = stocked {} (supply
      [⟨"@", .memory .load, false⟩, ⟨",", .memory .comma, false⟩, ⟨"create", .memory .create, false⟩,
        ⟨"does>", .memory .does, true⟩, ⟨"(does>)", .memory .doesRuntime, false⟩,
        ⟨":", .defining .colon, false⟩, ⟨";", .defining .semicolon, true⟩,
        ⟨"forget", .defining .forget, false⟩]) :=
  ofNames_eq _ _ (by decide) (by decide)

theorem definitionsOfD_spec : ∀ d ∈ definitionsOfD,
    (processLine 64 (after (fill d.1 ((ofNames {} [":", ";", "create", "forget", ",", "does>", "(does>)",
      "@"]).installAll [⟨"host-interrupt", .host .interrupt, false⟩])))).isSome = true ∧
    (definedD d.1 d.2).find? "d" = some ⟨25⟩ ∧
    ((definedD d.1 d.2).frames = [] ∧ (definedD d.1 d.2).runs = []) ∧
    (goesTo? 4 ((definedD d.1 d.2).startRun ⟨25⟩ .outside)).isSome = true ∧
    ((atDoes d).frames = [⟨⟨25⟩, 3⟩] ∧ (atDoes d).runs = [⟨0, .outside⟩]) ∧
    ((atDoes d).heap.word ⟨25⟩).code = .ok .docol ∧
    (((atDoes d).heap.word ⟨25⟩).body[3]? = some (.call ⟨4⟩) ∧
      ((atDoes d).heap.word ⟨4⟩).code = .ok (.native (.memory .doesRuntime))) ∧
    ((definedD d.1 d.2).heap.words.size = 26 ∧ (atDoes d).heap.words.size = 27) := by
  simp only [atDoes, definedD, ofNames_definedD]
  decide +kernel

theorem makes_of_d {d : String × String} (hd : d ∈ definitionsOfD) :
    Reached (.word none) ((definedD d.1 d.2).startRun ⟨25⟩ .outside) ∧
      Makes ⟨25⟩ ⟨26⟩ 3 [] [⟨0, .outside⟩] ((definedD d.1 d.2).startRun ⟨25⟩ .outside) (atDoes d) := by
  obtain ⟨hline, hfind, ⟨hframes, hruns⟩, hgoes, ⟨hf, hr⟩, hcode, hdoes, hbefore, hafter⟩ :=
    definitionsOfD_spec d hd
  have hbase : Reached .rest ((ofNames {} [":", ";", "create", "forget", ",", "does>", "(does>)",
      "@"]).installAll [⟨"host-interrupt", .host .interrupt, false⟩]) := by
    rw [ofNames]
    exact (Reached.create _ _).add _
  have hreached : Reached .rest (definedD d.1 d.2) := (hbase.afterLine hline).fill d.2
  obtain ⟨x, hx⟩ := Option.isSome_iff_exists.1 hgoes
  have hat : atDoes d = x := by rw [atDoes, hx]; rfl
  refine ⟨hreached.run hfind, ⟨?_, ?_⟩, ⟨_, _, rfl, Nat.le_refl 0⟩, ⟨4, ?_⟩, ⟨hf, hr⟩, hcode, ⟨_, hdoes⟩, ?_, ?_⟩
  · show _ :: (definedD d.1 d.2).frames = _
    rw [hframes]
  · show ⟨(definedD d.1 d.2).frames.length, _⟩ :: (definedD d.1 d.2).runs = _
    rw [hframes, hruns]
    rfl
  · rw [hat]
    exact goes_of_goesTo? hx
  · show _ = (⟨(definedD d.1 d.2).heap.words.size⟩ : WordId)
    rw [hbefore]
  · show _ = (definedD d.1 d.2).heap.words.size + 1
    rw [hafter, hbefore]

/-- The word `c`, which is given the rest of `d` as its action and can be called then. -/
theorem does_gives_action_of_d : ∃ (s x : Machine) (w c : WordId) (pos : Nat) (rest : List Frame)
    (rs : List Run), Reached (.word none) s ∧ Defines w c pos rest rs s x ∧
      ∃ g, Goes 2 x (x.taught c w (pos + 1) rest g) ∧
        (∃ z, Spares c (.word none) (x.taught c w (pos + 1) rest g) (.word none) z ∧
          z.frames = [⟨c, 1⟩] ∧ z.step = .running (z.acting c w (pos + 1) [])) ∧
        (∀ left?' z, Spares c (.word none) (x.taught c w (pos + 1) rest g) (.word left?') z →
          Acts c w (pos + 1) s z) ∧
        ∀ ph z, Leads (.word none) (x.taught c w (pos + 1) rest g) ph z → Secludes c ph z := by
  obtain ⟨hs, hm⟩ := makes_of_d (d := (": d create , does> @ ; 5", "c")) (by decide)
  have hspec : ((atDoes (": d create , does> @ ; 5", "c")).heap.isAlive
        (atDoes (": d create , does> @ ; 5", "c")).roots ⟨26⟩ = true ∧
      (atDoes (": d create , does> @ ; 5", "c")).interrupt = false) ∧
      ((atDoes (": d create , does> @ ; 5", "c")).taught ⟨26⟩ ⟨25⟩ 4 [] {}).find? "c" = some ⟨26⟩ ∧
      (((atDoes (": d create , does> @ ; 5", "c")).taught ⟨26⟩ ⟨25⟩ 4 [] {}).heap.word ⟨25⟩).code =
        .ok .docol ∧
      (atDoes (": d create , does> @ ; 5", "c")).data.depth <
        (atDoes (": d create , does> @ ; 5", "c")).data.capacity := by
    rw [atDoes, definedD, ofNames_definedD]
    decide +kernel
  obtain ⟨⟨halive, hcalm⟩, hfind, hcode, hroom⟩ := hspec
  generalize atDoes (": d create , does> @ ; 5", "c") = x at *
  obtain ⟨g, hgoes, hacts, hsecludes⟩ := does_gives_action hs ⟨hm, halive, hcalm⟩
  generalize hy : x.taught ⟨26⟩ ⟨25⟩ (3 + 1) [] g = y at *
  have hback : CameBack [] [⟨0, .outside⟩] y := by
    subst hy
    exact ⟨rfl, hm.stands.runs, hcalm⟩
  have hfind' : Machine.find? { y with runs := [] } "c" = some ⟨26⟩ := by
    subst hy
    exact hfind
  have hidle : ¬ ActsOn (.word none) y ⟨26⟩ := by
    rintro ⟨hp, -⟩
    rw [primitive?, hback.runs, hback.frames] at hp
    cases hp
  have hz : Spares ⟨26⟩ (.word none) y (.word none) (Machine.startRun { y with runs := [] } ⟨26⟩ .outside) :=
    ((Spares.refl _ _).tail hidle (.ended hback.ended)).tail id (.run hfind')
  have hframes : (Machine.startRun { y with runs := [] } ⟨26⟩ .outside).frames = [⟨⟨26⟩, 1⟩] := by
    show _ :: y.frames = _
    rw [hback.frames]
  have hcovers : Covers (Machine.startRun { y with runs := [] } ⟨26⟩ .outside).runs [] :=
    ⟨_, _, rfl, Nat.le_of_eq (congrArg List.length hback.frames)⟩
  refine ⟨_, x, _, _, _, _, _, hs, ⟨hm, halive, hcalm⟩, g, hy ▸ hgoes, ?_, hy ▸ hacts, hy ▸ hsecludes⟩
  rw [hy]
  refine ⟨_, hz, hframes, (hacts _ _ hz _ hframes hcovers hback.calm ?_ ?_).1⟩
  · subst hy
    exact hroom
  · subst hy
    exact hcode

/-- A word that is forgotten again before `does>` is reached gets no action, and neither does one that
    is made when an interrupt is due: the run fails. -/
theorem does_can_fail :
    (¬ ∀ (s x : Machine) (w c : WordId) (pos : Nat) (rest : List Frame) (rs : List Run),
      Reached (.word none) s → Makes w c pos rest rs s x → x.interrupt = false →
      ∃ n y, Goes n x y ∧ y.frames = rest) ∧
    ¬ ∀ (s x : Machine) (w c : WordId) (pos : Nat) (rest : List Frame) (rs : List Run),
      Reached (.word none) s → Makes w c pos rest rs s x → x.heap.isAlive x.roots c = true →
      ∃ n y, Goes n x y ∧ y.frames = rest := by
  have hspec : ((atDoes (": d create forget does> @ ;", "c c")).interrupt = false ∧
        passes (fun m => !m.frames.isEmpty) 4 (atDoes (": d create forget does> @ ;", "c c")) = true) ∧
      ((atDoes (": d create host-interrupt does> @ ;", "c")).heap.isAlive
        (atDoes (": d create host-interrupt does> @ ;", "c")).roots ⟨26⟩ = true ∧
        passes (fun m => !m.frames.isEmpty) 4 (atDoes (": d create host-interrupt does> @ ;", "c")) = true) := by
    simp only [atDoes, definedD, ofNames_definedD]
    decide +kernel
  obtain ⟨⟨hcalm, hdead⟩, halive, hbroken⟩ := hspec
  constructor
  · intro h
    obtain ⟨hs, hm⟩ := makes_of_d (d := (": d create forget does> @ ;", "c c")) (by decide)
    obtain ⟨n, y, hg, hy⟩ := h _ _ _ _ _ _ _ hs hm hcalm
    have := hg.of_passes hdead
    rw [hy] at this
    cases this
  · intro h
    obtain ⟨hs, hm⟩ := makes_of_d (d := (": d create host-interrupt does> @ ;", "c")) (by decide)
    obtain ⟨n, y, hg, hy⟩ := h _ _ _ _ _ _ _ hs hm halive
    have := hg.of_passes hbroken
    rw [hy] at this
    cases this

end Machine
end ThreadedForth
