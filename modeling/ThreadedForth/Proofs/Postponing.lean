/-
  Postponed words, and what they do in place of the words that they stand for.
-/
import ThreadedForth.Proofs.LineBreaks
import ThreadedForth.Proofs.Ownership
import ThreadedForth.Proofs.SingleCalls

namespace ThreadedForth

/-! ## Immediate primitives -/

/-- Whether a primitive belongs to those that make definitions: it reads the line or compiles. -/
def Primitive.makesDefinitions : Primitive → Bool
  | control _ | memory .does => true
  | defining w => w ≠ .execute
  | _ => false

theorem Primitive.goes_on_of_makesDefinitions {p : Primitive} (hp : p.makesDefinitions = true) :
    p.actsOnCaller = false ∧ Yields (· = .next) p.run ∧ p ≠ .host .interrupt := by
  cases p with
  | control w => exact ⟨rfl, .bind fun _ => .pure rfl, nofun⟩
  | memory w =>
    cases w with
    | does =>
      refine ⟨rfl, .bind fun mode => ?_, nofun⟩
      cases mode with
      | interpreting => exact .bind fun _ => .bind fun _ => .pure rfl
      | _ => exact .bind fun _ => .pure rfl
    | _ => cases hp
  | defining w =>
    cases w with
    | execute => cases hp
    | _ => exact ⟨rfl, .bind fun _ => .pure rfl, nofun⟩
  | _ => cases hp

/-- An immediate primitive of the vocabulary goes on when its work is done, and it leaves its callers
    alone. -/
theorem Builtin.goes_on_of_immediate {b : Builtin} (hb : b ∈ all ++ hostWords)
    (hi : b.immediate = true) :
    b.word.actsOnCaller = false ∧ Yields (· = .next) b.word.run ∧ b.word ≠ .host .interrupt := by
  have hall : ∀ b ∈ all ++ hostWords, b.immediate = true → b.word.makesDefinitions = true := by
    decide +kernel
  exact Primitive.goes_on_of_makesDefinitions (hall b hb hi)

namespace Machine

variable {w v u : WordId} {m m' : Machine} {ph ph' : Phase} {p : Primitive}

/-! ## Words of the past -/

/-- The word `v` is on the heap, and the word created last is not older. -/
structure NoneOlder (v : WordId) (m : Machine) : Prop where
  has : m.heap.Has (.word v)
  last : ∃ u, m.compiler.last? = some u ∧ v.index ≤ u.index

theorem lt_addWord {h : Heap} (hv : h.Has (.word v)) (x : Word) : v.index < (h.addWord x).1.index :=
  hv

theorem NoneOlder.kept (v : WordId) : KeptAlways (NoneOlder v) where
  same := by
    intro m m' h hwords hcompiler
    refine ⟨?_, hcompiler ▸ h.last⟩
    simpa only [Heap.Has, hwords] using h.has
  mode h _ _ := ⟨h.has, h.last⟩
  finish h := ⟨h.has, h.last⟩
  update h _ _ _ := ⟨Heap.has_setWord.2 h.has, h.last⟩
  start h name := ⟨h.has.mono (.addWord _ _), _, rfl, Nat.le_of_lt (lt_addWord h.has (.blank name))⟩
  define h x _ := ⟨h.has.mono (.addWord _ _), _, rfl, Nat.le_of_lt (lt_addWord h.has x)⟩
  add h _ := ⟨h.has.mono (.addWord _ _), h.last⟩

/-- **Older words keep their code.**  Only the word created last gets another one. -/
theorem NoneOlder.code_leads (hv : NoneOlder v m) (h : Reached ph m) (hw : w.index < v.index)
    (hl : Leads ph m ph' m') {c : Code} (hc : (m.heap.word w).code = .ok c) :
    (m'.heap.word w).code = .ok c := by
  induction hl with
  | refl => exact hc
  | @tail ph₁ ph₂ _ m₁ m₂ hl hn ih =>
    have hv₁ : NoneOlder v m₁ := (NoneOlder.kept v).leads hv hl
    have hhas : m₁.heap.Has (.word w) := Nat.lt_trans hw hv₁.has
    have hc₁ := ih hv h hc
    rw [Word.code_eq_ok_iff] at hc₁ ⊢
    rcases (hn.follows (h.leads hl) hhas).1.code with hsame | ⟨_, _, hx, -⟩
    · exact hsame.trans hc₁
    · obtain ⟨u, hu, hle⟩ := hv₁.last
      cases hu.symm.trans (Edits.actsOn hx).last?_eq
      omega

/-- The word `v` is immediate and closed: as soon as the compiler works on a word again, it is a later
    one, and one that is created later is the last one. -/
structure Settled (v : WordId) (m : Machine) : Prop where
  has : m.heap.Has (.word v)
  immediate : (m.heap.word v).immediate = true
  building : ∀ u, m.compiler.building? = some u → v.index < u.index
  later : m.compiler.mode = .compiling ∨ m.compiler.mode = .compilingPostponed ∨
    m.compiler.building? ≠ none → ∃ u, m.compiler.last? = some u ∧ v.index < u.index

theorem Settled.addWord (h : Settled v m) (x : Word) :
    (m.heap.addWord x).2.Has (.word v) ∧ ((m.heap.addWord x).2.word v).immediate = true :=
  ⟨h.has.mono (.addWord _ _), by rw [Heap.word_addWord_of_has h.has]; exact h.immediate⟩

theorem Settled.kept (v : WordId) : KeptAlways (Settled v) where
  same := by
    intro m m' h hwords hcompiler
    refine ⟨?_, ?_, hcompiler ▸ h.building, hcompiler ▸ h.later⟩
    · simpa only [Heap.Has, hwords] using h.has
    · simpa only [Heap.word, hwords] using h.immediate
  mode := by
    intro m h mode hmode
    refine ⟨h.has, h.immediate, h.building, fun hnow => ?_⟩
    have hidle : mode = .interpreting ∨ mode = .runtimeCompiling → m.compiler.building? ≠ none := by
      intro hidle
      rcases hnow with h₁ | h₁ | h₁
      · cases hidle.imp h₁.symm.trans h₁.symm.trans with
        | inl h => cases h
        | inr h => cases h
      · cases hidle.imp h₁.symm.trans h₁.symm.trans with
        | inl h => cases h
        | inr h => cases h
      · exact h₁
    rcases hmode with hm | hm | hm | hm | hb
    · exact h.later (.inr (.inr (hidle (.inl hm))))
    · exact h.later (.inr (.inr (hidle (.inr hm))))
    · exact h.later (.inl hm)
    · exact h.later (.inr (.inl hm))
    · exact h.later (.inr (.inr hb))
  finish := by
    intro m h
    refine ⟨h.has, h.immediate, fun u hu => ?_, fun hnow => h.later (hnow.imp_right fun hn => ?_)⟩
    · cases hu
    · exact hn.imp_right fun hne => absurd rfl hne
  update := by
    intro m h u f hf
    refine ⟨Heap.has_setWord.2 h.has, ?_, h.building, h.later⟩
    show ((m.heap.updateWord u f).word v).immediate = true
    rw [Heap.word_updateWord]
    split
    · rename_i hv
      exact (hf _).2.2 (hv.1 ▸ h.immediate)
    · exact h.immediate
  start := by
    intro m h name
    obtain ⟨hh, hi⟩ := h.addWord (.blank name)
    refine ⟨hh, hi, fun u hu => ?_, fun _ => ⟨_, rfl, lt_addWord h.has (.blank name)⟩⟩
    cases hu
    exact lt_addWord h.has (.blank name)
  define h x _ :=
    ⟨(h.addWord x).1, (h.addWord x).2, h.building, fun _ => ⟨_, rfl, lt_addWord h.has x⟩⟩
  add h x := ⟨(h.addWord x).1, (h.addWord x).2, h.building, h.later⟩

/-! ## The definition -/

/-- The next token of the line runs a word that is the primitive `p`, and the machine `m'` comes of it. -/
def Runs (p : Primitive) (m m' : Machine) : Prop :=
  ∃ m₁ t u fuel, nextSourceToken m = .ok (some t) m₁ ∧ m₁.wordToRun? t = some u ∧
    (m₁.heap.word u).code = .ok (.native p) ∧ m₁.execute fuel u = some (.ok () m')

/-- A word that came with the machine as a primitive, or a composed word. -/
def IsUsual (m : Machine) (w : WordId) : Prop :=
  (∃ b ∈ Builtin.all ++ Builtin.hostWords, (m.heap.word w).code = .ok (.native b.word) ∧
    (m.heap.word w).immediate = b.immediate) ∨ (m.heap.word w).code = .ok .docol

/-- The tokens `: v postpone w ; immediate` lead from one machine to the other, and the names of the
    words that postponed words are compiled with are not shadowed. -/
def Postpones (w v : WordId) (m m' : Machine) : Prop :=
  ∃ a b b₁ t c d, Runs (.defining .colon) m a ∧ a.compiler.building? = some v ∧
    Runs (.defining .postpone) a b ∧
    nextSourceToken b = .ok (some t) b₁ ∧ b₁.find? t = some w ∧ b₁.IsUsual w ∧
    (∃ l, b₁.find? "(literal)" = some l ∧
      (b₁.heap.word l).code = .ok (.native (.branch .inlineLiteral))) ∧
    (∃ c, b₁.find? "compile," = some c ∧
      (b₁.heap.word c).code = .ok (.native (.defining .compileComma))) ∧
    compileToken t b₁ = .ok () c ∧
    Runs (.defining .semicolon) c d ∧ Runs (.defining .immediate) d m'

/-- A primitive that goes on, run from a token. -/
theorem run_of_execute (hc : (m.heap.word u).code = .ok (.native p)) (hi : m.interrupt = false)
    (hb : Blind p.run) (hflow : Yields (· = .next) p.run) {fuel : Nat}
    (he : m.execute fuel u = some (.ok () m')) : p.run m = .ok .next m' := by
  have hmore := steps_mono he (Nat.le_add_right fuel 2)
  have hrun := (execute_blind hb hflow hc hi fuel).symm.trans hmore
  cases hr : p.run m with
  | error e x =>
    rw [hr] at hrun
    cases hrun
  | ok flow x =>
    rw [hr] at hrun
    cases hrun
    cases hflow _ _ _ hr
    rfl

theorem nextSourceToken_calm {t? : Option String} (h : nextSourceToken m = .ok t? m') :
    m'.interrupt = false ∧ m'.owned = m.owned := by
  refine ⟨?_, by simpa only [h, after_ok] using nextSourceToken_owned m⟩
  cases hq : m.interrupt with
  | true =>
    rw [nextSourceToken_interrupted hq] at h
    cases h
  | false =>
    cases hc : m.inComment with
    | false =>
      rw [nextSourceToken_quiet hq hc] at h
      cases h
      exact hq
    | true =>
      rw [nextSourceToken_comment hq hc] at h
      split at h <;> cases h <;> exact hq

theorem Runs.of_blind (h : Runs p m m') (hb : Blind p.run) (hflow : Yields (· = .next) p.run) :
    ∃ m₁, m₁.owned = m.owned ∧ p.run m₁ = .ok .next m' := by
  obtain ⟨m₁, t, u, fuel, ht, -, hc, he⟩ := h
  obtain ⟨hi, ho⟩ := nextSourceToken_calm ht
  exact ⟨m₁, ho, run_of_execute hc hi hb hflow he⟩

theorem act_of_run {d : DefiningWord} {flow : Flow} (hd : d ≠ .execute)
    (h : (Primitive.defining d).run m = .ok flow m') : d.act m = .ok () m' := by
  have hrun : (Primitive.defining d).run m = (d.act >>= fun _ => pure .next : M Flow) m := by
    cases d with
    | execute => exact absurd rfl hd
    | _ => rfl
  obtain ⟨_, y, hact, hnext⟩ := M.of_bind_ok (x := d.act) (f := fun _ => pure Flow.next)
    (hrun.symm.trans h)
  cases hnext
  exact hact

/-- `:` opens a definition. -/
theorem Runs.colon (h : Runs (.defining .colon) m m') :
    ∃ name, m'.heap = (m.heap.addWord (.opened name)).2 ∧ m'.compiler =
      ⟨.compiling, some ⟨m.heap.words.size⟩, some ⟨m.heap.words.size⟩, m.data.depth⟩ := by
  obtain ⟨x, ho, hr⟩ := h.of_blind (Primitive.run_blind _ rfl rfl) (.bind fun _ => .pure rfl)
  obtain ⟨name, z, hname, hopen⟩ :=
    M.of_bind_ok (x := M.nextName ":") (f := DefiningWord.openDefinition)
      (act_of_run (d := .colon) nofun hr)
  have hz : z.owned = x.owned := by
    obtain ⟨t?, z', ht, hz'⟩ := M.of_bind_ok (x := M.nextToken) hname
    cases ht
    cases hl : x.line.advance.token? with
    | none =>
      rw [hl] at hz'
      cases hz'
    | some t =>
      rw [hl] at hz'
      cases hz'
      rfl
  rw [ho] at hz
  have hheap : z.heap = m.heap := congrArg Owned.heap hz
  have hdata : z.data = m.data := congrArg Owned.data hz
  by_cases hm : z.compiler.mode = .interpreting
  · rw [DefiningWord.openDefinition_eq name hm] at hopen
    cases hopen
    rw [← hheap, ← hdata]
    exact ⟨name, rfl, rfl⟩
  · rw [DefiningWord.openDefinition_error name hm] at hopen
    cases hopen

theorem requireCompiling_inv {word : String} (h : M.requireCompiling word m = .ok () m') :
    m.compiler.mode = .compiling ∧ m' = m := by
  obtain ⟨mode, x, hm, hreq⟩ := M.of_bind_ok (x := M.mode) h
  cases hm
  split at hreq
  · cases hreq
    exact ⟨‹_›, rfl⟩
  · cases hreq

/-- `postpone` makes the next token a postponed one. -/
theorem Runs.postpone (h : Runs (.defining .postpone) m m') :
    m'.heap = m.heap ∧ m'.compiler = { m.compiler with mode := .compilingPostponed } := by
  obtain ⟨x, ho, hr⟩ := h.of_blind (Primitive.run_blind _ rfl rfl) (.bind fun _ => .pure rfl)
  obtain ⟨_, z, hreq, hmode⟩ :=
    M.of_bind_ok (x := M.requireCompiling "postpone") (act_of_run (d := .postpone) nofun hr)
  obtain ⟨-, rfl⟩ := requireCompiling_inv hreq
  cases hmode
  exact ⟨congrArg Owned.heap ho, congrArg (fun o : Owned => { o.compiler with mode := .compilingPostponed }) ho⟩

/-- `;` closes the definition. -/
theorem Runs.semicolon (h : Runs (.defining .semicolon) m m') :
    m'.compiler = { m.compiler with mode := .interpreting, building? := none } ∧
      m'.heap.words.size = m.heap.words.size ∧
      ∀ u, (m'.heap.word u).body = (m.heap.word u).body := by
  obtain ⟨x, ho, hr⟩ := h.of_blind (Primitive.run_blind _ rfl rfl) (.bind fun _ => .pure rfl)
  have hheap : x.heap = m.heap := congrArg Owned.heap ho
  have hcompiler : x.compiler = m.compiler := congrArg Owned.compiler ho
  obtain ⟨_, z, hreq, hrest⟩ := M.of_bind_ok (x := M.requireCompiling ";")
    (act_of_run (d := .semicolon) nofun hr)
  obtain ⟨-, rfl⟩ := requireCompiling_inv hreq
  obtain ⟨_, y, hreveal, hmode⟩ := M.of_bind_ok (x := DefiningWord.reveal) hrest
  cases hmode
  have hunhide : ∀ w : WordId, (z.heap.updateWord w fun u => { u with hidden := false }).words.size =
        m.heap.words.size ∧
      ∀ u, ((z.heap.updateWord w fun u => { u with hidden := false }).word u).body =
        (m.heap.word u).body := by
    intro w
    rw [hheap]
    refine ⟨by simp [Heap.updateWord, Heap.setWord], fun u => ?_⟩
    rw [Heap.word_updateWord]
    split
    · rename_i hu
      rw [hu.1]
    · rfl
  rw [DefiningWord.reveal_eq] at hreveal
  split at hreveal
  · cases hreveal
  · split at hreveal
    · cases hreveal
    · rename_i w _
      obtain ⟨hsize, hbody⟩ := hunhide w
      split at hreveal
      · unfold M.push at hreveal
        split at hreveal
        · cases hreveal
          exact ⟨by rw [← hcompiler], hsize, hbody⟩
        · cases hreveal
      · cases hreveal
        exact ⟨by rw [← hcompiler]; rfl, hsize, hbody⟩

/-- `immediate` makes the word created last immediate. -/
theorem Runs.immediate (h : Runs (.defining .immediate) m m') :
    ∃ u, m.compiler.last? = some u ∧ m'.compiler = m.compiler ∧
      m'.heap = m.heap.updateWord u fun x => { x with immediate := true } := by
  obtain ⟨m₁, t, u, fuel, ht, -, hc, he⟩ := h
  obtain ⟨hi, ho⟩ := nextSourceToken_calm ht
  have hheap : m₁.heap = m.heap := congrArg Owned.heap ho
  have hcompiler : m₁.compiler = m.compiler := congrArg Owned.compiler ho
  have hrun : (Primitive.defining .immediate).run (m₁.startRun u .outside) =
      (DefiningWord.act .immediate >>= fun _ => pure Flow.next) (m₁.startRun u .outside) := rfl
  cases hl : m₁.compiler.last m₁.heap ([] ++ (m₁.startRun u .outside).roots) with
  | error e =>
    have hlast : M.last (m₁.startRun u .outside) = .error e (m₁.startRun u .outside) := by
      show M.lift (m₁.compiler.last m₁.heap ([] ++ (m₁.startRun u .outside).roots)) _ = _
      rw [hl]
      rfl
    rw [M.bind_error (x := DefiningWord.act .immediate) (M.bind_error hlast)] at hrun
    cases steps_unique he (execute_native_error hc hi hrun rfl 0)
  | ok w =>
    have hlast : M.last (m₁.startRun u .outside) = .ok w (m₁.startRun u .outside) := by
      show M.lift (m₁.compiler.last m₁.heap ([] ++ (m₁.startRun u .outside).roots)) _ = _
      rw [hl]
      rfl
    rw [M.bind_ok (x := DefiningWord.act .immediate) (M.bind_ok hlast)] at hrun
    cases steps_unique he (execute_native hc hi hrun rfl rfl 0)
    rw [← hheap, ← hcompiler]
    exact ⟨w, Compiler.last?_of_last hl, rfl, rfl⟩

theorem find?_setBody (m : Machine) (w : WordId) (body : Array Elem) (name : String) :
    (m.setBody w body).find? name = m.find? name := by
  have hhidden : ∀ u, ((m.setBody w body).heap.word u).hidden = (m.heap.word u).hidden := by
    intro u
    show ((m.heap.updateWord w _).word u).hidden = _
    rw [Heap.word_updateWord]
    split
    · rename_i hu
      rw [hu.1]
    · rfl
  show ((m.dictionary.lookup? _).filter _) = ((m.dictionary.lookup? _).filter _)
  simp only [hhidden]

/-- What compiles the word `w`: a call of it, or the code that compiles a call of it. -/
def standIn (immediate : Bool) (w l c : WordId) : List Elem :=
  if immediate then [.direct .docol, .call w]
  else [.direct .docol, .call l, .lit (.xt w), .call c]

/-- The word `v` is under construction and has the body `es`. -/
structure Drafts (v : WordId) (es : Array Elem) (m : Machine) : Prop where
  building : m.compiler.building? = some v
  body : (m.heap.word v).body = es
  size : 1 ≤ es.size

variable {es : Array Elem}

theorem Drafts.compile (h : m.Drafts v es) {e : Elem} (he : e.isDirect = false) :
    M.compile e m = .ok () (m.setBody v (es.push e)) ∧ (m.setBody v (es.push e)).Drafts v (es.push e) := by
  have hsize : 1 ≤ (m.heap.word v).size := by
    rw [Word.size, h.body]
    exact h.size
  have hhas : v.index < m.heap.words.size := by
    refine Nat.lt_of_not_le fun hv => ?_
    simp [Heap.word, hv, Word.size, Word.blank, default] at hsize
  have hpush : (m.heap.word v).push e = .ok { m.heap.word v with body := es.push e } := by
    rw [Word.push_ok hsize he, h.body]
  refine ⟨?_, h.building, ?_, by simp⟩
  · show M.setHeap (m.compiler.push m.heap e) m = _
    simp only [Compiler.push, Compiler.building, h.building, Bind.bind, Except.bind, Heap.changeWord,
      hpush]
    rfl
  · rw [word_setBody, if_pos ⟨rfl, hhas⟩]

theorem compileBuiltin_eq {name : String} (hu : m.find? name = some u) :
    M.compileBuiltin name m = M.compile (.call u) m :=
  M.bind_ok (M.builtin_ok hu)

/-- A postponed word in a definition that is still empty. -/
theorem postponed_body {t : String} {l c : WordId} (hm : m.compiler.mode = .compilingPostponed)
    (hv : m.Drafts v #[.direct .docol]) (ht : m.find? t = some w)
    (hl : m.find? "(literal)" = some l) (hc : m.find? "compile," = some c)
    (hr : compileToken t m = .ok () m') :
    (m'.heap.word v).body.toList = standIn (m.heap.word w).immediate w l c ∧
      m'.compiler = { m.compiler with mode := .compiling } ∧
      m'.heap.words.size = m.heap.words.size := by
  generalize hx : ({ m with compiler := { m.compiler with mode := .compiling } } : Machine) = x
  have hxv : x.Drafts v #[.direct .docol] := hx ▸ ⟨hv.building, hv.body, hv.size⟩
  have hfind : ∀ name, x.find? name = m.find? name := fun name => hx ▸ rfl
  have hcompile : compileToken t m = compilePostponed w x := by
    unfold compileToken
    rw [ht]
    simp only [hm]
    rw [← hx]
    rfl
  have hflag : (x.heap.word w).immediate = (m.heap.word w).immediate := hx ▸ rfl
  have hsetBody : ∀ (y : Machine) bs, (y.setBody v bs).heap.words.size = y.heap.words.size :=
    fun y bs => by simp [setBody, Heap.updateWord, Heap.setWord]
  have hxsize : x.heap.words.size = m.heap.words.size := hx ▸ rfl
  have hxc : x.compiler = { m.compiler with mode := .compiling } := hx ▸ rfl
  rw [hcompile] at hr
  have hr : (if (x.heap.word w).immediate = true then M.compile (.call w)
    else M.compileLiteral (.xt w) >>= fun _ => M.compileBuiltin "compile,") x = .ok () m' := hr
  rw [hflag] at hr
  cases hi : (m.heap.word w).immediate with
  | true =>
    rw [hi, if_pos rfl] at hr
    obtain ⟨h₁, hd₁⟩ := hxv.compile (e := .call w) rfl
    cases h₁.symm.trans hr
    exact ⟨by rw [hd₁.body]; rfl, hxc, (hsetBody _ _).trans hxsize⟩
  | false =>
    rw [hi, if_neg (by simp)] at hr
    obtain ⟨h₁, hd₁⟩ := hxv.compile (e := .call l) rfl
    obtain ⟨h₂, hd₂⟩ := hd₁.compile (e := .lit (.xt w)) rfl
    obtain ⟨h₃, hd₃⟩ := hd₂.compile (e := .call c) rfl
    have hlit : M.compileLiteral (.xt w) x = .ok () _ :=
      (M.bind_ok ((compileBuiltin_eq ((hfind _).trans hl)).trans h₁)).trans h₂
    rw [M.bind_ok hlit, compileBuiltin_eq (by rw [find?_setBody, find?_setBody, hfind, hc]), h₃] at hr
    cases hr
    exact ⟨by rw [hd₃.body]; rfl, hxc,
      (hsetBody _ _).trans ((hsetBody _ _).trans ((hsetBody _ _).trans hxsize))⟩

theorem Runs.leads {ph₀ : Phase} {m₀ : Machine} {n : Nat} (h : Runs p m m')
    (hl : Leads ph₀ m₀ (.line (n + 1)) m) : Leads ph₀ m₀ (.line n) m' := by
  obtain ⟨m₁, t, u, fuel, ht, hu, -, he⟩ := h
  have hr : interpretToken fuel t m₁ = some (.ok () m') := by
    rw [interpretToken_eq, hu]
    exact he
  exact hl.interpretToken ht hr

/-- What the definition leaves behind. -/
structure Defined (w v l c : WordId) (m b m' : Machine) : Prop where
  /-- The words that the code uses are older. -/
  older : w.index < v.index ∧ l.index < v.index ∧ c.index < v.index
  usual : b.IsUsual w
  flag : (b.heap.word w).immediate = (m.heap.word w).immediate
  literal : (b.heap.word l).code = .ok (.native (.branch .inlineLiteral))
  compiles : (b.heap.word c).code = .ok (.native (.defining .compileComma))
  body : (m'.heap.word v).body.toList = standIn (m.heap.word w).immediate w l c
  newest : NoneOlder v b
  settled : Settled v m'

theorem Postpones.spec (h : Postpones w v m m') {n : Nat} (hr : Reached (.line (n + 5)) m) :
    ∃ b l c, Reached (.line (n + 3)) b ∧ Leads (.line (n + 3)) b (.line n) m' ∧
      Defined w v l c m b m' := by
  obtain ⟨a, b, b₁, t, c₀, d, hcolon, hbuild, hpostpone, ht, hw, husual, ⟨l, hl, hlit⟩,
    ⟨c, hc, hcomp⟩, htoken, hsemi, himm⟩ := h
  have hreached : Reached (.line (n + 3)) b :=
    hr.leads (hpostpone.leads (hcolon.leads (.refl _ _)))
  obtain ⟨name, haheap, hacomp⟩ := hcolon.colon
  obtain ⟨hbheap, hbcomp⟩ := hpostpone.postpone
  obtain ⟨-, hb₁⟩ := nextSourceToken_calm ht
  have hheap : b₁.heap = (m.heap.addWord (.opened name)).2 :=
    (congrArg Owned.heap hb₁).trans (hbheap.trans haheap)
  have hcompiler : b₁.compiler = ⟨.compilingPostponed, some ⟨m.heap.words.size⟩,
      some ⟨m.heap.words.size⟩, m.data.depth⟩ := by
    rw [show b₁.compiler = b.compiler from congrArg Owned.compiler hb₁, hbcomp, hacomp]
  obtain rfl : ⟨m.heap.words.size⟩ = v := by
    rw [hacomp] at hbuild
    exact Option.some.inj hbuild
  have hdrafts : b₁.Drafts ⟨m.heap.words.size⟩ #[.direct .docol] := by
    refine ⟨by rw [hcompiler], ?_, Nat.le_refl 1⟩
    rw [hheap, show (⟨m.heap.words.size⟩ : WordId) = (m.heap.addWord (.opened name)).1 from rfl,
      Heap.word_addWord]
    rfl
  obtain ⟨hbody, hc₀comp, hc₀size⟩ := postponed_body (by rw [hcompiler]) hdrafts hw hl hc htoken
  obtain ⟨hdcomp, hdsize, hdbody⟩ := hsemi.semicolon
  obtain ⟨u, hlast, hm'comp, hm'heap⟩ := himm.immediate
  -- The word created last is the new one all along.
  obtain rfl : ⟨m.heap.words.size⟩ = u := by
    rw [hdcomp, hc₀comp, hcompiler] at hlast
    exact Option.some.inj hlast
  have hsame : b₁.heap = b.heap := congrArg Owned.heap hb₁
  have hsize : b₁.heap.words.size = m.heap.words.size + 1 := by
    rw [hheap]
    exact Array.size_push _
  have hdhas : m.heap.words.size < d.heap.words.size := by omega
  have hleads : Leads (.line (n + 3)) b (.line n) m' := by
    have hnone : b₁.wordToRun? t = none := by simp [wordToRun?, hw, hcompiler, Option.filter]
    exact himm.leads (hsemi.leads (.tail (.refl _ _) (.compile ht hnone htoken)))
  have holder : ∀ {name' : String} {x : WordId}, b₁.find? name' = some x → x.index < m.heap.words.size := by
    intro name' x hx
    have hlt := has_of_find? hx
    have hvisible := (Option.filter_eq_some_iff.1 hx).2
    refine Nat.lt_of_le_of_ne (by omega) fun he => ?_
    obtain rfl : x = (m.heap.addWord (.opened name)).1 := congrArg WordId.mk he
    rw [hheap, Heap.word_addWord] at hvisible
    cases hvisible
  have hflag : (b₁.heap.word w).immediate = (m.heap.word w).immediate := by
    rw [hheap, Heap.word_addWord_of_ne]
    rintro rfl
    exact Nat.lt_irrefl _ (holder hw)
  have hword : (m'.heap.word ⟨m.heap.words.size⟩).body = (d.heap.word ⟨m.heap.words.size⟩).body ∧
      (m'.heap.word ⟨m.heap.words.size⟩).immediate = true := by
    rw [hm'heap, Heap.word_updateWord, if_pos ⟨rfl, hdhas⟩]
    exact ⟨rfl, rfl⟩
  refine ⟨b, l, c, hreached, hleads, ⟨holder hw, holder hl, holder hc⟩, ?_, ?_, ?_, ?_, ?_, ?_, ?_⟩
  · rwa [IsUsual, ← hsame]
  · rw [← hsame, hflag]
  · rw [← hsame, hlit]
  · rw [← hsame, hcomp]
  · rw [hword.1, hdbody, hbody, hflag]
  · refine ⟨?_, _, by rw [hbcomp, hacomp], Nat.le_refl _⟩
    rw [← hsame]
    show m.heap.words.size < b₁.heap.words.size
    omega
  · have hcomp' : m'.compiler =
        { b₁.compiler with mode := .interpreting, building? := none } := by
      rw [hm'comp, hdcomp, hc₀comp]
    refine ⟨?_, hword.2, fun u hu => ?_, fun hnow => ?_⟩
    · rw [hm'heap]
      exact Heap.has_setWord.2 hdhas
    · rw [hcomp'] at hu
      cases hu
    · rw [hcomp'] at hnow
      rcases hnow with h | h | h
      · cases h
      · cases h
      · exact absurd rfl h

/-! ## In a later state -/

/-- In the middle of a line, the word `v` stands for the word `w`: a definition that postpones `w` has
    made it, its code is still the one of that definition, and `w` is immediate if it was then. -/
def Postponed (left : Nat) (s : Machine) (w v : WordId) : Prop :=
  ∃ n m m', Reached (.line (n + 5)) m ∧ Postpones w v m m' ∧ Leads (.line n) m' (.line left) s ∧
    (s.heap.word v).body = (m'.heap.word v).body ∧
    (s.heap.word w).immediate = (m.heap.word w).immediate

/-- A primitive in the code of a word does what it does from a token. -/
theorem blind_goes {es : List Elem} {ip : Nat} {c : WordId} (h : Carries w es m)
    (hget : es[ip]? = some (.call c)) (hc : (m.heap.word c).code = .ok (.native p))
    (hb : Blind p.run) (hflow : Yields (· = .next) p.run) (d : Debugger) :
    match p.run m with
    | .ok _ y => ∃ d', Goes 2 (m.inside w ip d) (y.inside w (ip + 1) d')
    | .error e y => ∃ d', steps 2 (m.inside w ip d) = some (.error e { y with debugger := d' }) := by
  have hrun : ∀ d, p.run ((m.inside w (ip + 1) d).enter c) = alter
      (·.within ⟨⟨c, 1⟩ :: ⟨w, ip + 1⟩ :: m.frames, ⟨m.frames.length, .outside⟩ :: m.runs, d⟩) (p.run m) :=
    fun d => hb m ⟨⟨c, 1⟩ :: ⟨w, ip + 1⟩ :: m.frames, ⟨m.frames.length, .outside⟩ :: m.runs, d⟩
  have hctx := hb.context_eq m
  have hinside : ∀ (y : Machine) d, y.context = m.context →
      y.within ⟨⟨c, 1⟩ :: ⟨w, ip + 1⟩ :: m.frames, ⟨m.frames.length, .outside⟩ :: m.runs, d⟩ =
        (y.inside w (ip + 1) d).enter c := by
    intro y d hy
    have hframes : y.frames = m.frames := congrArg Context.frames hy
    have hruns : y.runs = m.runs := congrArg Context.runs hy
    simp only [within, inside, enter, hframes, hruns]
  cases hr : p.run m with
  | ok flow y =>
    rw [hr] at hctx
    cases hflow _ _ _ hr
    refine goes_native h hget hc d fun d => ?_
    rw [hrun, hr, ← hinside y d hctx]
    rfl
  | error e y =>
    rw [hr] at hctx
    have herror : ∀ d, p.run ((m.inside w (ip + 1) d).enter c) =
        .error e ((y.inside w (ip + 1) d).enter c) := by
      intro d
      rw [hrun, hr, ← hinside y d hctx]
      rfl
    exact steps_native h hget hc d herror

/-- Only the word under construction changes when a word is compiled. -/
theorem compileWord_inv (h : M.compileWord w m = .ok () m') :
    m'.interrupt = m.interrupt ∧
      ∀ v, m.compiler.building? ≠ some v → m'.heap.word v = m.heap.word v := by
  have h : M.setHeap (m.compiler.compileWord m.heap w) m = .ok () m' := h
  cases hc : m.compiler.compileWord m.heap w with
  | error e =>
    rw [hc] at h
    cases h
  | ok heap =>
    rw [hc] at h
    cases h
    refine ⟨rfl, fun v hv => ?_⟩
    show heap.word v = m.heap.word v
    unfold Compiler.compileWord Compiler.building at hc
    cases hb : m.compiler.building? with
    | none =>
      rw [hb] at hc
      cases hc
    | some b =>
      have hne : v ≠ b := fun he => hv (he ▸ hb)
      have hchange : ∀ {f : Word → Except Error Word}, m.heap.changeWord b f = .ok heap →
          heap.word v = m.heap.word v := by
        intro f hf
        unfold Heap.changeWord at hf
        split at hf
        · cases hf
          rw [Heap.word_setWord, if_neg fun hv => hne hv.1]
        · cases hf
      rw [hb] at hc
      simp only [Bind.bind, Except.bind] at hc
      split at hc
      · split at hc
        · cases hc
        · exact hchange hc
      · exact hchange hc

/-- Pointers are as they were when a word is started. -/
theorem Aimed.startRun (h : m.Aimed []) (ho : m'.owned = m.owned) (w : WordId) :
    (m'.startRun w .outside).Aimed [] := by
  have hheap : m'.heap = m.heap := congrArg Owned.heap ho
  have hdata : m'.data = m.data := congrArg Owned.data ho
  have htemp : m'.temp = m.temp := congrArg Owned.temp ho
  have hself : m'.self = m.self := congrArg Owned.self ho
  have hruns : m'.runs = m.runs := congrArg Owned.runs ho
  refine ⟨fun v hv => ?_, nofun⟩
  have hold : m.Occurs v → v.Aimed (m'.startRun w .outside).heap := by
    show m.Occurs v → v.Aimed m'.heap
    rw [hheap]
    exact h.occurs v
  cases hv with
  | data hv => exact hold (.data (hdata ▸ hv))
  | temp hv => exact hold (.temp (htemp ▸ hv))
  | self hv => exact hold (.self (hself ▸ hv))
  | pending hr hv =>
    rcases List.mem_cons.1 hr with rfl | hr
    · cases hv
    · exact hold (.pending (hruns ▸ hr) hv)
  | slot u hv => exact hold (.slot u (hheap ▸ hv))
  | item o hv => exact hold (.item o (hheap ▸ hv))

section Stand

variable {left : Nat} {s : Machine} {l c : WordId} {t : String}

/-- An immediate word that stands for another one calls it. -/
theorem Unheard.of_usual (hframes : s.frames = []) (hruns : s.runs = []) (hi : s.interrupt = false)
    (hw : s.IsUsual w) (himm : (s.heap.word w).immediate = true)
    (hfrozen : (s.heap.word w).code = .ok .docol → Frozen w (s.startRun w .outside)) : Unheard w s := by
  rcases hw with ⟨b, hb, hc, hflag⟩ | hc
  · obtain ⟨hacts, hflow, hquiet⟩ := Builtin.goes_on_of_immediate hb (hflag ▸ himm)
    exact .native hframes hruns hi hc hacts hflow hquiet
  · exact .composed hframes hruns (hfrozen hc)

/-- A word that is not immediate is compiled by the code that stands for it. -/
theorem execute_standIn (hroom : s.data.depth < s.data.capacity)
    (hcar : Carries v [.direct .docol, .call l, .lit (.xt w), .call c] s)
    (hlit : (s.heap.word l).code = .ok (.native (.branch .inlineLiteral)))
    (hcomp : (s.heap.word c).code = .ok (.native (.defining .compileComma)))
    (hb : s.compiler.building? ≠ some v) :
    ∃ fuel q, s.execute fuel v = some q ∧ observed q = observed (M.compileWord w s) := by
  generalize hes : [Elem.direct .docol, .call l, .lit (.xt w), .call c] = es at hcar
  have hat : CodeAt es 1 [.call l, .lit (.xt w)] := ⟨[.direct .docol], [.call c], hes.symm, rfl⟩
  have hget : es[3]? = some (.call c) := hes ▸ rfl
  have hlen : es.length = 4 := hes ▸ rfl
  have hpush : M.push (.xt w) s =
      .ok () { s with data := { s.data with items := .xt w :: s.data.items } } := by
    simp only [M.push, Stack.push, hroom, if_true]
  generalize hs₁ : ({ s with data := { s.data with items := .xt w :: s.data.items } } : Machine) = s₁ at hpush
  have hpop : M.popWord s₁ = .ok w s := hs₁ ▸ rfl
  have hcar₁ : Carries v es s₁ := hs₁ ▸ ⟨hcar.body, hcar.code, hcar.calm⟩
  have hcomp₁ : (s₁.heap.word c).code = .ok (.native (.defining .compileComma)) := hs₁ ▸ hcomp
  have hact : (Primitive.defining .compileComma).run s₁ =
      (DefiningWord.act .compileComma >>= fun _ => pure Flow.next) s₁ := rfl
  have hword : DefiningWord.act .compileComma s₁ = M.compileWord w s := M.bind_ok hpop
  have hgo := literal_goes hcar hlit hat s.debugger
  rw [hpush] at hgo
  obtain ⟨d, hgo⟩ := hgo
  have hrun := blind_goes hcar₁ hget hcomp₁ (Primitive.run_blind _ rfl rfl) (.bind fun _ => .pure rfl) d
  cases hr : M.compileWord w s with
  | error e y =>
    rw [hact, M.bind_error (hword.trans hr)] at hrun
    obtain ⟨d', hs⟩ := hrun
    exact ⟨2 + 2, _, (steps_of_goes hgo 2).trans hs, rfl⟩
  | ok _ y =>
    rw [hact, M.bind_ok (hword.trans hr)] at hrun
    obtain ⟨d', hs⟩ := hrun
    obtain ⟨hcalm, hsame⟩ := compileWord_inv hr
    have hy : Carries v es y := by
      refine ⟨?_, ?_, hcalm.trans hcar.calm⟩
      · rw [hsame v hb, hcar.body]
      · rw [hsame v hb, hcar.code]
    have hlast : (y.inside v (3 + 1) d').step = .running (y.back d') := by
      have hend := step_end hy d'
      rwa [hlen] at hend
    refine ⟨2 + (2 + (0 + 1 + 1)), .ok () { y with debugger := d' }, ?_, rfl⟩
    show steps _ (s.inside v 1 s.debugger) = _
    rw [steps_of_goes hgo, steps_of_goes hs, steps_succ_of_running hlast, steps, step_back]

theorem Postponed.alike (h : Postponed (left + 1) s w v) (hm : s.compiler.mode = .compiling)
    {s₁ : Machine} (ht : nextSourceToken s = .ok (some t) s₁) (hroom : s.data.depth < s.data.capacity)
    (r : EStateM.Result Error Machine Unit) :
    (∃ fuel, (interpretWord fuel v s₁).map observed = some r) ↔
      ∃ fuel, (interpretWord fuel w s₁).map observed = some r := by
  obtain ⟨n, m, m', hr, hdef, hl, hbody, hflag⟩ := h
  obtain ⟨b, l, c, hrb, hlb, D⟩ := hdef.spec hr
  obtain ⟨hwv, hlv, hcv⟩ := D.older
  have hls : Leads (.line (n + 3)) b (.line (left + 1)) s := hlb.trans hl
  have hrs : Reached (.line (left + 1)) s := hrb.leads hls
  have hsettled : Settled v s := (Settled.kept v).leads D.settled hl
  obtain ⟨hi, ho⟩ := nextSourceToken_calm ht
  have hheap : s₁.heap = s.heap := congrArg Owned.heap ho
  have hcompiler : s₁.compiler = s.compiler := congrArg Owned.compiler ho
  have hcodes : ∀ {u : WordId} {code : Code}, u.index < v.index → (b.heap.word u).code = .ok code →
      (s₁.heap.word u).code = .ok code := by
    intro u code hu hc
    rw [hheap]
    exact D.newest.code_leads hrb hu hls hc
  -- The compiler works on a later word, and the one created last is a later one.
  obtain ⟨z, hlast, hz⟩ := hsettled.later (.inl hm)
  have hfrozen : ∀ {x u : WordId}, u.index ≤ v.index → (s₁.heap.word u).code = .ok .docol →
      Frozen u (s₁.startRun x .outside) := by
    intro x u hu hc
    refine ⟨hrs.aimed.startRun ho x, ?_, hc, ?_, ?_⟩
    · exact Nat.lt_of_le_of_lt hu (hheap ▸ hsettled.has)
    · show s₁.compiler.last? ≠ some u
      rw [hcompiler, hlast]
      rintro he
      cases he
      omega
    · show s₁.compiler.building? ≠ some u
      rw [hcompiler]
      intro he
      have := hsettled.building u he
      omega
  have hvbody : (s₁.heap.word v).body.toList = standIn (m.heap.word w).immediate w l c := by
    rw [hheap, hbody, D.body]
  have hvcode : (s₁.heap.word v).code = .ok .docol := by
    rw [Word.code_eq_ok_iff, ← Array.getElem?_toList, hvbody, standIn]
    split <;> rfl
  obtain ⟨hframes, hruns⟩ : s₁.frames = [] ∧ s₁.runs = [] := by
    obtain ⟨hf, hr⟩ : s.frames = [] ∧ s.runs = [] := hrs.running
    exact ⟨(congrArg Owned.frames ho).trans hf, (congrArg Owned.runs ho).trans hr⟩
  have hmode : s₁.compiler.mode = .compiling := hcompiler ▸ hm
  have hv : ∀ fuel, interpretWord fuel v s₁ = s₁.execute fuel v := by
    intro fuel
    simp only [interpretWord, hmode, hheap, hsettled.immediate, if_true]
  have hsflag : (s₁.heap.word w).immediate = (m.heap.word w).immediate := hheap ▸ hflag
  simp only [hv]
  cases himm : (m.heap.word w).immediate with
  | true =>
    rw [himm] at hsflag hvbody
    have hw : ∀ fuel, interpretWord fuel w s₁ = s₁.execute fuel w := by
      intro fuel
      simp only [interpretWord, hmode, hsflag, if_true]
    simp only [hw]
    have husual : s₁.IsUsual w := by
      rcases D.usual with ⟨bi, hbi, hc, hbflag⟩ | hc
      · exact .inl ⟨bi, hbi, hcodes hwv hc, by rw [hsflag, ← hbflag, D.flag, himm]⟩
      · exact .inr (hcodes hwv hc)
    have hu := Unheard.of_usual hframes hruns hi husual hsflag (hfrozen (Nat.le_of_lt hwv))
    exact hu.single_call_alike (hfrozen (Nat.le_refl _) hvcode)
      (Array.toList_inj.1 hvbody) hframes hruns hi r
  | false =>
    rw [himm] at hsflag hvbody
    have hw : ∀ fuel, interpretWord fuel w s₁ = some (M.compileWord w s₁) := by
      intro fuel
      simp only [interpretWord, hmode, hsflag]
      rfl
    simp only [hw]
    have hroom₁ : s₁.data.depth < s₁.data.capacity := by
      rwa [show s₁.data = s.data from congrArg Owned.data ho]
    obtain ⟨fuel, q, hq, he⟩ := execute_standIn hroom₁ ⟨hvbody, hvcode, hi⟩
      (hcodes hlv D.literal) (hcodes hcv D.compiles)
      (fun hb => Nat.lt_irrefl _ (hsettled.building v (hcompiler ▸ hb)))
    constructor
    · rintro ⟨fuel', hr'⟩
      obtain ⟨q', hq', rfl⟩ := Option.map_eq_some_iff.1 hr'
      obtain rfl := steps_unique hq hq'
      exact ⟨0, by rw [Option.map_some, he]⟩
    · rintro ⟨-, hr'⟩
      exact ⟨fuel, by rw [hq, ← hr', Option.map_some, Option.map_some, he]⟩

/-- **Postponing is transparent.**  In the middle of a definition, with room for one value on the data
    stack, a word that stands for another one, directly or by way of other such words, does as a token
    what the other one does.  Both tokens are read on one machine, so the objects that they make have
    the same addresses. -/
theorem postponed_words_alike (h : Relation.TransGen (Postponed (left + 1) s) w v)
    (hm : s.compiler.mode = .compiling) (hroom : s.data.depth < s.data.capacity) {s₁ : Machine}
    (ht : nextSourceToken s = .ok (some t) s₁) (hv : s₁.find? t = some v) {t' : String}
    (hw : s₁.find? t' = some w) (r : EStateM.Result Error Machine Unit) :
    (∃ fuel, (interpretToken fuel t s₁).map observed = some r) ↔
      ∃ fuel, (interpretToken fuel t' s₁).map observed = some r := by
  have hwords : ∀ {u}, Relation.TransGen (Postponed (left + 1) s) w u →
      ((∃ fuel, (interpretWord fuel u s₁).map observed = some r) ↔
        ∃ fuel, (interpretWord fuel w s₁).map observed = some r) := by
    intro u hu
    induction hu with
    | single h => exact h.alike hm ht hroom r
    | tail _ h ih => exact (h.alike hm ht hroom r).trans ih
  simp only [interpretToken, hv, hw]
  exact hwords h

end Stand

/-! ## Lines token by token -/

/-- The machine after the next token of its line. -/
def afterToken (m : Machine) : Machine :=
  match nextSourceToken m with
  | .ok (some t) m₁ => after ((interpretToken 8 t m₁).getD (.ok () default))
  | r => after r

/-- The machine after some tokens of its line. -/
def afterTokens : Nat → Machine → Machine
  | 0, m => m
  | n + 1, m => (afterTokens n m).afterToken

/-- Whether the next token is interpreted without an error. -/
def takesToken (m : Machine) : Bool :=
  match nextSourceToken m with
  | .ok (some t) m₁ => ((interpretToken 8 t m₁) matches some (.ok _ _))
  | _ => false

/-- The word that the next token runs, if it runs one. -/
def nextRun? (m : Machine) : Option WordId :=
  match nextSourceToken m with
  | .ok (some t) m₁ => m₁.wordToRun? t
  | _ => none

theorem takesToken_inv (h : m.takesToken = true) :
    ∃ t m₁, nextSourceToken m = .ok (some t) m₁ ∧
      interpretToken 8 t m₁ = some (.ok () m.afterToken) := by
  unfold takesToken at h
  split at h
  · rename_i t m₁ ht
    refine ⟨t, m₁, ht, ?_⟩
    unfold afterToken
    rw [ht]
    cases hr : interpretToken 8 t m₁ with
    | none =>
      rw [hr] at h
      cases h
    | some r =>
      cases r with
      | ok _ y =>
        dsimp only
        rw [hr]
        rfl
      | error e y =>
        rw [hr] at h
        cases h
  · cases h

theorem Leads.afterToken {ph₀ : Phase} {m₀ : Machine} {n : Nat}
    (hl : Leads ph₀ m₀ (.line (n + 1)) m) (h : m.takesToken = true) :
    Leads ph₀ m₀ (.line n) m.afterToken := by
  obtain ⟨t, m₁, ht, hr⟩ := takesToken_inv h
  exact hl.interpretToken ht hr

theorem Leads.afterTokens {ph₀ : Phase} {m₀ : Machine} {n : Nat} (k : Nat)
    (hl : Leads ph₀ m₀ (.line (n + k)) m) (h : ∀ i < k, (m.afterTokens i).takesToken = true) :
    Leads ph₀ m₀ (.line n) (m.afterTokens k) := by
  induction k generalizing n with
  | zero => exact hl
  | succ k ih =>
    have hk : Leads ph₀ m₀ (.line (n + 1)) (m.afterTokens k) :=
      ih (by rwa [Nat.add_right_comm, Nat.add_assoc]) fun i hi => h i (Nat.lt_succ_of_lt hi)
    exact hk.afterToken (h k (Nat.lt_succ_self k))

theorem Runs.afterToken (hu : m.nextRun? = some u) (hc : ((after (nextSourceToken m)).heap.word u).code = .ok (.native p))
    (h : m.takesToken = true) : Runs p m m.afterToken := by
  obtain ⟨t, m₁, ht, hr⟩ := takesToken_inv h
  have hw : m₁.wordToRun? t = some u := by
    unfold nextRun? at hu
    rwa [ht] at hu
  rw [interpretToken_eq, hw] at hr
  rw [ht] at hc
  exact ⟨m₁, t, u, 8, ht, hw, hc, hr⟩

/-- A machine about to define the word `m`, which postpones `dup`. -/
def postponingDup (rest : String) : Machine :=
  after (fill (": m postpone dup ; immediate " ++ rest)
    (ofNames {} [":", ";", "postpone", "immediate", "dup", ",", "(literal)", "compile,"]))

theorem postponingDup_eq (rest : String) : postponingDup rest =
    after (fill (": m postpone dup ; immediate " ++ rest) (stocked {} (supply
      [⟨"dup", .stack .dup, false⟩, ⟨",", .memory .comma, false⟩, ⟨":", .defining .colon, false⟩,
        ⟨";", .defining .semicolon, true⟩, ⟨"immediate", .defining .immediate, false⟩,
        ⟨"postpone", .defining .postpone, true⟩, ⟨"compile,", .defining .compileComma, false⟩,
        ⟨"(literal)", .branch .inlineLiteral, false⟩]))) :=
  congrArg (after <| fill _ ·) (ofNames_eq _ _ (by decide) (by decide))

/-- Whether the machine is about to take the token `t`. -/
def faces (t : String) (m : Machine) : Bool :=
  match nextSourceToken m with
  | .ok (some t') _ => t' = t
  | _ => false

theorem faces_inv {t : String} (h : m.faces t = true) :
    nextSourceToken m = .ok (some t) (after (nextSourceToken m)) := by
  unfold faces at h
  split at h
  · rename_i ht
    rw [ht, of_decide_eq_true h, after_ok]
  · cases h

/-- What is left of the line, once with nothing but the use of `m`, and once with an element that is
    added to `m` before. -/
def postponingRests : List String :=
  [": foo m ;", "5 , : foo m ;"]

theorem postponingDup_spec : ∀ rest ∈ postponingRests,
    ((postponingDup rest).line.text.length + 2 = (rest.length + 26) + 5 ∧
      ∀ i < 5, ((postponingDup rest).afterTokens i).takesToken = true) ∧
    (∀ x ∈ [(0, ⟨2⟩, .colon), (1, ⟨5⟩, .postpone), (3, ⟨3⟩, .semicolon), (4, ⟨4⟩, .immediate)],
      ((postponingDup rest).afterTokens x.1).nextRun? = some x.2.1 ∧
      ((after (nextSourceToken ((postponingDup rest).afterTokens x.1))).heap.word x.2.1).code =
        .ok (.native (.defining x.2.2))) ∧
    ((postponingDup rest).afterTokens 1).compiler.building? = some ⟨24⟩ ∧
    ((postponingDup rest).afterTokens 2).nextRun? = none ∧
    ((postponingDup rest).afterTokens 2).faces "dup" = true ∧
    (∀ x ∈ [("dup", ⟨0⟩, .stack .dup), ("(literal)", ⟨7⟩, .branch .inlineLiteral),
        ("compile,", ⟨6⟩, .defining .compileComma)],
      (after (nextSourceToken ((postponingDup rest).afterTokens 2))).find? x.1 = some x.2.1 ∧
      ((after (nextSourceToken ((postponingDup rest).afterTokens 2))).heap.word x.2.1).code =
        .ok (.native x.2.2)) ∧
    ((after (nextSourceToken ((postponingDup rest).afterTokens 2))).heap.word ⟨0⟩).immediate = false := by
  simp only [postponingDup_eq]
  decide +kernel

theorem postpones_dup {rest : String} (hrest : rest ∈ postponingRests) :
    Reached (.line (rest.length + 26 + 5)) (postponingDup rest) ∧
      Postpones ⟨0⟩ ⟨24⟩ (postponingDup rest) ((postponingDup rest).afterTokens 5) := by
  obtain ⟨⟨hlen, htakes⟩, hruns, hbuild, hnone, hface, hnames, himm⟩ := postponingDup_spec rest hrest
  have hreached : Reached .rest (postponingDup rest) := by
    rw [postponingDup, ofNames]
    exact (Reached.create _ _).fill _
  have hrun : ∀ i d, (∃ u : WordId, (i, u, d) ∈ ([(0, ⟨2⟩, .colon), (1, ⟨5⟩, .postpone),
      (3, ⟨3⟩, .semicolon), (4, ⟨4⟩, .immediate)] : List (Nat × WordId × DefiningWord))) → i < 5 →
      Runs (.defining d) ((postponingDup rest).afterTokens i) ((postponingDup rest).afterTokens (i + 1)) := by
    rintro i d ⟨u, hu⟩ hi
    obtain ⟨hn, hc⟩ := hruns _ hu
    exact .afterToken hn hc (htakes i hi)
  obtain ⟨hdup, hdupc⟩ := hnames ("dup", ⟨0⟩, .stack .dup) (by simp)
  obtain ⟨hlit, hlitc⟩ := hnames ("(literal)", ⟨7⟩, .branch .inlineLiteral) (by simp)
  obtain ⟨hcomp, hcompc⟩ := hnames ("compile,", ⟨6⟩, .defining .compileComma) (by simp)
  have hcompile : compileToken "dup" (after (nextSourceToken ((postponingDup rest).afterTokens 2))) =
      .ok () ((postponingDup rest).afterTokens 3) := by
    obtain ⟨t, m₁, ht, hr⟩ := takesToken_inv (htakes 2 (by decide))
    rw [faces_inv hface] at ht
    cases ht
    unfold nextRun? at hnone
    rw [faces_inv hface] at hnone
    dsimp only at hnone
    rw [interpretToken_eq, hnone] at hr
    exact Option.some.inj hr
  refine ⟨hlen ▸ hreached.start, _, _, _, "dup", _, _, hrun 0 .colon ⟨⟨2⟩, by simp⟩ (by decide), hbuild,
    hrun 1 .postpone ⟨⟨5⟩, by simp⟩ (by decide), faces_inv hface, hdup, ?_, ⟨_, hlit, hlitc⟩,
    ⟨_, hcomp, hcompc⟩, hcompile, hrun 3 .semicolon ⟨⟨3⟩, by simp⟩ (by decide),
    hrun 4 .immediate ⟨⟨4⟩, by simp⟩ (by decide)⟩
  exact .inl ⟨⟨"dup", .stack .dup, false⟩, by decide +kernel, hdupc, himm⟩

/-- What a token does does not depend on the fuel. -/
theorem interpretToken_unique {fuel fuel' : Nat} {t : String} {q q' : EStateM.Result Error Machine Unit}
    (h : interpretToken fuel t m = some q) (h' : interpretToken fuel' t m = some q') : q = q' := by
  rw [interpretToken_eq] at h h'
  cases hw : m.wordToRun? t with
  | some u =>
    rw [hw] at h h'
    exact steps_unique h h'
  | none =>
    rw [hw] at h h'
    exact Option.some.inj (h.symm.trans h')

/-- A definition that uses `m`. -/
theorem postponed_words_alike_of_dup :
    ∃ (left : Nat) (s s₁ : Machine) (w v : WordId), Relation.TransGen (Postponed (left + 1) s) w v ∧
      s.compiler.mode = .compiling ∧ s.data.depth < s.data.capacity ∧
      nextSourceToken s = .ok (some "m") s₁ ∧ s₁.find? "m" = some v ∧ s₁.find? "dup" = some w ∧
      ∀ r, (∃ fuel, (interpretToken fuel "m" s₁).map observed = some r) ↔
        ∃ fuel, (interpretToken fuel "dup" s₁).map observed = some r := by
  have hrest : ": foo m ;" ∈ postponingRests := by decide
  have hspec : ((postponingDup ": foo m ;").afterTokens 5).takesToken = true ∧
      ((postponingDup ": foo m ;").afterTokens 6).compiler.mode = .compiling ∧
      ((postponingDup ": foo m ;").afterTokens 6).data.depth <
        ((postponingDup ": foo m ;").afterTokens 6).data.capacity ∧
      ((postponingDup ": foo m ;").afterTokens 6).faces "m" = true ∧
      (∀ x ∈ [("m", ⟨24⟩), ("dup", ⟨0⟩)],
        (after (nextSourceToken ((postponingDup ": foo m ;").afterTokens 6))).find? x.1 = some x.2) ∧
      (((postponingDup ": foo m ;").afterTokens 6).heap.word ⟨24⟩).body =
        (((postponingDup ": foo m ;").afterTokens 5).heap.word ⟨24⟩).body ∧
      (((postponingDup ": foo m ;").afterTokens 6).heap.word ⟨0⟩).immediate =
        ((postponingDup ": foo m ;").heap.word ⟨0⟩).immediate := by
    rw [postponingDup_eq]
    decide +kernel
  obtain ⟨hreached, hpostpones⟩ := postpones_dup hrest
  obtain ⟨htakes, hm, hroom, hface, hfind, hbody, hflag⟩ := hspec
  have hl : Leads (.line 35) ((postponingDup ": foo m ;").afterTokens 5) (.line 34)
      ((postponingDup ": foo m ;").afterTokens 6) := (Leads.refl _ _).afterToken htakes
  have hstands : Relation.TransGen (Postponed 34 ((postponingDup ": foo m ;").afterTokens 6)) ⟨0⟩ ⟨24⟩ :=
    .single ⟨35, _, _, hreached, hpostpones, hl, hbody, hflag⟩
  exact ⟨33, _, _, _, _, hstands, hm, hroom, faces_inv hface, hfind ("m", ⟨24⟩) (by simp),
    hfind ("dup", ⟨0⟩) (by simp), fun r => postponed_words_alike hstands hm hroom (faces_inv hface)
      (hfind ("m", ⟨24⟩) (by simp)) (hfind ("dup", ⟨0⟩) (by simp)) r⟩

/-- A word that has got another element since its definition no longer does what the word does that it
    stands for: with a data slot at its end it fails, after it has compiled that word. -/
theorem postponed_words_can_differ : ¬ ∀ (n left : Nat) (m m' s s₁ : Machine) (w v : WordId)
    (t t' : String) (r : EStateM.Result Error Machine Unit), Reached (.line (n + 5)) m →
    Postpones w v m m' → Leads (.line n) m' (.line (left + 1)) s →
    (s.heap.word w).immediate = (m.heap.word w).immediate → s.compiler.mode = .compiling →
    s.data.depth < s.data.capacity → nextSourceToken s = .ok (some t) s₁ → s₁.find? t = some v →
    s₁.find? t' = some w →
    ((∃ fuel, (interpretToken fuel t s₁).map observed = some r) ↔
      ∃ fuel, (interpretToken fuel t' s₁).map observed = some r) := by
  intro h
  have hrest : "5 , : foo m ;" ∈ postponingRests := by decide
  have hspec : (∀ i < 3, (((postponingDup "5 , : foo m ;").afterTokens 5).afterTokens i).takesToken = true) ∧
      (((postponingDup "5 , : foo m ;").afterTokens 5).afterTokens 3).compiler.mode = .compiling ∧
      (((postponingDup "5 , : foo m ;").afterTokens 5).afterTokens 3).data.depth <
        (((postponingDup "5 , : foo m ;").afterTokens 5).afterTokens 3).data.capacity ∧
      (((postponingDup "5 , : foo m ;").afterTokens 5).afterTokens 3).faces "m" = true ∧
      (∀ x ∈ [("m", ⟨24⟩), ("dup", ⟨0⟩)], (after (nextSourceToken
        (((postponingDup "5 , : foo m ;").afterTokens 5).afterTokens 3))).find? x.1 = some x.2) ∧
      ((((postponingDup "5 , : foo m ;").afterTokens 5).afterTokens 3).heap.word ⟨0⟩).immediate =
        ((postponingDup "5 , : foo m ;").heap.word ⟨0⟩).immediate ∧
      (interpretToken 16 "m" (after (nextSourceToken
        (((postponingDup "5 , : foo m ;").afterTokens 5).afterTokens 3)))).isSome = true ∧
      ((interpretToken 16 "m" (after (nextSourceToken
        (((postponingDup "5 , : foo m ;").afterTokens 5).afterTokens 3)))) matches some (.ok _ _)) = false ∧
      ((interpretToken 16 "dup" (after (nextSourceToken
        (((postponingDup "5 , : foo m ;").afterTokens 5).afterTokens 3)))) matches some (.ok _ _)) = true := by
    simp only [postponingDup_eq]
    decide +kernel
  obtain ⟨hreached, hpostpones⟩ := postpones_dup hrest
  obtain ⟨htakes, hm, hroom, hface, hfind, hflag, hends, herror, hok⟩ := hspec
  have hl : Leads (.line 39) ((postponingDup "5 , : foo m ;").afterTokens 5) (.line 36)
      (((postponingDup "5 , : foo m ;").afterTokens 5).afterTokens 3) :=
    Leads.afterTokens 3 (.refl _ _) htakes
  have hdup := hfind ("dup", ⟨0⟩) (by simp)
  generalize hs : ((postponingDup "5 , : foo m ;").afterTokens 5).afterTokens 3 = s at *
  generalize hs₁ : after (nextSourceToken s) = s₁ at *
  obtain ⟨q, hr⟩ := Option.isSome_iff_exists.1 hends
  obtain ⟨fuel, hfuel⟩ := (h 39 35 _ _ s s₁ ⟨0⟩ ⟨24⟩ "m" "dup" (observed q) hreached hpostpones hl hflag hm
    hroom (hs₁ ▸ faces_inv hface) (hfind ("m", ⟨24⟩) (by simp)) hdup).1 ⟨16, by rw [hr]; rfl⟩
  obtain ⟨q', hq', he⟩ := Option.map_eq_some_iff.1 hfuel
  rw [hr] at herror
  cases hd : interpretToken 16 "dup" s₁ with
  | none =>
    rw [hd] at hok
    cases hok
  | some q'' =>
    obtain rfl := interpretToken_unique hq' hd
    rw [hd] at hok
    cases q <;> cases q' <;> cases herror <;> cases hok
    cases he

end Machine
end ThreadedForth
