/-
  Runs and lines on machines that hold the same under other numbers.
-/
import ThreadedForth.Proofs.PairingWords

namespace ThreadedForth

variable {α β : Type}

namespace Pairing

variable {m m' : Machine} {P : Pairing m m'} {x y : Machine} {w u : WordId}

/-- Two steps are the same, and lead to machines that hold the same. -/
inductive SameStep (P : Pairing m m') : Progress → Progress → Prop
  | running {x y : Machine} (h : P.Alike x y) : SameStep P (.running x) (.running y)
  | ended {x y : Machine} (h : P.Alike x y) : SameStep P (.ended x) (.ended y)
  | failed {x y : Machine} (e : Error) (h : P.Alike x y) : SameStep P (.failed e x) (.failed e y)

/-- Two runs end in the same way and leave machines that hold the same, or neither has ended. -/
abbrev SameEnd (P : Pairing m m') : Option (EStateM.Result Error Machine α) →
    Option (EStateM.Result Error Machine α) → Prop :=
  Option.Rel (P.SameResult Eq)

/-- The words that are running have the same code as what belongs to them. -/
def RunsShared (P : Pairing m m') (x : Machine) : Prop :=
  ∀ f ∈ x.frames, (∃ u, P.word f.word u) → P.shared f.word

/-! ## Steps -/

theorem Alike.popFrame (h : P.Alike x y) : P.Alike x.popFrame y.popFrame := by
  have hf := h.frames
  refine h.setFrames ?_
  generalize x.frames = fs at hf
  generalize y.frames = gs at hf
  cases hf with
  | nil => exact .nil
  | cons _ hf => exact hf

theorem Alike.enter (h : P.Alike x y) (hw : P.SameCallee w u) : P.Alike (x.enter w) (y.enter u) :=
  h.setFrames (.cons ⟨hw, rfl⟩ h.frames)

theorem Alike.setRuns (h : P.Alike x y) {rs ss : List Run} (hr : List.Forall₂ P.SameRun rs ss) :
    P.Alike { x with runs := rs } { y with runs := ss } :=
  { h with runs := hr, depth := h.depth.imp_left fun hi => ⟨hi.1, hi.2⟩ }

theorem Alike.startRun (h : P.Alike x y) (hw : P.SameCallee w u) {a b : Pending}
    (hp : P.SamePending a b) : P.Alike (x.startRun w a) (y.startRun u b) :=
  (h.setRuns (.cons ⟨h.frames.length_eq, hp⟩ h.runs)).enter hw

theorem Alike.isBackAt_eq (h : P.Alike x y) (depth : Nat) : x.isBackAt depth = y.isBackAt depth := by
  rw [Bool.eq_iff_iff, Machine.isBackAt_iff, Machine.isBackAt_iff, h.frames.length_eq]

theorem Alike.runBase_eq (h : P.Alike x y) : x.runBase = y.runBase := by
  have hr := h.runs
  unfold Machine.runBase
  generalize x.runs = rs at hr
  generalize y.runs = ss at hr
  cases hr with
  | nil => rfl
  | cons hr _ => exact hr.base

theorem Alike.proceed (h : P.Alike x y) {a b : Flow} (hf : P.SameFlow a b)
    (hs : P.RunsShared (x.proceed a)) : P.Alike (x.proceed a) (y.proceed b) := by
  cases hf with
  | next => exact h.popFrame
  | leave =>
    simp only [Machine.proceed, ← h.runBase_eq, ← h.popFrame.isBackAt_eq]
    split
    · exact h.popFrame
    · exact h.popFrame.popFrame
  | @call w u hw => exact h.popFrame.enter ⟨hw, hs ⟨w, 1⟩ List.mem_cons_self ⟨u, hw⟩⟩
  | @nest w u hw _ _ hp => exact h.startRun ⟨hw, hs ⟨w, 1⟩ List.mem_cons_self ⟨u, hw⟩⟩ hp

theorem Alike.truncateFrames (h : P.Alike x y) (depth : Nat) :
    P.Alike (x.truncateFrames depth) (y.truncateFrames depth) := by
  unfold Machine.truncateFrames
  rw [h.frames.length_eq]
  exact h.setFrames (List.forall₂_drop _ h.frames)

theorem Alike.unwind (h : P.Alike x y) (e : Error) {rs ss : List Run}
    (hr : List.Forall₂ P.SameRun rs ss) :
    P.SameStep (Machine.unwind e x rs) (Machine.unwind e y ss) := by
  induction hr generalizing x y e with
  | nil => exact .failed e h
  | @cons r s rs ss hrs hrest ih =>
    have hcut : P.Alike { x.truncateFrames r.base with runs := rs }
        { y.truncateFrames s.base with runs := ss } := by
      rw [← hrs.base]
      exact (h.truncateFrames r.base).setRuns hrest
    have hp := hrs.pending
    simp only [Machine.unwind]
    generalize r.pending = a at hp
    generalize s.pending = b at hp
    cases hp with
    | outside => exact .failed e hcut
    | handler depth _ => exact ih hcut e
    | run => exact ih hcut e
    | attempt =>
      have hpush := pushNew (SameObj.text (P := P) e.message) _ _ hcut
      dsimp only
      generalize M.pushNew (.text e.message) { x.truncateFrames r.base with runs := rs } = r at hpush
      generalize M.pushNew (.text e.message) { y.truncateFrames s.base with runs := ss } = s at hpush
      cases hpush with
      | ok _ h' => exact .running h'.popFrame
      | error e' h' => exact ih h' e'

theorem Alike.fail (h : P.Alike x y) (e : Error) : P.SameStep (x.fail e) (y.fail e) :=
  h.unwind e h.runs

theorem SameResult.settle {r s : EStateM.Result Error Machine Flow}
    (h : P.SameResult P.SameFlow r s)
    (hs : ∀ x', Machine.settle r = .running x' → P.RunsShared x') :
    P.SameStep (Machine.settle r) (Machine.settle s) := by
  cases h with
  | ok hf h => exact .running (h.proceed hf (hs _ rfl))
  | error e h => exact h.fail e

theorem resume {a b : Pending} (hp : P.SamePending a b) :
    P.Joint P.SameFlow (Machine.resume a) (Machine.resume b) := by
  cases hp with
  | outside => exact .pure .next
  | run => exact .pure .next
  | handler depth ha => exact (conclude depth ha).andThen fun _ => .pure .next
  | attempt => exact (pushNew (.text _)).andThen fun _ => .pure .next

/-! ## The elements of composed words -/

theorem SameDebugger.visit {d e : Debugger} (h : P.SameDebugger d e) (hd : d.isWatching = true)
    (hw : P.SameCallee w u) (label : String) (ip depth dataDepth : Nat) :
    P.SameDebugger (d.visit w label ip depth dataDepth) (e.visit u label ip depth dataDepth) := by
  have hasked : d.hook.asked + 1 = e.hook.asked + 1 := congrArg (· + 1) h.asked
  have hstops : ∀ s : Stop, d.hook.stops ++ [s] = e.hook.stops ++ [s] := fun s => by rw [h.stops]
  have hb : d.hook.answer d.hook.asked w ip = e.hook.answer e.hook.asked u ip := by
    rw [h.asked]
    exact h.answer (Bool.and_eq_true_iff.1 hd).2 _ ip hw
  have hstop : ∀ b, d.shouldStop depth b = e.shouldStop depth b := by
    intro b
    unfold Debugger.shouldStop
    rw [h.level, h.stepOverDepth]
  unfold Debugger.visit Hook.stopped
  dsimp only
  rw [hb, hstop, h.plan, h.resume]
  split
  · split
    · refine SameDebugger.setLevel ?_ _ _
      exact ⟨h.level, h.stepOverDepth, h.attached, hasked, rfl, rfl, hstops _, h.answer⟩
    · refine SameDebugger.setLevel ?_ _ _
      exact ⟨h.level, h.stepOverDepth, h.attached, hasked, rfl, rfl, hstops _, h.answer⟩
  · exact ⟨h.level, h.stepOverDepth, h.attached, hasked, rfl, rfl, h.stops, h.answer⟩

/-- A composed word passes an element. -/
theorem Alike.pass (h : P.Alike x y) {f g : Frame} (hf : P.SameFrame f g) {fs gs : List Frame}
    (hr : List.Forall₂ P.SameFrame fs gs) : P.Alike (x.pass f fs) (y.pass g gs) := by
  have hd := h.debugger
  have hwatch : x.debugger.isWatching = y.debugger.isWatching := by
    unfold Debugger.isWatching
    rw [hd.level, hd.attached]
  have hnew : P.SameDebugger (x.pass f fs).debugger (y.pass g gs).debugger := by
    unfold Machine.pass
    dsimp only
    rw [hwatch]
    split
    · rename_i hw
      rw [h.heap.label hf.word.1, hf.ip, h.frames.length_eq, h.data.depth]
      exact hd.visit (hwatch.trans hw) hf.word _ _ _ _
    · exact hd
  exact { h with
    debugger := hnew
    frames := .cons ⟨hf.word, congrArg (· + 1) hf.ip⟩ hr
    depth := h.depth.imp_left fun hi => ⟨hi.1, hi.2⟩ }

theorem Alike.stepElement (h : P.Alike x y) {f g : Frame} {fs gs : List Frame}
    (hx : x.frames = f :: fs) (hy : y.frames = g :: gs)
    (hs : ∀ x', x.stepElement f fs = .running x' → P.RunsShared x') :
    P.SameStep (x.stepElement f fs) (y.stepElement g gs) := by
  have hframes := h.frames
  rw [hx, hy] at hframes
  obtain ⟨hf, hrest⟩ := List.forall₂_cons.1 hframes
  have hpass := h.pass hf hrest
  have hel := (h.heap.word hf.word).getElem? f.ip
  rw [Machine.stepElement_eq] at hs ⊢
  rw [Machine.stepElement_eq, ← hf.ip, ← h.heap.label hf.word.1]
  generalize (x.heap.word f.word).body[f.ip]? = e at hel hs
  generalize (y.heap.word g.word).body[f.ip]? = d at hel
  cases hel with
  | none => exact .running h.popFrame
  | some hel =>
    cases hel with
    | direct _ => exact hpass.fail _
    | lit _ => exact hpass.fail _
    | recurse => exact .running (hpass.enter hf.word)
    | @call w u hw => exact .running (hpass.enter ⟨hw, hs _ rfl ⟨w, 1⟩ List.mem_cons_self ⟨u, hw⟩⟩)

theorem Alike.stepFrame (hE : P.Emits) (h : P.Alike x y) {f g : Frame} {fs gs : List Frame}
    (hx : x.frames = f :: fs) (hy : y.frames = g :: gs)
    (hp : ∀ p, (x.heap.word f.word).code = .ok (.native p) → P.Allows p x y)
    (hs : ∀ x', x.stepFrame f fs = .running x' → P.RunsShared x') :
    P.SameStep (x.stepFrame f fs) (y.stepFrame g gs) := by
  have hframes := h.frames
  rw [hx, hy] at hframes
  obtain ⟨hf, hrest⟩ := List.forall₂_cons.1 hframes
  have hc := (h.heap.word hf.word).code
  unfold Machine.stepFrame at hs ⊢
  generalize hcx : (x.heap.word f.word).code = c at hc hs
  generalize (y.heap.word g.word).code = d at hc
  cases hc with
  | error e => exact h.fail e
  | ok hc =>
    cases hc with
    | docol => exact h.stepElement hx hy hs
    | native p => exact (h.primitive hE (hp p hcx)).settle hs
    | @indirect w u hw entry =>
      have hpush := push (.ptr (h.heap.pointer hf.word 1)) x y h
      dsimp only at hs ⊢
      generalize M.push (.ptr (x.heap.pointer f.word 1)) x = r at hpush hs
      generalize M.push (.ptr (y.heap.pointer g.word 1)) y = s at hpush
      cases hpush with
      | error e h' => exact h'.fail e
      | ok _ h' =>
        have hsh : P.shared w := hs _ rfl ⟨w, entry⟩ List.mem_cons_self ⟨u, hw⟩
        exact .running (h'.setFrames (.cons ⟨⟨hw, hsh⟩, rfl⟩ hrest))

/-- **Machines that hold the same take the same step**, if the next primitive gets the same answers
    and only words of the same code are entered. -/
theorem Alike.step (hE : P.Emits) (h : P.Alike x y)
    (hp : ∀ p, x.primitive? = some p → P.Allows p x y)
    (hs : ∀ x', x.step = .running x' → P.RunsShared x') : P.SameStep x.step y.step := by
  have hruns := h.runs
  cases hr : x.runs with
  | nil =>
    rw [hr] at hruns
    rw [Machine.step, Machine.step, hr, List.forall₂_nil_left_iff.1 hruns]
    exact .ended h
  | cons r rs =>
    rw [hr] at hruns
    obtain ⟨s, ss, hrs, hrest, hr'⟩ := List.forall₂_cons_left_iff.1 hruns
    by_cases hb : x.frames.length ≤ r.base
    · have hb' : y.frames.length ≤ s.base := by rwa [← h.frames.length_eq, ← hrs.base]
      rw [Machine.step_of_back hr hb] at hs ⊢
      rw [Machine.step_of_back hr' hb']
      have hpop := h.setRuns hrest
      have hpend := hrs.pending
      generalize r.pending = a at hpend hs
      generalize s.pending = b at hpend
      cases hpend with
      | outside => exact .ended hpop
      | handler depth ha => exact (resume (.handler depth ha) _ _ hpop).settle hs
      | run => exact (resume .run _ _ hpop).settle hs
      | attempt => exact (resume .attempt _ _ hpop).settle hs
    · have hb := Nat.lt_of_not_le hb
      have hb' : s.base < y.frames.length := by rwa [← h.frames.length_eq, ← hrs.base]
      cases hint : x.interrupt with
      | true =>
        rw [Machine.step_of_interrupt hr hb hint,
          Machine.step_of_interrupt hr' hb' (h.interrupt ▸ hint)]
        have hcalm : P.Alike { x with interrupt := false } { y with interrupt := false } :=
          { h with interrupt := rfl, depth := h.depth.imp_left fun hi => ⟨hi.1, hi.2⟩ }
        exact hcalm.fail _
      | false =>
        obtain ⟨f, fs, hf⟩ := List.exists_cons_of_length_pos (Nat.zero_lt_of_lt hb)
        obtain ⟨g, gs, hg⟩ := List.exists_cons_of_length_pos (Nat.zero_lt_of_lt hb')
        rw [Machine.step_of_frame hr hf hb hint] at hs ⊢
        rw [Machine.step_of_frame hr' hg hb' (h.interrupt ▸ hint)]
        exact h.stepFrame hE hf hg (fun p hc => hp p (Machine.primitive?_eq hr hf hb hint hc)) hs

/-! ## Runs -/

/-- Along two runs, primitives get the same answers, and only words of the same code are entered. -/
structure AllowsRun (P : Pairing m m') (x y : Machine) : Prop where
  answers : ∀ n x' y' p, Machine.Goes n x x' → Machine.Goes n y y' → P.Alike x' y' →
    x'.primitive? = some p → P.Allows p x' y'
  entered : ∀ n x', Machine.Goes n x x' → P.RunsShared x'

theorem AllowsRun.next (h : P.AllowsRun x y) {x' y' : Machine} (hx : x.step = .running x')
    (hy : y.step = .running y') : P.AllowsRun x' y' where
  answers := fun n x₂ y₂ p hgx hgy => h.answers (n + 1) x₂ y₂ p (.step hx hgx) (.step hy hgy)
  entered := fun n x₂ hgx => h.entered (n + 1) x₂ (.step hx hgx)

theorem Alike.steps (hE : P.Emits) (h : P.Alike x y) (hp : P.AllowsRun x y) (fuel : Nat) :
    P.SameEnd (Machine.steps fuel x) (Machine.steps fuel y) := by
  induction fuel generalizing x y with
  | zero => exact .none
  | succ fuel ih =>
    have hstep := h.step hE (fun p => hp.answers 0 x y p (.refl x) (.refl y) h)
      fun x' hx => hp.entered 1 x' (.step hx (.refl x'))
    rw [Machine.steps, Machine.steps]
    generalize hx : x.step = s at hstep
    generalize hy : y.step = t at hstep
    cases hstep with
    | running h' => exact ih h' (hp.next hx hy)
    | ended h' => exact .some (.ok rfl h')
    | failed e h' => exact .some (.error e h')

/-- **Words that belong together do the same to machines that hold the same**, if their primitives
    get the same answers and only words of the same code are entered. -/
theorem Alike.execute (hE : P.Emits) (h : P.Alike x y) (hw : P.word w u)
    (hp : P.AllowsRun (x.startRun w .outside) (y.startRun u .outside)) (fuel : Nat) :
    P.SameEnd (x.execute fuel w) (y.execute fuel u) := by
  have hs : P.shared w := hp.entered 0 _ (.refl _) ⟨w, 1⟩ List.mem_cons_self ⟨u, hw⟩
  exact (h.startRun ⟨hw, hs⟩ .outside).steps hE hp fuel

/-! ## Tokens -/

/-- A token may be interpreted on two machines: it names words that belong together, and the word
    created last and the runs get the same answers. -/
structure AllowsToken (P : Pairing m m') (token : String) (x y : Machine) : Prop where
  finds : P.Finds x y token
  run : ∀ w u, x.wordToRun? token = some w → y.wordToRun? token = some u →
    P.AllowsRun (x.startRun w .outside) (y.startRun u .outside)
  last : x.compiler.mode = .runtimeCompiling → SameExcept P.SameCallee x.latest y.latest

theorem Alike.compilePostponed (hE : P.Emits) (h : P.Alike x y) (hw : P.word w u) :
    P.SameResult Eq (Machine.compilePostponed w x) (Machine.compilePostponed u y) := by
  show P.SameResult Eq
    ((if (x.heap.word w).immediate = true then M.compile (.call w)
      else do M.compileLiteral (.xt w); M.compileBuiltin "compile," : M Unit) x)
    ((if (y.heap.word u).immediate = true then M.compile (.call u)
      else do M.compileLiteral (.xt u); M.compileBuiltin "compile," : M Unit) y)
  have hn : "compile," ∈ Builtin.emitted := by decide
  refine Joint.ite (by rw [h.heap.immediate hw]) (compile (.call hw)) ?_ x y h
  exact (compileLiteral hE (.xt hw)).andThen fun _ => compileBuiltin hE hn

theorem interpretNumber (hE : P.Emits) (token : String) :
    P.Joint Eq (Machine.interpretNumber token) (Machine.interpretNumber token) := by
  unfold Machine.interpretNumber
  cases Literal.number? token with
  | none => exact .throw _
  | some n =>
    have hn : n.toValue.refs = [] := by cases n <;> rfl
    refine getMode.andThen fun mode => ?_
    cases mode with
    | interpreting => exact pushPlain hn
    | compiling => exact compileLiteral hE (.plain hn)
    | compilingPostponed => exact .throw _
    | runtimeCompiling => exact .throw _

theorem Alike.compileToken (hE : P.Emits) (h : P.Alike x y) {token : String}
    (ht : P.AllowsToken token x y) :
    P.SameResult Eq (Machine.compileToken token x) (Machine.compileToken token y) := by
  have hf := h.find? ht.finds
  unfold Machine.compileToken
  rw [← h.mode]
  generalize x.find? token = r at hf
  generalize y.find? token = s at hf
  cases hf with
  | none => exact interpretNumber hE token x y h
  | some hw =>
    cases hm : x.compiler.mode with
    | interpreting => exact compileWord hw x y h
    | compiling => exact compileWord hw x y h
    | compilingPostponed =>
      exact (h.setMode _ (.inr (.inr (not_idle_of_mode (.inr hm))))).compilePostponed hE hw
    | runtimeCompiling =>
      exact (h.setMode .interpreting (.inl rfl)).setLastCode (ht.last hm) (.indirect hw 1)

theorem Alike.wordToRun? (h : P.Alike x y) {token : String} (ht : P.Finds x y token) :
    Option.Rel P.word (x.wordToRun? token) (y.wordToRun? token) := by
  have hf := h.find? ht
  unfold Machine.wordToRun?
  generalize x.find? token = r at hf
  generalize y.find? token = s at hf
  cases hf with
  | none => exact .none
  | some hw =>
    simp only [Option.filter_some, h.mode, h.heap.immediate hw]
    split
    · exact .some hw
    · exact .none

theorem Alike.interpretToken (hE : P.Emits) (h : P.Alike x y) {token : String}
    (ht : P.AllowsToken token x y) (fuel : Nat) :
    P.SameEnd (Machine.interpretToken fuel token x) (Machine.interpretToken fuel token y) := by
  have hw := h.wordToRun? ht.finds
  have hr := ht.run
  rw [Machine.interpretToken_eq, Machine.interpretToken_eq]
  generalize x.wordToRun? token = r at hw hr
  generalize y.wordToRun? token = s at hw hr
  cases hw with
  | none => exact .some (h.compileToken hE ht)
  | some hw => exact h.execute hE hw (hr _ _ rfl rfl) fuel

/-! ## Lines -/

theorem nextSourceToken : P.Joint Eq Machine.nextSourceToken Machine.nextSourceToken := by
  have hcheck : P.Joint Eq Machine.checkInterrupt Machine.checkInterrupt := by
    intro x y h
    unfold Machine.checkInterrupt
    rw [← h.interrupt]
    split
    · exact .error _ { h with interrupt := rfl, depth := h.depth.imp_left fun hi => ⟨hi.1, hi.2⟩ }
    · exact .ok rfl h
  refine hcheck.andThen fun _ => .look fun x y h => ?_
  rw [h.comment]
  refine .ite .rfl ?_ nextToken
  refine (Joint.modify fun _ _ h => h.skipComment).andThen fun _ => .look fun x y h => ?_
  rw [h.comment]
  exact .ite .rfl .done nextToken

/-- The rest of a line may be interpreted on two machines: each of its tokens may, on the machines
    that it comes to. -/
def AllowsLine (P : Pairing m m') (fuel : Nat) : Nat → Machine → Machine → Prop
  | 0, _, _ => True
  | n + 1, x, y => ∀ token x₁ y₁, Machine.nextSourceToken x = .ok (some token) x₁ →
      Machine.nextSourceToken y = .ok (some token) y₁ → P.AllowsToken token x₁ y₁ ∧
      ∀ x₂ y₂, Machine.interpretToken fuel token x₁ = some (.ok () x₂) →
        Machine.interpretToken fuel token y₁ = some (.ok () y₂) → P.AllowsLine fuel n x₂ y₂

/-- **The rest of a line does the same to machines that hold the same**, if each of its tokens may be
    interpreted. -/
theorem Alike.interpret (hE : P.Emits) (h : P.Alike x y) {fuel n : Nat}
    (hl : P.AllowsLine fuel n x y) :
    P.SameEnd (Machine.interpret fuel n x) (Machine.interpret fuel n y) := by
  induction n generalizing x y with
  | zero => exact .some (.ok rfl h)
  | succ n ih =>
    rw [Machine.interpret_succ, Machine.interpret_succ]
    have ht := nextSourceToken x y h
    generalize hx : Machine.nextSourceToken x = r at ht
    generalize hy : Machine.nextSourceToken y = s at ht
    cases ht with
    | error e h' => exact .some (.error e h')
    | ok hab h' =>
      subst hab
      rename_i x₁ y₁ token?
      cases token? with
      | none => exact .some (.ok rfl h')
      | some token =>
        obtain ⟨htoken, hrest⟩ := hl token x₁ y₁ hx hy
        have hi := h'.interpretToken hE htoken fuel
        dsimp only
        generalize Machine.interpretToken fuel token x₁ = r at hi hrest
        generalize Machine.interpretToken fuel token y₁ = s at hi hrest
        cases hi with
        | none => exact .none
        | some hs =>
          cases hs with
          | ok _ h₂ => exact ih h₂ (hrest _ _ rfl rfl)
          | error e h₂ => exact .some (.error e h₂)

theorem Alike.reset (h : P.Alike x y) : P.Alike x.reset y.reset :=
  { h with
    data := h.data.clear
    «return» := congrArg Stack.clear h.return
    temp := h.temp.clear
    self := h.self.clear
    mode := rfl
    building := .none
    opened := nofun
    depth := .inl ⟨rfl, .inl rfl⟩
    frames := .nil
    runs := .nil
    comment := rfl }

/-- **A line does the same to machines that hold the same**, the prompt or the reset included. -/
theorem Alike.processLine (hE : P.Emits) (h : P.Alike x y) {fuel : Nat}
    (hl : P.AllowsLine fuel (x.line.text.length + 2) x y) :
    P.SameEnd (Machine.processLine fuel x) (Machine.processLine fuel y) := by
  rw [Machine.processLine_eq, Machine.processLine_eq, ← h.line]
  have hi := h.interpret hE hl
  generalize Machine.interpret fuel _ x = r at hi
  generalize Machine.interpret fuel _ y = s at hi
  cases hi with
  | none => exact .none
  | some hs =>
    cases hs with
    | @ok x' y' _ _ _ h' =>
      have hprompt : x'.prompt = y'.prompt := by
        unfold Machine.prompt
        rw [h'.mode]
      refine .some ?_
      show P.SameResult Eq (M.put x'.prompt x') (M.put y'.prompt y')
      rw [hprompt]
      exact put _ x' y' h'
    | error e h' =>
      refine .some (.error e (Alike.reset ?_))
      rw [← h'.line]
      exact h'.setLine _

end Pairing
end ThreadedForth
