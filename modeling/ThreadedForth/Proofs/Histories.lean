/-
  What happens in a session, one thing after the other.
-/
import ThreadedForth.Proofs.MovesWords
import ThreadedForth.Proofs.FrameDiscipline

namespace ThreadedForth
namespace Machine

variable {L : Edit → Prop} {m : Machine} {hand : List Value}

/-! ## What the engine does next -/

/-- The primitive whose work the next step does. -/
def primitive? (m : Machine) : Option Primitive :=
  match m.runs, m.frames with
  | r :: _, f :: _ =>
    if m.isBackAt r.base || m.interrupt then none
    else
      match (m.heap.word f.word).code with
      | .ok (.native p) => some p
      | _ => none
  | _, _ => none

/-- What the next step has to finish: the innermost run has ended. -/
def resumed? (m : Machine) : Option Pending :=
  match m.runs with
  | r :: _ => if m.isBackAt r.base then some r.pending else none
  | [] => none

/-- The bodies that the next step of the engine may change. -/
def StepEdits (m : Machine) (e : Edit) : Prop :=
  (∃ p, m.primitive? = some p ∧ p.Edits m e) ∨
    ∃ depth p, m.resumed? = some (.handler depth (.store p)) ∧ e = .store p

theorem primitive?_eq {r : Run} {rs : List Run} {f : Frame} {rest : List Frame} {p : Primitive}
    (hr : m.runs = r :: rs) (hf : m.frames = f :: rest) (hb : r.base < m.frames.length)
    (hi : m.interrupt = false) (hc : (m.heap.word f.word).code = .ok (.native p)) :
    m.primitive? = some p := by
  have hn : m.isBackAt r.base = false := by
    rw [Bool.eq_false_iff]
    exact fun h => by have := isBackAt_iff.1 h; omega
  simp [primitive?, hr, hf, hn, hi, hc]

theorem resumed?_eq {r : Run} {rs : List Run} (hr : m.runs = r :: rs)
    (hb : m.frames.length ≤ r.base) : m.resumed? = some r.pending := by
  simp [resumed?, hr, isBackAt_iff.2 hb]

/-! ## The moves of the engine -/

theorem popFrame_moves : Moves L m hand m.popFrame hand :=
  .one (.calls _ m.runs (fun f hf => .inl ⟨f, List.mem_of_mem_tail hf, rfl⟩)
    fun r hr _ hv => .inl ⟨r, hr, hv⟩)

theorem enter_moves {w : WordId} (hw : InHand hand (.word w)) : Moves L m hand (m.enter w) hand := by
  refine .one (.calls _ m.runs (fun f hf => ?_) fun r hr _ hv => .inl ⟨r, hr, hv⟩)
  rcases List.mem_cons.1 hf with rfl | hf
  · exact .inr hw
  · exact .inl ⟨f, hf, rfl⟩

theorem startRun_moves {w : WordId} {pending : Pending} (hw : InHand hand (.word w))
    (hp : ∀ v ∈ pending.values, v ∈ hand) : Moves L m hand (m.startRun w pending) hand := by
  refine .one (.calls _ _ (fun f hf => ?_) fun r hr v hv => ?_)
  · rcases List.mem_cons.1 hf with rfl | hf
    · exact .inr hw
    · exact .inl ⟨f, hf, rfl⟩
  · rcases List.mem_cons.1 hr with rfl | hr
    · exact .inr (hp v hv)
    · exact .inl ⟨r, hr, hv⟩

theorem proceed_moves {flow : Flow} (hf : ∀ v ∈ flow.values, v ∈ hand) :
    Moves L m hand (m.proceed flow) hand := by
  cases flow with
  | next => exact popFrame_moves
  | leave =>
    simp only [proceed]
    split
    · exact popFrame_moves
    · exact popFrame_moves.trans popFrame_moves
  | call w => exact popFrame_moves.trans (enter_moves (.xt (hf _ List.mem_cons_self)))
  | nest w pending =>
    exact startRun_moves (.xt (hf _ List.mem_cons_self))
      fun v hv => hf v (List.mem_cons_of_mem _ hv)

theorem unwind_moves (e : Error) {rs : List Run} (hr : m.runs = rs) :
    ∃ hand', Moves L m hand (unwind e m rs).machine hand' := by
  induction rs generalizing e m hand with
  | nil => exact ⟨hand, .refl _ _⟩
  | cons r rs ih =>
    have hcut : Moves L m hand { m.truncateFrames r.base with runs := rs } hand := by
      refine .one (.calls _ _ (fun f hf => .inl ⟨f, List.mem_of_mem_drop hf, rfl⟩)
        fun q hq v hv => .inl ⟨q, ?_, hv⟩)
      rw [hr]
      exact List.mem_cons_of_mem _ hq
    have hrest : ∀ {m₁ : Machine} {hand₁ : List Value} (e : Error), Moves L m hand m₁ hand₁ →
        m₁.runs = rs → ∃ hand', Moves L m hand (unwind e m₁ rs).machine hand' := by
      intro m₁ hand₁ e h hr
      obtain ⟨hand', h'⟩ : ∃ hand', Moves L m₁ hand₁ _ hand' := ih e hr
      exact ⟨hand', h.trans h'⟩
    rw [unwind]
    cases r.pending with
    | outside => exact ⟨hand, hcut⟩
    | handler depth after => exact hrest e hcut rfl
    | run => exact hrest e hcut rfl
    | attempt =>
      have hp : Does L { m.truncateFrames r.base with runs := rs } hand
        (M.pushNew (.text e.message)) fun _ => [] :=
        M.pushNew_does (Store.text_items e.message) (Types.allows_of_record? rfl)
      have hb := (M.pushNew_blind (.text e.message)).context_eq
        { m.truncateFrames r.base with runs := rs }
      simp only
      cases hq : M.pushNew (.text e.message) { m.truncateFrames r.base with runs := rs } with
      | ok _ m₁ => exact ⟨_, hcut.trans ((hp.1 _ _ hq).trans popFrame_moves)⟩
      | error e' m₁ =>
        rw [hq] at hb
        obtain ⟨hand₁, h₁⟩ := hp.2 _ _ hq
        exact hrest e' (hcut.trans h₁) (congrArg Context.runs hb)

theorem fail_moves (e : Error) : ∃ hand', Moves L m hand (m.fail e).machine hand' :=
  unwind_moves e rfl

theorem fail_after_moves {m₀ : Machine} {hand₀ : List Value} (h : Moves L m₀ hand₀ m hand)
    (e : Error) : ∃ hand', Moves L m₀ hand₀ (m.fail e).machine hand' := by
  obtain ⟨hand', h'⟩ : ∃ hand', Moves L m hand _ hand' := fail_moves e
  exact ⟨hand', h.trans h'⟩

theorem settle_moves {act : M Flow} (ha : Does L m hand act Flow.values) :
    ∃ hand', Moves L m hand (settle (act m)).machine hand' := by
  cases hr : act m with
  | ok flow m' =>
    exact ⟨_, (ha.1 flow m' hr).trans
      (proceed_moves fun v hv => List.mem_append_left _ hv)⟩
  | error e m' =>
    obtain ⟨hand₁, h₁⟩ := ha.2 e m' hr
    exact fail_after_moves h₁ e

theorem resume_does {pending : Pending} (hp : ∀ v ∈ pending.values, v ∈ hand)
    (hL : ∀ depth p, pending = .handler depth (.store p) → L (.store p)) :
    Does L m hand (resume pending) Flow.values := by
  cases pending with
  | outside => exact .pure nofun
  | run => exact .pure nofun
  | handler depth after =>
    exact (Operator.conclude_does hp fun p hp => hL depth p (by rw [hp])).bind fun _ _ _ =>
      .pure nofun
  | attempt =>
    exact (M.pushNew_does (Store.text_items _) (Types.allows_of_record? rfl)).bind fun _ _ _ =>
      .pure nofun

theorem stepElement_moves {f : Frame} {rest : List Frame} (hf : m.frames = f :: rest) :
    ∃ hand', Moves L m hand (m.stepElement f rest).machine hand' := by
  have hroot : .word f.word ∈ m.roots := m.frame_mem_roots (hf ▸ List.mem_cons_self)
  have hpass : ∀ hand : List Value, Moves L m hand (m.pass f rest) hand := by
    intro hand
    refine .head (.calls ({ f with ip := f.ip + 1 } :: rest) m.runs (fun g hg => .inl ?_)
      fun r hr v hv => .inl ⟨r, hr, hv⟩) (.one (.other rfl))
    rcases List.mem_cons.1 hg with rfl | hg
    · exact ⟨f, hf ▸ List.mem_cons_self, rfl⟩
    · exact ⟨g, hf ▸ List.mem_cons_of_mem _ hg, rfl⟩
  have hfail : ∀ e, ∃ hand', Moves L m hand ((m.pass f rest).fail e).machine hand' :=
    fun e => fail_after_moves (hpass hand) e
  rw [stepElement_eq]
  cases hb : (m.heap.word f.word).body[f.ip]? with
  | none => exact ⟨hand, popFrame_moves⟩
  | some e =>
    cases e with
    | direct c => exact hfail _
    | lit v => exact hfail _
    | recurse =>
      exact ⟨_, .head (.word (.inl hroot))
        ((hpass _).trans (enter_moves (.xt List.mem_cons_self)))⟩
    | call w =>
      refine ⟨_, .head (.word (.inl hroot)) (.head (.link (x := w) (.xt List.mem_cons_self) ?_)
        ((hpass _).trans (enter_moves (.xt List.mem_cons_self))))⟩
      exact List.mem_flatMap.2 ⟨.call w, Array.mem_toList_iff.2 (Array.mem_of_getElem? hb),
        List.mem_cons_self⟩

theorem stepFrame_moves {f : Frame} {rest : List Frame} (hf : m.frames = f :: rest)
    (hL : ∀ p, (m.heap.word f.word).code = .ok (.native p) → ∀ e, p.Edits m e → L e) :
    ∃ hand', Moves L m hand (m.stepFrame f rest).machine hand' := by
  unfold stepFrame
  cases hc : (m.heap.word f.word).code with
  | error e => exact fail_moves e
  | ok c =>
    cases c with
    | docol => exact stepElement_moves hf
    | native p => exact settle_moves (p.run_does hf hc (hL p hc))
    | indirect body entry =>
      have hroot : .word f.word ∈ m.roots := m.frame_mem_roots (hf ▸ List.mem_cons_self)
      have hbody : .word body ∈ (m.heap.word f.word).refs := by
        unfold Word.code at hc
        split at hc
        · rename_i c' h₀
          cases hc
          exact List.mem_flatMap.2 ⟨_, Array.mem_toList_iff.2 (Array.mem_of_getElem? h₀),
            List.mem_cons_self⟩
        · cases hc
      have hgain : Moves L m hand m
          (.xt body :: .xt f.word :: .ptr (m.heap.pointer f.word 1) :: hand) :=
        .head (.address hf (.inr ⟨body, entry, hc⟩) addressable_one) (.head (.word (.inl hroot))
          (.one (.link (.xt List.mem_cons_self) hbody)))
      have hp : Does L m (.xt body :: .xt f.word :: .ptr (m.heap.pointer f.word 1) :: hand)
        (M.push (.ptr (m.heap.pointer f.word 1))) fun _ => [] := M.push_does (by simp)
      have hctx := (M.push_blind (.ptr (m.heap.pointer f.word 1))).context_eq m
      simp only
      cases hq : M.push (.ptr (m.heap.pointer f.word 1)) m with
      | ok _ m₁ =>
        rw [hq] at hctx
        have hfr : m₁.frames = f :: rest := (congrArg Context.frames hctx).trans hf
        refine ⟨_, hgain.trans ((hp.1 _ _ hq).tail (.calls _ m₁.runs (fun g hg => ?_)
          fun r hr v hv => .inl ⟨r, hr, hv⟩))⟩
        rcases List.mem_cons.1 hg with rfl | hg
        · exact .inr (.xt List.mem_cons_self)
        · exact .inl ⟨g, hfr ▸ List.mem_cons_of_mem _ hg, rfl⟩
      | error e m₁ =>
        obtain ⟨hand₁, h₁⟩ := hp.2 _ _ hq
        exact fail_after_moves (hgain.trans h₁) e

/-- The values kept for the end of a run may be taken in hand. -/
theorem operands_moves {r : Run} (hr : r ∈ m.runs) :
    ∀ vs : List Value, (∀ v ∈ vs, v ∈ r.pending.values) → Moves L m hand m (vs ++ hand)
  | [], _ => .refl _ _
  | v :: vs, h =>
    (operands_moves hr vs fun u hu => h u (List.mem_cons_of_mem _ hu)).tail
      (.operand hr (h v List.mem_cons_self))

/-- **A step of the engine is made of moves.** -/
theorem step_moves (m : Machine) : ∃ hand, Moves m.StepEdits m [] m.step.machine hand := by
  cases hr : m.runs with
  | nil =>
    rw [step, hr]
    exact ⟨[], .refl _ _⟩
  | cons r rs =>
    by_cases hb : m.frames.length ≤ r.base
    · rw [step_of_back hr hb]
      have hgain : Moves m.StepEdits m [] { m with runs := rs } (r.pending.values ++ []) := by
        refine (operands_moves (hr ▸ List.mem_cons_self) _ fun v hv => hv).tail
          (.calls m.frames _ (fun f hf => .inl ⟨f, hf, rfl⟩) fun q hq v hv => .inl ⟨q, ?_, hv⟩)
        rw [hr]
        exact List.mem_cons_of_mem _ hq
      have hdoes : Does m.StepEdits { m with runs := rs } (r.pending.values ++ [])
          (resume r.pending) Flow.values :=
        resume_does (by simp) fun depth p hp => .inr ⟨depth, p, hp ▸ resumed?_eq hr hb, rfl⟩
      have hset := settle_moves hdoes
      cases hp : r.pending with
      | outside => exact ⟨_, hgain⟩
      | _ =>
        rw [hp] at hset hgain
        obtain ⟨hand', h⟩ := hset
        exact ⟨hand', hgain.trans h⟩
    · have hb : r.base < m.frames.length := Nat.lt_of_not_le hb
      cases hi : m.interrupt with
      | true =>
        rw [step_of_interrupt hr hb hi]
        have h : Moves m.StepEdits m [] { m with interrupt := false } [] := .one (.other rfl)
        exact fail_after_moves h .interrupted
      | false =>
        obtain ⟨f, rest, hf⟩ : ∃ f rest, m.frames = f :: rest :=
          List.exists_cons_of_length_pos (Nat.zero_lt_of_lt hb)
        rw [step_of_frame hr hf hb hi]
        exact stepFrame_moves hf fun p hc e he => .inl ⟨p, primitive?_eq hr hf hb hi hc, he⟩

/-! ## The moves of a session -/

/-- What happens next in a session. -/
inductive Next : Phase → Machine → Phase → Machine → Prop
  | add {m : Machine} (b : Builtin) : Next .rest m .rest (m.installAll [b])
  | interrupt {ph : Phase} {m : Machine} : Next ph m ph { m with interrupt := true }
  | fill {m : Machine} (text : String) : Next .rest m .rest (after (fill text m))
  | start {m : Machine} : Next .rest m (.line (m.line.text.length + 2)) m
  | run {m : Machine} {name : String} {w : WordId} (hw : m.find? name = some w) :
    Next .rest m (.word none) (m.startRun w .outside)
  | token {n : Nat} {m m₁ : Machine} {t : String} {w : WordId}
    (ht : nextSourceToken m = .ok (some t) m₁) (hw : m₁.wordToRun? t = some w) :
    Next (.line (n + 1)) m (.word (some n)) (m₁.startRun w .outside)
  | compile {n : Nat} {m m₁ m₂ : Machine} {t : String} (ht : nextSourceToken m = .ok (some t) m₁)
    (hw : m₁.wordToRun? t = none) (hc : compileToken t m₁ = .ok () m₂) :
    Next (.line (n + 1)) m (.line n) m₂
  | badToken {n : Nat} {m m₁ m₂ : Machine} {t : String} {e : Error}
    (ht : nextSourceToken m = .ok (some t) m₁) (hw : m₁.wordToRun? t = none)
    (hc : compileToken t m₁ = .error e m₂) : Next (.line (n + 1)) m .rest m₂.giveUpLine
  | noToken {n : Nat} {m m₁ : Machine} {e : Error} (ht : nextSourceToken m = .error e m₁) :
    Next (.line (n + 1)) m .rest m₁.giveUpLine
  | finish {n : Nat} {m m₁ : Machine} (ht : nextSourceToken m = .ok none m₁) :
    Next (.line (n + 1)) m .rest (after (M.put m₁.prompt m₁))
  | exhaust {m : Machine} : Next (.line 0) m .rest (after (M.put m.prompt m))
  | step {left? : Option Nat} {m m₁ : Machine} (hs : m.step = .running m₁) :
    Next (.word left?) m (.word left?) m₁
  | ended {left? : Option Nat} {m m₁ : Machine} (hs : m.step = .ended m₁) :
    Next (.word left?) m (.afterWord left?) m₁
  | failed {m m₁ : Machine} {e : Error} (hs : m.step = .failed e m₁) :
    Next (.word none) m .rest m₁
  | failedLine {n : Nat} {m m₁ : Machine} {e : Error} (hs : m.step = .failed e m₁) :
    Next (.word (some n)) m .rest m₁.giveUpLine

/-- The bodies that what happens next may change: a token that is compiled changes the word under
    construction, or becomes the action of the word created last. -/
def Edits : Phase → Machine → Edit → Prop
  | .word _, m, e => m.StepEdits e
  | .line _, m, .action w _ _ =>
    m.compiler.mode = .runtimeCompiling ∧ m.compiler.last? = some w
  | .line _, _, .build _ => True
  | _, _, _ => False

theorem nextSourceToken_owned (m : Machine) : (after (nextSourceToken m)).owned = m.owned := by
  unfold nextSourceToken
  have hc : (after (checkInterrupt m)).owned = m.owned := by
    unfold checkInterrupt
    split <;> rfl
  cases h : checkInterrupt m with
  | error e m₁ =>
    rw [M.bind_error h]
    rw [h] at hc
    exact hc
  | ok u m₁ =>
    rw [M.bind_ok h]
    rw [h] at hc
    rw [← hc]
    show (after ((if m₁.inComment = true then _ else _ : M (Option String)) m₁)).owned = _
    split
    · show (after ((if m₁.skipComment.inComment = true then _ else _ : M (Option String))
        m₁.skipComment)).owned = _
      split <;> rfl
    · rfl

theorem nextSourceToken_moves {t? : Option String} {m₁ : Machine}
    (h : nextSourceToken m = .ok t? m₁) : Moves L m hand m₁ hand := by
  have := nextSourceToken_owned m
  rw [h] at this
  exact .one (.other this)

theorem giveUpLine_moves : Moves L m hand m.giveUpLine hand := by
  have h₁ : Moves L m hand { m with data := m.data.clear } hand := .one (.data nofun)
  have h₂ : Moves L { m with data := m.data.clear } hand
      { m with data := m.data.clear, temp := m.temp.clear } hand := .one (.temp nofun)
  have h₃ : Moves L { m with data := m.data.clear, temp := m.temp.clear } hand
      { m with data := m.data.clear, temp := m.temp.clear, self := m.self.clear } hand :=
    .one (.self nofun)
  refine h₁.trans (h₂.trans (h₃.trans (.head (.calls [] [] nofun nofun)
    (.head (.compiler (c := m.compiler.reset) (.inl rfl)) (.one (.other rfl))))))

theorem interpretNumber_does (token : String) (hL : ∀ w, L (.build w)) :
    Does L m hand (interpretNumber token) fun _ => [] := by
  unfold interpretNumber
  cases Literal.number? token with
  | none => exact .throw _
  | some n =>
    have hn : n.toValue.refs = [] := by cases n <;> rfl
    refine M.mode_does.bind fun mode _ _ => ?_
    cases mode with
    | interpreting => exact M.pushPlain_does hn
    | compiling => exact M.compilePlain_does hn hL
    | compilingPostponed => exact .throw _
    | runtimeCompiling => exact .throw _

theorem compilePostponed_does {w : WordId} (hw : .xt w ∈ hand) (hL : ∀ w, L (.build w)) :
    Does L m hand (compilePostponed w) fun _ => [] :=
  .get <| .ite (M.compile_does (.call (.xt hw)) hL)
    ((M.compileLiteral_does hw hL).bind fun _ _ _ => M.compileBuiltin_does _ hL)

/-- A token that runs no word. -/
theorem compileToken_does (token : String) (hL : ∀ w, L (.build w))
    (hA : ∀ w body, m.compiler.mode = .runtimeCompiling → m.compiler.last? = some w →
      L (.action w body 1)) : Does L m hand (compileToken token) fun _ => [] := by
  rw [compileToken_eq]
  refine .get ?_
  cases hf : m.find? token with
  | none => exact interpretNumber_does token hL
  | some w =>
    refine .gain (.word (.inl (m.find?_mem_roots hf))) ?_
    cases hm : m.compiler.mode with
    | interpreting => exact M.compileWord_does (.xt List.mem_cons_self) hL
    | compiling => exact M.compileWord_does (.xt List.mem_cons_self) hL
    | compilingPostponed =>
      exact (M.setMode_does _).bind fun _ _ _ => compilePostponed_does List.mem_cons_self hL
    | runtimeCompiling =>
      refine (M.setMode_does _).bind fun _ m₁ h₁ => setLastCode_does (.xt List.mem_cons_self) ?_
      cases h₁
      exact fun x hx => hA x w hm hx

theorem installAll_moves (bs : List Builtin) : Moves L m hand (m.installAll bs) hand := by
  unfold installAll
  induction bs generalizing m with
  | nil => exact .refl _ _
  | cons b bs ih =>
    refine Moves.trans ((M.install_moves fun e he => ?_).tail
      (.drop fun v hv => List.mem_cons_of_mem _ hv)) ih
    simp only [Word.ofPrimitive, List.mem_toArray, List.mem_singleton] at he
    subst he
    exact nofun

/-- Everything that a new machine has is put into an empty one. -/
theorem create_moves (p : Params) (bs : List Builtin) :
    Moves L (empty p) hand (create p bs) hand := by
  refine (installAll_moves bs).trans ?_
  unfold create
  have hplain : ∀ w ∈ initialConstants, ∃ name v, w = .constant name v ∧ v.refs = [] := by
    intro w hw
    simp only [initialConstants, List.mem_append, List.mem_map] at hw
    rcases hw with ⟨⟨name, t, _, _⟩, -, rfl⟩ | ⟨op, -, rfl⟩
    · exact ⟨name, .type t, rfl, rfl⟩
    · exact ⟨op.constantName, .binop op, rfl, rfl⟩
  generalize (empty p).installAll bs = m
  generalize initialConstants = ws at hplain
  induction ws generalizing m with
  | nil => exact .refl _ _
  | cons w ws ih =>
    obtain ⟨name, v, rfl, hv⟩ := hplain w List.mem_cons_self
    refine .trans (.head (.plain hv) ((M.install_moves fun e he => ?_).tail (.drop ?_)))
      (ih _ fun w hw => hplain w (List.mem_cons_of_mem _ hw))
    · simp only [Word.constant, List.mem_toArray, List.mem_cons, List.not_mem_nil, or_false] at he
      rcases he with rfl | rfl
      · exact fun _ h => by cases h
      · exact List.mem_cons_self
    · exact fun u hu => List.mem_cons_of_mem _ (List.mem_cons_of_mem _ hu)

theorem fill_owned (text : String) (m : Machine) : (after (fill text m)).owned = m.owned := by
  unfold fill
  cases m.line.fill text <;> rfl

theorem put_owned (text : String) (m : Machine) : (after (M.put text m)).owned = m.owned := by
  unfold M.put
  cases m.output.push text <;> rfl

/-- **Whatever happens in a session is made of moves.** -/
theorem Next.moves {ph ph' : Phase} {m m' : Machine} (h : Next ph m ph' m') :
    ∃ hand, Moves (Edits ph m) m [] m' hand := by
  cases h with
  | add b => exact ⟨[], installAll_moves [b]⟩
  | interrupt => exact ⟨[], .one (.other rfl)⟩
  | fill text => exact ⟨[], .one (.other (fill_owned text m))⟩
  | start => exact ⟨[], .refl _ _⟩
  | run hw =>
    exact ⟨_, .head (.word (.inl (m.find?_mem_roots hw)))
      (startRun_moves (.xt List.mem_cons_self) nofun)⟩
  | @token n _ m₁ t w ht hw =>
    have hw := m₁.find?_mem_roots (Option.filter_eq_some_iff.1 hw).1
    exact ⟨_, (nextSourceToken_moves ht).trans (.head (.word (.inl hw))
      (startRun_moves (.xt List.mem_cons_self) nofun))⟩
  | @compile n _ m₁ _ t ht hw hc =>
    have hm := nextSourceToken_owned m
    rw [ht] at hm
    have hcompiler : m₁.compiler = m.compiler := congrArg Owned.compiler hm
    have hd : Does (Edits (.line (n + 1)) m) m₁ [] (compileToken t) fun _ => [] :=
      compileToken_does t (fun _ => trivial) fun w body hmode hlast => by
        rw [hcompiler] at hmode hlast
        exact ⟨hmode, hlast⟩
    exact ⟨_, (nextSourceToken_moves ht).trans (hd.1 _ _ hc)⟩
  | @badToken n _ m₁ _ t e ht hw hc =>
    have hm := nextSourceToken_owned m
    rw [ht] at hm
    have hcompiler : m₁.compiler = m.compiler := congrArg Owned.compiler hm
    have hd : Does (Edits (.line (n + 1)) m) m₁ [] (compileToken t) fun _ => [] :=
      compileToken_does t (fun _ => trivial) fun w body hmode hlast => by
        rw [hcompiler] at hmode hlast
        exact ⟨hmode, hlast⟩
    obtain ⟨hand', h⟩ := hd.2 _ _ hc
    exact ⟨hand', (nextSourceToken_moves ht).trans (h.trans giveUpLine_moves)⟩
  | noToken ht =>
    have hm := nextSourceToken_owned m
    rw [ht] at hm
    exact ⟨[], .head (.other hm) giveUpLine_moves⟩
  | finish ht =>
    exact ⟨[], (nextSourceToken_moves ht).trans (.one (.other (put_owned _ _)))⟩
  | exhaust => exact ⟨[], .one (.other (put_owned _ _))⟩
  | step hs =>
    have h := m.step_moves
    rw [hs] at h
    exact h
  | ended hs =>
    have h := m.step_moves
    rw [hs] at h
    exact h
  | failed hs =>
    have h := m.step_moves
    rw [hs] at h
    exact h
  | failedLine hs =>
    have h := m.step_moves
    rw [hs] at h
    obtain ⟨hand, h⟩ := h
    exact ⟨hand, h.trans giveUpLine_moves⟩

/-- What can come of a session. -/
inductive Leads : Phase → Machine → Phase → Machine → Prop
  | refl (ph : Phase) (m : Machine) : Leads ph m ph m
  | tail {ph ph₁ ph' : Phase} {m m₁ m' : Machine} (h : Leads ph m ph₁ m₁)
    (hn : Next ph₁ m₁ ph' m') : Leads ph m ph' m'

/-- What comes next in a line, if nothing comes from outside. -/
def move : Phase → Machine → Phase × Machine
  | .rest, m => (.rest, m)
  | .line 0, m => (.rest, after (M.put m.prompt m))
  | .line (n + 1), m =>
    match nextSourceToken m with
    | .error _ m => (.rest, m.giveUpLine)
    | .ok none m => (.rest, after (M.put m.prompt m))
    | .ok (some t) m =>
      match m.wordToRun? t with
      | some w => (.word (some n), m.startRun w .outside)
      | none =>
        match compileToken t m with
        | .ok _ m => (.line n, m)
        | .error _ m => (.rest, m.giveUpLine)
  | .word left?, m =>
    match m.step with
    | .running m => (.word left?, m)
    | .ended m => (.afterWord left?, m)
    | .failed _ m => (.rest, if left?.isSome then m.giveUpLine else m)

theorem next_move {ph : Phase} {m : Machine} (h : ph ≠ .rest) :
    Next ph m (move ph m).1 (move ph m).2 := by
  cases ph with
  | rest => exact absurd rfl h
  | line n =>
    cases n with
    | zero => exact .exhaust
    | succ n =>
      rcases ht : nextSourceToken m with ⟨_ | t, m₁⟩ | ⟨e, m₁⟩
      · simp only [move, ht]
        exact .finish ht
      · cases hw : m₁.wordToRun? t with
        | some w =>
          simp only [move, ht, hw]
          exact .token ht hw
        | none =>
          cases hc : compileToken t m₁ with
          | ok _ m₂ =>
            simp only [move, ht, hw, hc]
            exact .compile ht hw hc
          | error e m₂ =>
            simp only [move, ht, hw, hc]
            exact .badToken ht hw hc
      · simp only [move, ht]
        exact .noToken ht
  | word left? =>
    cases hs : m.step with
    | running m₁ =>
      simp only [move, hs]
      exact .step hs
    | ended m₁ =>
      simp only [move, hs]
      exact .ended hs
    | failed e m₁ =>
      simp only [move, hs]
      cases left? with
      | none => exact .failed hs
      | some n => exact .failedLine hs

/-- What comes of a number of moves in a line. -/
def moves : Nat → Phase → Machine → Phase × Machine
  | 0, ph, m => (ph, m)
  | k + 1, ph, m => moves k (move ph m).1 (move ph m).2

theorem Leads.moves {ph₀ ph : Phase} {m₀ m : Machine} (h : Leads ph₀ m₀ ph m) (k : Nat) :
    Leads ph₀ m₀ (Machine.moves k ph m).1 (Machine.moves k ph m).2 := by
  induction k generalizing ph m with
  | zero => exact h
  | succ k ih =>
    by_cases hp : ph = .rest
    · subst hp
      exact ih h
    · exact ih (h.tail (next_move hp))

theorem Reached.next {ph ph' : Phase} {m m' : Machine} (h : Reached ph m) (hn : Next ph m ph' m') :
    Reached ph' m' := by
  cases hn with
  | add b => exact h.add b
  | interrupt => exact h.interrupt
  | fill text => exact h.fill text
  | start => exact h.start
  | run hw => exact h.run hw
  | token ht hw => exact h.token ht hw
  | compile ht hw hc => exact h.compile ht hw hc
  | badToken ht hw hc => exact h.badToken ht hw hc
  | noToken ht => exact h.noToken ht
  | finish ht => exact h.finish ht
  | exhaust => exact h.exhaust
  | step hs => exact h.step hs
  | ended hs => exact h.ended hs
  | failed hs => exact h.failed hs
  | failedLine hs => exact h.failedLine hs

theorem Reached.leads {ph ph' : Phase} {m m' : Machine} (h : Reached ph m)
    (hl : Leads ph m ph' m') : Reached ph' m' := by
  induction hl with
  | refl => exact h
  | tail _ hn ih => exact (ih h).next hn

/-- What holds of new machines and is kept by whatever happens next holds all through a session. -/
theorem Reached.invariant {P : Phase → Machine → Prop} (hc : ∀ p bs, P .rest (Machine.create p bs))
    (hn : ∀ {ph ph' m m'}, Reached ph m → P ph m → Next ph m ph' m' → P ph' m') {ph : Phase}
    {m : Machine} (h : Reached ph m) : P ph m := by
  induction h with
  | create p bs => exact hc p bs
  | add h b ih => exact hn h ih (.add b)
  | interrupt h ih => exact hn h ih .interrupt
  | fill h text ih => exact hn h ih (.fill text)
  | start h ih => exact hn h ih .start
  | run h hw ih => exact hn h ih (.run hw)
  | token h ht hw ih => exact hn h ih (.token ht hw)
  | compile h ht hw hc ih => exact hn h ih (.compile ht hw hc)
  | badToken h ht hw hc ih => exact hn h ih (.badToken ht hw hc)
  | noToken h ht ih => exact hn h ih (.noToken ht)
  | finish h ht ih => exact hn h ih (.finish ht)
  | exhaust h ih => exact hn h ih .exhaust
  | step h hs ih => exact hn h ih (.step hs)
  | ended h hs ih => exact hn h ih (.ended hs)
  | failed h hs ih => exact hn h ih (.failed hs)
  | failedLine h hs ih => exact hn h ih (.failedLine hs)

namespace Leads

variable {ph₀ : Phase} {m₀ : Machine} {fuel : Nat}

theorem trans {ph ph' : Phase} {m m' : Machine} (h : Leads ph₀ m₀ ph m) (h' : Leads ph m ph' m') :
    Leads ph₀ m₀ ph' m' := by
  induction h' with
  | refl => exact h
  | tail _ hn ih => exact (ih h).tail hn

theorem goes {n : Nat} {left? : Option Nat} {m m' : Machine} (h : Leads ph₀ m₀ (.word left?) m)
    (hg : Goes n m m') : Leads ph₀ m₀ (.word left?) m' := by
  induction hg with
  | refl => exact h
  | step hs _ ih => exact ih (h.tail (.step hs))

/-- What can come of a token. -/
theorem interpretToken {n : Nat} {m m₁ : Machine} {t : String}
    {r : EStateM.Result Error Machine Unit} (h : Leads ph₀ m₀ (.line (n + 1)) m)
    (ht : nextSourceToken m = .ok (some t) m₁) (hr : Machine.interpretToken fuel t m₁ = some r) :
    match r with
    | .ok _ m₂ => Leads ph₀ m₀ (.line n) m₂
    | .error _ m₂ => Leads ph₀ m₀ .rest m₂.giveUpLine := by
  rw [interpretToken_eq] at hr
  cases hw : m₁.wordToRun? t with
  | some w =>
    rw [hw] at hr
    have hrun := h.tail (.token ht hw)
    obtain ⟨k, x, -, hg, ⟨y, hs, rfl⟩ | ⟨e, y, hs, rfl⟩⟩ := steps_eq_some hr
    · exact (hrun.goes hg).tail (.ended hs)
    · exact (hrun.goes hg).tail (.failedLine hs)
  | none =>
    rw [hw] at hr
    cases hc : compileToken t m₁ with
    | ok u m₂ =>
      rw [hc] at hr
      cases hr
      exact h.tail (.compile ht hw hc)
    | error e m₂ =>
      rw [hc] at hr
      cases hr
      exact h.tail (.badToken ht hw hc)

/-- What can come of the rest of a line. -/
theorem interpret {n : Nat} {m : Machine} {r : EStateM.Result Error Machine Unit}
    (h : Leads ph₀ m₀ (.line n) m) (hr : Machine.interpret fuel n m = some r) :
    Leads ph₀ m₀ .rest (after (closeLine r)) := by
  induction n generalizing m with
  | zero =>
    cases hr
    exact h.tail .exhaust
  | succ n ih =>
    rw [interpret_succ] at hr
    cases ht : nextSourceToken m with
    | error e m₁ =>
      rw [ht] at hr
      cases hr
      exact h.tail (.noToken ht)
    | ok t m₁ =>
      rw [ht] at hr
      cases t with
      | none =>
        cases hr
        exact h.tail (.finish ht)
      | some t =>
        dsimp only at hr
        cases hi : Machine.interpretToken fuel t m₁ with
        | none =>
          rw [hi] at hr
          cases hr
        | some q =>
          rw [hi] at hr
          have hl := h.interpretToken ht hi
          cases q with
          | ok u m₂ => exact ih hl hr
          | error e m₂ =>
            cases hr
            exact hl

/-- What can come of a line. -/
theorem processLine {m : Machine} {r : EStateM.Result Error Machine Unit}
    (h : Leads ph₀ m₀ .rest m) (hr : Machine.processLine fuel m = some r) :
    Leads ph₀ m₀ .rest (after r) := by
  rw [processLine_eq] at hr
  obtain ⟨q, hq, rfl⟩ := Option.map_eq_some_iff.1 hr
  exact (h.tail .start).interpret hq

end Leads

end Machine
end ThreadedForth
