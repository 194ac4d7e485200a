/-
  Runs of one composed word, from the call until its frame is left.
-/
import ThreadedForth.Proofs.CodeSteps
import ThreadedForth.Proofs.Debugging
import ThreadedForth.Proofs.FrozenCode
import ThreadedForth.Proofs.Interrupts

namespace ThreadedForth
namespace Machine

variable {x x' : Machine} {w : WordId} {rest : List Frame} {rs : List Run}

/-- The word `w` runs above the frames `rest`, and the runs inside of it begin above its frame. -/
structure Grounded (w : WordId) (rest : List Frame) (rs : List Run) (x : Machine) : Prop where
  frames : ∃ fs, x.frames = fs ++ rest ∧ (fs.map Frame.word).getLast? = some w
  runs : ∃ Q, x.runs = Q ++ rs ∧ Nested (rest.length + 1) x.frames.length Q

/-- The word has come back to the frames `rest`, and no interrupt is due. -/
structure CameBack (rest : List Frame) (rs : List Run) (x : Machine) : Prop where
  frames : x.frames = rest
  runs : x.runs = rs
  calm : x.interrupt = false

/-- The word has come back to the frames `rest`, or the next step is an error that leaves it. -/
def Left (rest : List Frame) (rs : List Run) (x : Machine) : Prop :=
  CameBack rest rs x ∨ ∃ e y, x.step = Machine.unwind e y rs

/-- A word that is composed has been so before: `does>` never gives it that action. -/
theorem Leads.docol_before {ph ph' : Phase} (hl : Leads ph x ph' x') (h : Reached ph x)
    (hw : x.heap.Has (.word w)) (hc : (x'.heap.word w).code = .ok .docol) :
    (x.heap.word w).code = .ok .docol := by
  rw [Word.code_eq_ok_iff] at hc ⊢
  rcases (hl.follows h hw).1.code with hsame | ⟨_, _, -, hx⟩
  · exact hsame.symm.trans hc
  · cases hc.symm.trans hx

theorem unwind_ne_ended (e : Error) (x y : Machine) (rs : List Run) :
    Machine.unwind e x rs ≠ .ended y := by
  induction rs generalizing e x with
  | nil =>
    intro h
    cases h
  | cons r rs ih =>
    rw [Machine.unwind]
    cases r.pending with
    | outside =>
      intro h
      cases h
    | attempt =>
      dsimp only
      split
      · intro h
        cases h
      · exact ih _ _
    | handler | run => exact ih _ _

theorem settle_ne_ended (r : EStateM.Result Error Machine Flow) (y : Machine) :
    settle r ≠ .ended y := by
  cases r with
  | ok flow x =>
    intro h
    cases h
  | error e x => exact unwind_ne_ended _ _ _ _

/-- When the word comes back to nothing, its run ends. -/
theorem CameBack.ended (h : CameBack [] [⟨0, .outside⟩] x) : x.step = .ended { x with runs := [] } :=
  step_of_back h.runs (by simp [h.frames])

namespace Grounded

/-- The frames are cut, but not down to the one of the word. -/
theorem frames_drop {fs : List Frame} {k : Nat} (hx : x.frames = fs ++ rest)
    (hw : (fs.map Frame.word).getLast? = some w) (hk : k + rest.length < x.frames.length)
    (hx' : x'.frames = x.frames.drop k) :
    ∃ fs', x'.frames = fs' ++ rest ∧ (fs'.map Frame.word).getLast? = some w := by
  rw [hx, List.length_append] at hk
  refine ⟨fs.drop k, by rw [hx', hx, List.drop_append_of_le_length (by omega)], ?_⟩
  rw [List.map_drop, List.getLast?_drop, if_neg (by rw [List.length_map]; omega), hw]

theorem unwind (e : Error) (Q : List Run) {fs : List Frame} (hx : x.frames = fs ++ rest)
    (hw : (fs.map Frame.word).getLast? = some w) (hn : Nested (rest.length + 1) x.frames.length Q) :
    (∃ x', Machine.unwind e x (Q ++ rs) = .running x' ∧ Grounded w rest rs x') ∨
      ∃ e' y, Machine.unwind e x (Q ++ rs) = Machine.unwind e' y rs := by
  induction Q generalizing e x fs with
  | nil => exact .inr ⟨e, x, rfl⟩
  | cons q Q ih =>
    obtain ⟨h₁, h₂, h₃, h₄⟩ := hn
    have hbase := h₄.le
    generalize hy : ({ x.truncateFrames q.base with runs := Q ++ rs } : Machine) = y
    have hframes : y.frames = x.frames.drop (x.frames.length - q.base) := by
      subst hy
      rfl
    have hruns : y.runs = Q ++ rs := by
      subst hy
      rfl
    have hlen : y.frames.length = q.base := by
      rw [hframes, List.length_drop]
      omega
    obtain ⟨gs, hgs, hlast⟩ := frames_drop hx hw (by omega) hframes
    have hrest : ∀ (e : Error) (s : Machine), s.frames = y.frames →
        (∃ x', Machine.unwind e s (Q ++ rs) = .running x' ∧ Grounded w rest rs x') ∨
          ∃ e' z, Machine.unwind e s (Q ++ rs) = Machine.unwind e' z rs := by
      intro e s hs
      refine ih e (hs.trans hgs) hlast ?_
      rw [hs, hlen]
      exact h₄.mono (Nat.sub_le _ _)
    rw [List.cons_append, Machine.unwind, hy]
    cases hp : q.pending with
    | outside => exact absurd hp h₃
    | handler depth after => exact hrest e y rfl
    | run => exact hrest e y rfl
    | attempt =>
      dsimp only
      have hb := (M.pushNew_blind (.text e.message)).context_eq y
      cases hq : M.pushNew (.text e.message) y with
      | error e' s =>
        rw [hq] at hb
        exact hrest e' s (congrArg Context.frames hb)
      | ok _ s =>
        rw [hq] at hb
        have hs : s.frames = y.frames := congrArg Context.frames hb
        have hpop : (s.proceed .next).frames = y.frames.drop 1 := by
          show s.frames.tail = _
          rw [hs, List.drop_one]
        refine .inl ⟨s.proceed .next, rfl, frames_drop hgs hlast (by omega) hpop, Q, ?_, ?_⟩
        · exact (congrArg Context.runs hb).trans hruns
        · rw [hpop, List.length_drop, hlen]
          exact h₄

theorem of_eq {y : Machine} (h : Grounded w rest rs x) (hf : y.frames = x.frames)
    (hr : y.runs = x.runs) : Grounded w rest rs y :=
  ⟨hf ▸ h.frames, by rw [hf, hr]; exact h.runs⟩

/-- An error is caught inside of the word, or it leaves it. -/
theorem fail (h : Grounded w rest rs x) (e : Error) :
    (∃ x', x.fail e = .running x' ∧ Grounded w rest rs x') ∨
      ∃ e' y, x.fail e = Machine.unwind e' y rs := by
  obtain ⟨fs, hf, hlast⟩ := h.frames
  obtain ⟨Q, hQ, hn⟩ := h.runs
  rw [Machine.fail, hQ]
  exact unwind e Q hf hlast hn

theorem enter (h : Grounded w rest rs x) (u : WordId) : Grounded w rest rs (x.enter u) := by
  obtain ⟨fs, hf, hlast⟩ := h.frames
  obtain ⟨Q, hQ, hn⟩ := h.runs
  refine ⟨⟨⟨u, 1⟩ :: fs, by simp [Machine.enter, hf], ?_⟩, Q, hQ, hn.mono (Nat.le_succ _)⟩
  rw [List.map_cons, List.getLast?_cons, hlast]
  rfl

/-- A frame above the one of the word ends. -/
theorem popFrame (h : Grounded w rest rs x) (hlen : rest.length + 2 ≤ x.frames.length)
    (hb : x.runBase < x.frames.length) : Grounded w rest rs x.popFrame := by
  obtain ⟨fs, hf, hlast⟩ := h.frames
  obtain ⟨Q, hQ, hn⟩ := h.runs
  have hframes : x.popFrame.frames = x.frames.drop 1 := List.drop_one.symm
  refine ⟨frames_drop hf hlast (by omega) hframes, Q, hQ, ?_⟩
  rw [hframes, List.length_drop]
  cases Q with
  | nil => exact Nat.le_sub_of_add_le hlen
  | cons q Q =>
    obtain ⟨-, h₂⟩ := hn
    have hbase : x.runBase = q.base := by simp [runBase, hQ]
    exact ⟨by omega, h₂⟩

/-- The frame of the word ends. -/
theorem popLast (h : Grounded w rest rs x) (hlen : ¬ rest.length + 2 ≤ x.frames.length)
    (hb : x.runBase < x.frames.length) (hi : x.interrupt = false) :
    CameBack rest rs x.popFrame := by
  obtain ⟨fs, hf, hlast⟩ := h.frames
  obtain ⟨Q, hQ, hn⟩ := h.runs
  refine ⟨?_, ?_, hi⟩
  · have hone : fs.length = 1 := by
      have hne : fs ≠ [] := by
        rintro rfl
        cases hlast
      have := List.length_pos_iff.2 hne
      rw [hf, List.length_append] at hlen
      omega
    obtain ⟨f, rfl⟩ := List.length_eq_one_iff.1 hone
    show x.frames.tail = rest
    rw [hf]
    rfl
  · cases Q with
    | nil => exact hQ
    | cons q Q =>
      obtain ⟨h₁, -, -, h₄⟩ := hn
      have hbase : x.runBase = q.base := by simp [runBase, hQ]
      have := h₄.le
      omega

/-- A primitive is not the word, which is a composed one. -/
theorem two_le (h : Grounded w rest rs x) (hw : (x.heap.word w).code = .ok .docol) {f : Frame}
    {fs : List Frame} (hf : x.frames = f :: fs) (hc : (x.heap.word f.word).code ≠ .ok .docol) :
    rest.length + 2 ≤ x.frames.length := by
  obtain ⟨gs, hgs, hlast⟩ := h.frames
  rcases gs with _ | ⟨g, _ | ⟨g', gs⟩⟩
  · cases hlast
  · obtain rfl : g.word = w := Option.some.inj hlast
    cases (hgs.symm.trans hf)
    exact absurd hw hc
  · rw [hgs, List.length_append]
    simp only [List.length_cons]
    omega

/-- A primitive may move the frame that it was called from. -/
theorem moved (h : Grounded w rest rs x) (hlen : rest.length + 2 ≤ x.frames.length) (u : Option Nat)
    {y : Machine} (hf' : y.frames = moveParent u x.frames) (hr' : y.runs = x.runs) :
    Grounded w rest rs y := by
  obtain ⟨fs, hf, hlast⟩ := h.frames
  obtain ⟨Q, hQ, hn⟩ := h.runs
  have htwo : 2 ≤ fs.length := by
    rw [hf, List.length_append] at hlen
    omega
  refine ⟨⟨moveParent u fs, ?_, ?_⟩, Q, hr'.trans hQ, ?_⟩
  · rw [hf', hf, moveParent_append (.inr htwo)]
  · rw [map_word_moveParent, hlast]
  · rwa [hf', length_moveParent]

/-- A primitive goes on, in the word or by leaving it, or its error leaves it. -/
theorem settle (h : Grounded w rest rs x) (hb : x.runBase < x.frames.length)
    (hi : x.interrupt = false) (hlen : rest.length + 2 ≤ x.frames.length) (p : Primitive) :
    (∃ x', Machine.settle (p.run x) = .running x' ∧
      (Grounded w rest rs x' ∨ CameBack rest rs x')) ∨
      ∃ e y, Machine.settle (p.run x) = Machine.unwind e y rs := by
  obtain ⟨r, u, g, -, -, hx, -⟩ := p.run_agrees (m := x) (c := x.context) (d := x.context) (n := 2)
    (by omega) (fun _ => Nat.le_refl 2) rfl (.refl _ _)
  have hx : p.run x = _ := hx
  cases r with
  | error e s =>
    have hy : Grounded w rest rs (s.within (x.context.moved u g)) := h.moved hlen u rfl rfl
    rw [hx]
    exact (hy.fail e).imp_left fun ⟨x', hs, hx'⟩ => ⟨x', hs, .inl hx'⟩
  | ok flow s =>
    have hallowed : flow.Allowed p.actsOnCaller p.nests := p.run_flow _ _ _ hx
    have hy : Grounded w rest rs (s.within (x.context.moved u g)) := h.moved hlen u rfl rfl
    have hlen' : (s.within (x.context.moved u g)).frames.length = x.frames.length :=
      length_moveParent u x.frames
    have hquiet : flow = .leave → (s.within (x.context.moved u g)).interrupt = false := by
      rintro rfl
      have hp : p ≠ .host .interrupt := by
        rintro rfl
        cases hallowed
      have hkept := after_interrupt_of_uses
        (p.run_usesOnly (.refl _)) (interrupt_uses hp) x
      rw [hx] at hkept
      exact hkept.trans hi
    have hbase : (s.within (x.context.moved u g)).runBase = x.runBase := rfl
    rw [hx]
    refine .inl ⟨(s.within (x.context.moved u g)).proceed flow, rfl, ?_⟩
    generalize s.within (x.context.moved u g) = y at hy hlen' hquiet hbase
    have hpop : Grounded w rest rs y.popFrame := hy.popFrame (by omega) (by omega)
    cases flow with
    | next => exact .inl hpop
    | call v => exact .inl (hpop.enter v)
    | nest v pending =>
      obtain ⟨Q, hQ, hn⟩ := hy.runs
      obtain ⟨-, hpending⟩ := hallowed
      refine .inl ⟨(hy.enter v).frames, ⟨y.frames.length, pending⟩ :: Q, ?_, Nat.le_succ _,
        (by omega : 0 < y.frames.length), hpending, ?_⟩
      · exact congrArg (List.cons _) hQ
      · obtain ⟨Q', hQ', hn'⟩ := hpop.runs
        obtain rfl : Q' = Q := List.append_cancel_right (hQ'.symm.trans hQ)
        simpa [Machine.popFrame] using hn'
    | leave =>
      simp only [proceed]
      split
      · exact .inl hpop
      · rename_i hback
        rw [isBackAt_iff, Nat.not_le] at hback
        by_cases htwo : rest.length + 2 ≤ y.popFrame.frames.length
        · exact .inl (hpop.popFrame htwo hback)
        · exact .inr (hpop.popLast htwo hback (hquiet rfl))

/-- **A step of a run with a composed word at its bottom.**  When it comes back from that word, no
    interrupt is due. -/
theorem step (h : Grounded w rest rs x) (hc : Covers rs rest)
    (hw : (x.heap.word w).code = .ok .docol) :
    (∃ x', x.step = .running x' ∧ (Grounded w rest rs x' ∨ CameBack rest rs x')) ∨
      ∃ e y, x.step = Machine.unwind e y rs := by
  obtain ⟨fs, hfs, hlast⟩ := h.frames
  obtain ⟨Q, hQ, hn⟩ := h.runs
  obtain ⟨r₀, rs₀, hrs, hr₀⟩ := hc
  have hlen := hn.le
  have hfail : ∀ {e : Error} {y : Machine}, Grounded w rest rs y → y.fail e = x.step →
      (∃ x', x.step = .running x' ∧ (Grounded w rest rs x' ∨ CameBack rest rs x')) ∨
        ∃ e y, x.step = Machine.unwind e y rs := by
    intro e y hy he
    rw [← he]
    exact (hy.fail e).imp_left fun ⟨x', hs, hx'⟩ => ⟨x', hs, .inl hx'⟩
  rcases x.turn with ⟨hr, -⟩ | @⟨q, qs, hr, hback, -⟩ | ⟨hr, hb, hi, -⟩ | @⟨q, qs, f, rest', hr, hf, hlt, hi, -⟩
  · rw [hQ, hrs] at hr
    simp at hr
  · -- A run inside of the word has ended.
    cases Q with
    | nil =>
      cases (hr.symm.trans (hQ.trans hrs))
      omega
    | cons q₁ Q =>
      obtain ⟨rfl, rfl⟩ := List.cons.inj (hr.symm.trans hQ)
      obtain ⟨h₁, h₂, h₃, h₄⟩ := hn
      have htwo := h₄.le
      have hy : Grounded w rest rs { x with runs := Q ++ rs } :=
        ⟨h.frames, Q, rfl, h₄.mono (show q.base - 1 ≤ x.frames.length by omega)⟩
      have hb : Machine.runBase { x with runs := Q ++ rs } < x.frames.length := by
        cases Q with
        | nil =>
          have hbase : Machine.runBase { x with runs := [] ++ rs } = r₀.base := by
            simp [runBase, hrs]
          omega
        | cons r Q =>
          obtain ⟨hr, -⟩ := h₄
          show r.base < x.frames.length
          omega
      have hset : x.step = Machine.settle (resume q.pending { x with runs := Q ++ rs }) := by
        rw [step_of_back hr hback]
        cases hp : q.pending with
        | outside => exact absurd hp h₃
        | _ => rfl
      have hctx := (resume_blind q.pending).context_eq { x with runs := Q ++ rs }
      cases hr : resume q.pending { x with runs := Q ++ rs } with
      | error e s =>
        rw [hr] at hset hctx
        exact hfail (hy.of_eq (congrArg Context.frames hctx) (congrArg Context.runs hctx)) hset.symm
      | ok flow s =>
        obtain rfl := resume_flow _ _ _ _ hr
        rw [hr] at hset hctx
        have hframes : s.frames = x.frames := congrArg Context.frames hctx
        have hruns : s.runs = Q ++ rs := congrArg Context.runs hctx
        refine .inl ⟨s.popFrame, hset, .inl ((hy.of_eq hframes hruns).popFrame ?_ ?_)⟩
        · rw [hframes]
          omega
        · rw [hframes, runBase, hruns]
          exact hb
  · exact hfail (h.of_eq (y := { x with interrupt := false }) rfl rfl) (step_of_interrupt hr hb hi).symm
  · have hb : x.runBase < x.frames.length := by
      simpa [runBase, hr] using hlt
    have hs := step_of_frame hr hf hlt hi
    rw [stepFrame] at hs
    cases hc : (x.heap.word f.word).code with
    | error e =>
      simp only [hc] at hs
      exact hfail h hs.symm
    | ok code =>
      cases code with
      | native p =>
        simp only [hc] at hs
        rw [hs]
        exact h.settle hb hi (h.two_le hw hf (by simp [hc])) p
      | indirect body entry =>
        have htwo := h.two_le hw hf (by simp [hc])
        simp only [hc] at hs
        have hctx := (M.push_blind (.ptr (x.heap.pointer f.word 1))).context_eq x
        cases hp : M.push (.ptr (x.heap.pointer f.word 1)) x with
        | error e s =>
          simp only [hp] at hs
          rw [hp] at hctx
          exact hfail (h.of_eq (congrArg Context.frames hctx) (congrArg Context.runs hctx)) hs.symm
        | ok _ s =>
          simp only [hp] at hs
          rw [hp] at hctx
          refine .inl ⟨_, hs, .inl ?_⟩
          have hpop := h.popFrame htwo hb
          have htail : x.popFrame.frames = rest' := by
            show x.frames.tail = _
            rw [hf]
            rfl
          obtain ⟨gs, hgs, hglast⟩ := hpop.frames
          refine ⟨⟨⟨body, entry⟩ :: gs, ?_, ?_⟩, Q, (congrArg Context.runs hctx).trans hQ, ?_⟩
          · exact congrArg (List.cons _) (htail.symm.trans hgs)
          · rw [List.map_cons, List.getLast?_cons, hglast]
            rfl
          · rwa [hf] at hn
      | docol =>
        simp only [hc] at hs
        have hpass : Grounded w rest rs (x.pass f rest') := by
          refine ⟨?_, Q, hQ, by rwa [hf] at hn⟩
          cases fs with
          | nil => cases hlast
          | cons g gs =>
            obtain ⟨rfl, rfl⟩ := List.cons.inj (hf.symm.trans hfs)
            exact ⟨{ f with ip := f.ip + 1 } :: gs, rfl, hlast⟩
        rw [stepElement_eq] at hs
        cases hbody : (x.heap.word f.word).body[f.ip]? with
        | none =>
          simp only [hbody] at hs
          refine .inl ⟨_, hs, ?_⟩
          by_cases htwo : rest.length + 2 ≤ x.frames.length
          · exact .inl (h.popFrame htwo hb)
          · exact .inr (h.popLast htwo hb hi)
        | some el =>
          cases el with
          | call u =>
            simp only [hbody] at hs
            exact .inl ⟨_, hs, .inl (hpass.enter u)⟩
          | recurse =>
            simp only [hbody] at hs
            exact .inl ⟨_, hs, .inl (hpass.enter f.word)⟩
          | direct _ =>
            simp only [hbody] at hs
            exact hfail hpass hs.symm
          | lit _ =>
            simp only [hbody] at hs
            exact hfail hpass hs.symm

/-- The word runs as long as anything above the frames does. -/
theorem mem (h : Grounded w rest rs x) : w ∈ x.nesting := by
  obtain ⟨fs, hf, hlast⟩ := h.frames
  rw [nesting, hf, List.map_append]
  exact List.mem_append_left _ (List.mem_of_getLast? hlast)

/-- **A run with a composed word at its bottom.**  It stays above the frames of the caller as long as
    the word is not left. -/
theorem goes (h : Grounded w rest rs x) (hc : Covers rs rest) {left? : Option Nat}
    (hr : Reached (.word left?) x) {n : Nat} (hg : Goes n x x')
    (hw : (x'.heap.word w).code = .ok .docol) :
    Grounded w rest rs x' ∨ ∃ k b, k ≤ n ∧ Goes k x b ∧ Left rest rs b := by
  induction hg with
  | refl => exact .inl h
  | @step n x x₁ x' hs hg ih =>
    have hl : Leads (.word left?) x (.word left?) x' := Leads.goes (.refl _ _) (.step hs hg)
    obtain ⟨f, hf, hfw⟩ := List.mem_map.1 h.mem
    have hhas : x.heap.Has (.word w) := hfw ▸ (hr.sound.frames f hf).has
    have hx : (x.heap.word w).code = .ok .docol := hl.docol_before hr hhas hw
    rcases h.step hc hx with ⟨y, hy, hy'⟩ | hleft
    · cases hs.symm.trans hy
      rcases hy' with hy' | hback
      · rcases ih hy' (hr.step hs) hw with h' | ⟨k, b, hk, hb, hleft⟩
        · exact .inl h'
        · exact .inr ⟨k + 1, b, Nat.succ_le_succ hk, .step hs hb, hleft⟩
      · exact .inr ⟨1, x₁, Nat.succ_le_succ (Nat.zero_le _), .one hs, .inl hback⟩
    · exact .inr ⟨0, x, Nat.zero_le _, .refl _, .inr hleft⟩

end Grounded

end Machine
end ThreadedForth
