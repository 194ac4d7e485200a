/-
  Words called from a body, and the same words run on their own.
-/
import ThreadedForth.Proofs.FrameDiscipline

namespace ThreadedForth
namespace Machine

variable {b n : Nat} {R Q : List Run} {A B : Machine}

/-- A machine inside a longer run, and the same machine in a run that ends at the depth `n`; `Q`
    are the runs inside. -/
def Beside (b n : Nat) (R Q : List Run) (A B : Machine) : Prop :=
  ∃ d, A.runs = Q ++ ⟨b, .outside⟩ :: R ∧ (∀ q ∈ Q, q.pending ≠ .outside) ∧
    B = { A with runs := Q ++ ⟨n, .outside⟩ :: R, debugger := d }

/-- The next step leaves the word below the innermost frame. -/
def Leaves (x : Machine) : Prop :=
  ∃ f rest p y, x.frames = f :: rest ∧ (x.heap.word f.word).code = .ok (.native p) ∧
    p.run x = .ok .leave y

/-- A step of both machines: they go on side by side, or fail in the same way. -/
inductive Together (b n : Nat) (R : List Run) : Progress → Progress → Prop
  | running {Q : List Run} {A B : Machine} (h : Beside b n R Q A B) :
    Together b n R (.running A) (.running B)
  | failed (e : Error) {x : Machine} (d : Debugger) (hx : x.runs = R) :
    Together b n R (.failed e { x.truncateFrames b with debugger := d }) (.failed e x)

namespace Beside

/-- A change that does not concern the runs. -/
theorem map (h : Beside b n R Q A B) (f : Machine → Machine)
    (hf : ∀ x rs d, f { x with runs := rs, debugger := d } =
      { f x with runs := rs, debugger := d }) : Beside b n R Q (f A) (f B) := by
  obtain ⟨d, hA, hQ, rfl⟩ := h
  have hr := congrArg Machine.runs (hf A A.runs A.debugger)
  exact ⟨d, hr.trans hA, hQ, hf _ _ _⟩

theorem popFrame (h : Beside b n R Q A B) : Beside b n R Q A.popFrame B.popFrame :=
  h.map Machine.popFrame fun _ _ _ => rfl

theorem enter (h : Beside b n R Q A B) (w : WordId) : Beside b n R Q (A.enter w) (B.enter w) :=
  h.map (·.enter w) fun _ _ _ => rfl

/-- The two machines keep the same words alive. -/
theorem alike (h : Beside b n R Q A B) (i : Nat) : A.context.Alike true i B.context := by
  obtain ⟨d, hA, -, rfl⟩ := h
  refine ⟨rfl, fun _ => rfl, fun _ => ?_⟩
  show A.runs.flatMap _ = _
  rw [hA]
  simp [context, List.flatMap_append, pendingRefs]

/-- What blind computations make of the two machines. -/
theorem blind {α : Type} {act : M α} (h : Beside b n R Q A B) (hact : Blind act) :
    (∃ a A' B', act A = .ok a A' ∧ act B = .ok a B' ∧ Beside b n R Q A' B') ∨
      ∃ e A' B', act A = .error e A' ∧ act B = .error e B' ∧ Beside b n R Q A' B' := by
  obtain ⟨d, hA, hQ, rfl⟩ := h
  have hc := hact.context_eq A
  have hB := hact A ⟨A.frames, Q ++ ⟨n, .outside⟩ :: R, d⟩
  have hbeside : ∀ x : Machine, x.context = A.context →
      Beside b n R Q x (x.within ⟨A.frames, Q ++ ⟨n, .outside⟩ :: R, d⟩) := by
    intro x hx
    have hf : x.frames = A.frames := congrArg Context.frames hx
    have hr : x.runs = A.runs := congrArg Context.runs hx
    rw [← hf]
    exact ⟨d, hr.trans hA, hQ, rfl⟩
  cases hr : act A with
  | ok a A' =>
    rw [hr] at hc hB
    exact .inl ⟨a, A', _, rfl, hB, hbeside A' hc⟩
  | error e A' =>
    rw [hr] at hc hB
    exact .inr ⟨e, A', _, rfl, hB, hbeside A' hc⟩

end Beside

/-! ## Errors -/

/-- Frames that are cut down twice. -/
theorem drop_cut (fs : List Frame) (h : b ≤ n) :
    (fs.drop (fs.length - n)).drop ((fs.drop (fs.length - n)).length - b) =
      fs.drop (fs.length - b) := by
  rw [List.drop_drop, List.length_drop]
  congr 1
  omega

/-- An error leaves the runs that both machines have, and then the run that differs. -/
theorem Beside.fail (h : Beside b n R Q A B) (hb : b ≤ n) (e : Error) :
    Together b n R (A.fail e) (B.fail e) := by
  induction Q generalizing A B e with
  | nil =>
    obtain ⟨d, hA, -, rfl⟩ := h
    have hfA : A.fail e = .failed e { A with
        frames := A.frames.drop (A.frames.length - b)
        runs := R } := by
      rw [Machine.fail, hA]
      rfl
    have hfB : Machine.fail e { A with runs := [] ++ ⟨n, .outside⟩ :: R, debugger := d } =
        .failed e { A with
          frames := A.frames.drop (A.frames.length - n)
          runs := R
          debugger := d } := rfl
    rw [hfA, hfB, ← drop_cut A.frames hb]
    exact .failed (x := { A with
      frames := A.frames.drop (A.frames.length - n)
      runs := R
      debugger := d }) e A.debugger rfl
  | cons q Q ih =>
    obtain ⟨d, hA, hQ, rfl⟩ := h
    have hfA : A.fail e =
        handError e q.pending { A.truncateFrames q.base with runs := Q ++ ⟨b, .outside⟩ :: R } := by
      rw [Machine.fail, hA]
      exact unwind_cons e A q _
    have hcut : Beside b n R Q { A.truncateFrames q.base with runs := Q ++ ⟨b, .outside⟩ :: R }
        { A.truncateFrames q.base with runs := Q ++ ⟨n, .outside⟩ :: R, debugger := d } :=
      ⟨d, rfl, fun r hr => hQ r (List.mem_cons_of_mem _ hr), rfl⟩
    have hfB : Machine.fail e { A with runs := q :: Q ++ ⟨n, .outside⟩ :: R, debugger := d } =
        handError e q.pending
          { A.truncateFrames q.base with runs := Q ++ ⟨n, .outside⟩ :: R, debugger := d } :=
      unwind_cons e _ q _
    rw [hfA, hfB]
    cases hq : q.pending with
    | outside => exact absurd hq (hQ q List.mem_cons_self)
    | handler depth after => exact ih hcut e
    | run => exact ih hcut e
    | attempt =>
      have hpush := hcut.blind (M.pushNew_blind (.text e.message))
      simp only [handError]
      rcases hpush with ⟨a, A', B', h₁, h₂, h₃⟩ | ⟨e', A', B', h₁, h₂, h₃⟩
      · rw [h₁, h₂]
        exact .running h₃.popFrame
      · rw [h₁, h₂]
        exact ih h₃ e'

/-! ## One step -/

/-- The two machines go on in the same way, unless the word that is left is the caller. -/
theorem Beside.proceed (h : Beside b n R Q A B) (hb : b < n) {flow : Flow} {acts nests : Bool}
    (ha : flow.Allowed acts nests) (hl : flow = .leave → Q = [] → n + 1 < A.frames.length) :
    ∃ Q', Beside b n R Q' (A.proceed flow) (B.proceed flow) := by
  cases flow with
  | next => exact ⟨Q, h.popFrame⟩
  | call w => exact ⟨Q, h.popFrame.enter w⟩
  | nest w pending =>
    obtain ⟨d, hA, hQ, rfl⟩ := h
    refine ⟨⟨A.frames.length, pending⟩ :: Q, d, ?_, ?_, rfl⟩
    · show _ :: A.runs = _
      rw [hA]
      rfl
    · intro q hq
      rcases List.mem_cons.1 hq with rfl | hq
      · exact ha.2
      · exact hQ q hq
  | leave =>
    refine ⟨Q, ?_⟩
    have hback : A.popFrame.isBackAt A.runBase = B.popFrame.isBackAt B.runBase := by
      obtain ⟨d, hA, hQ, rfl⟩ := h
      cases Q with
      | nil =>
        have hlen := hl rfl rfl
        have h₁ : ¬ A.popFrame.frames.length ≤ b := by simp [Machine.popFrame]; omega
        have h₂ : ¬ A.popFrame.frames.length ≤ n := by simp [Machine.popFrame]; omega
        have hrA : A.runBase = b := by simp [runBase, hA]
        rw [hrA]
        show A.popFrame.isBackAt b = A.popFrame.isBackAt n
        rw [Bool.eq_iff_iff, isBackAt_iff, isBackAt_iff]
        exact iff_of_false h₁ h₂
      | cons q Q =>
        have hrA : A.runBase = q.base := by simp [runBase, hA]
        rw [hrA]
        rfl
    simp only [Machine.proceed, ← hback]
    split
    · exact h.popFrame
    · exact h.popFrame.popFrame

/-- A primitive of both machines. -/
theorem Beside.native (h : Beside b n R Q A B) (hb : b < n) (p : Primitive)
    (hl : ∀ y, p.run B = .ok .leave y → Q = [] → n + 1 < A.frames.length) :
    Together b n R (settle (p.run A)) (settle (p.run B)) := by
  obtain ⟨r, u, g, g', -, hrA, hrB⟩ := p.run_respects (n := 2) (fun _ => rfl) (by omega)
    (fun _ => Nat.le_refl 2) A A.context B.context (h.alike 2)
  obtain ⟨d, hA, hQ, rfl⟩ := h
  have hAB : A.within (context { A with runs := Q ++ ⟨n, .outside⟩ :: R, debugger := d }) =
    { A with runs := Q ++ ⟨n, .outside⟩ :: R, debugger := d } := rfl
  rw [within_context] at hrA
  rw [hAB] at hrB
  have hbeside : ∀ x : Machine, Beside b n R Q (x.within (A.context.moved u g))
      (x.within ((context { A with runs := Q ++ ⟨n, .outside⟩ :: R, debugger := d }).moved u g')) :=
    fun x => ⟨g', hA, hQ, rfl⟩
  cases r with
  | ok flow x =>
    have ha : flow.Allowed p.actsOnCaller p.nests := p.run_flow _ _ _ hrA
    obtain ⟨Q', hQ'⟩ := (hbeside x).proceed hb ha (by
      rintro rfl hQ
      have := hl _ hrB hQ
      simpa [Context.moved, within, context] using this)
    rw [hrA, hrB]
    exact .running hQ'
  | error e x =>
    rw [hrA, hrB]
    exact (hbeside x).fail (Nat.le_of_lt hb) e

/-- A step of the innermost frame of both machines. -/
theorem Beside.stepFrame (h : Beside b n R Q A B) (hb : b < n) {f : Frame} {rest : List Frame}
    (hf : A.frames = f :: rest) (hl : B.Leaves → Q = [] → n + 1 < A.frames.length) :
    Together b n R (A.stepFrame f rest) (B.stepFrame f rest) := by
  have hheap : B.heap = A.heap := by
    obtain ⟨d, -, -, rfl⟩ := h
    rfl
  have hframes : B.frames = f :: rest := by
    obtain ⟨d, -, -, rfl⟩ := h
    exact hf
  have hle : b ≤ n := Nat.le_of_lt hb
  unfold Machine.stepFrame
  rw [hheap]
  cases hc : (A.heap.word f.word).code with
  | error e => exact h.fail hle e
  | ok c =>
    cases c with
    | docol =>
      have hpass : Beside b n R Q (A.pass f rest) (B.pass f rest) := by
        obtain ⟨d, hA, hQ, rfl⟩ := h
        exact ⟨_, hA, hQ, rfl⟩
      simp only [stepElement_eq, hheap]
      cases (A.heap.word f.word).body[f.ip]? with
      | none => exact .running h.popFrame
      | some el =>
        cases el with
        | direct c => exact hpass.fail hle _
        | call w => exact .running (hpass.enter w)
        | lit v => exact hpass.fail hle _
        | recurse => exact .running (hpass.enter _)
    | native p =>
      refine h.native hb p fun y hy => hl ⟨f, rest, p, y, hframes, ?_, hy⟩
      rw [hheap]
      exact hc
    | indirect body entry =>
      simp only
      rcases h.blind (M.push_blind (.ptr (A.heap.pointer f.word 1))) with
        ⟨a, A', B', h₁, h₂, h₃⟩ | ⟨e, A', B', h₁, h₂, h₃⟩
      · rw [h₁, h₂]
        exact .running (h₃.map (fun x => { x with frames := ⟨body, entry⟩ :: rest })
          fun _ _ _ => rfl)
      · rw [h₁, h₂]
        exact h₃.fail hle e

/-- The innermost frame of both machines takes a step, or an interrupt is due. -/
theorem Beside.stepInside (h : Beside b n R Q A B) (hb : b < n) {q q' : Run} {rs rs' : List Run}
    (hA : A.runs = q :: rs) (hB : B.runs = q' :: rs') (hlA : q.base < A.frames.length)
    (hlB : q'.base < A.frames.length)
    (hl : B.interrupt = false → B.Leaves → Q = [] → n + 1 < A.frames.length) :
    Together b n R A.step B.step := by
  obtain ⟨f, rest, hf⟩ : ∃ f rest, A.frames = f :: rest :=
    List.exists_cons_of_length_pos (Nat.zero_lt_of_lt hlA)
  have hBf : B.frames = A.frames := by
    obtain ⟨d, -, -, rfl⟩ := h
    rfl
  have hBi : B.interrupt = A.interrupt := by
    obtain ⟨d, -, -, rfl⟩ := h
    rfl
  cases hi : A.interrupt with
  | true =>
    rw [step_of_interrupt hA hlA hi, step_of_interrupt hB (hBf ▸ hlB) (hBi.trans hi)]
    exact (h.map (fun x => { x with interrupt := false }) fun _ _ _ => rfl).fail
      (Nat.le_of_lt hb) _
  | false =>
    rw [step_of_frame hA hf hlA hi, step_of_frame hB (hBf.trans hf) (hBf ▸ hlB) (hBi.trans hi)]
    exact h.stepFrame hb hf (hl (hBi.trans hi))

/-- **One step of a word that is called, and of the same word run on its own.**  The word on its
    own is at its end, or both machines take a step. -/
theorem Beside.step (h : Beside b n R Q A B) (hb : b < n)
    (hl : B.interrupt = false → B.Leaves → Q = [] → A.frames.length ≠ n + 1) :
    (Q = [] ∧ A.frames.length ≤ n) ∨ Together b n R A.step B.step := by
  have hside := h
  obtain ⟨d, hA, hQ, rfl⟩ := h
  cases Q with
  | nil =>
    by_cases hlen : A.frames.length ≤ n
    · exact .inl ⟨rfl, hlen⟩
    · refine .inr (hside.stepInside hb hA rfl (by simp; omega) (by simp; omega) ?_)
      intro hi hL hQ
      have := hl hi hL hQ
      omega
  | cons q Q =>
    refine .inr ?_
    by_cases hlen : A.frames.length ≤ q.base
    · rw [step_of_back hA hlen,
        step_of_back (m := { A with runs := q :: Q ++ ⟨n, .outside⟩ :: R, debugger := d }) rfl hlen]
      have hcut : Beside b n R Q { A with runs := Q ++ ⟨b, .outside⟩ :: R }
          { A with runs := Q ++ ⟨n, .outside⟩ :: R, debugger := d } :=
        ⟨d, rfl, fun r hr => hQ r (List.mem_cons_of_mem _ hr), rfl⟩
      have hset : Together b n R
          (settle (resume q.pending { A with runs := Q ++ ⟨b, .outside⟩ :: R }))
          (settle (resume q.pending
            { A with runs := Q ++ ⟨n, .outside⟩ :: R, debugger := d })) := by
        rcases hcut.blind (resume_blind q.pending) with
          ⟨flow, A', B', h₁, h₂, h₃⟩ | ⟨e, A', B', h₁, h₂, h₃⟩
        · obtain rfl := resume_flow _ _ _ _ h₁
          rw [h₁, h₂]
          exact .running h₃.popFrame
        · rw [h₁, h₂]
          exact h₃.fail (Nat.le_of_lt hb) e
      cases hq : q.pending with
      | outside => exact absurd hq (hQ q List.mem_cons_self)
      | _ =>
        rw [hq] at hset
        exact hset
    · have hlt : q.base < A.frames.length := Nat.lt_of_not_le hlen
      exact hside.stepInside hb hA rfl hlt hlt fun _ _ hQ' => absurd hQ' (List.cons_ne_nil q Q)

theorem Beside.step_ended (h : Beside b n R [] A B) (hlen : A.frames.length ≤ n) :
    B.step = .ended { B with runs := R } := by
  obtain ⟨d, hA, -, rfl⟩ := h
  exact step_of_back (m := { A with runs := [] ++ ⟨n, .outside⟩ :: R, debugger := d })
    (r := ⟨n, .outside⟩) rfl hlen

/-! ## Whole runs -/

/-- Nothing that the machine comes to leaves the word that was running before the run. -/
def Stays (n : Nat) (R : List Run) (B : Machine) : Prop :=
  ∀ j x, Goes j B x → x.runs.length = R.length + 1 → x.frames.length = n + 1 → ¬ x.Leaves

/-- The same, as long as no interrupt is due. -/
def StaysCalm (n : Nat) (R : List Run) (B : Machine) : Prop :=
  ∀ j x, Goes j B x → x.interrupt = false → x.runs.length = R.length + 1 →
    x.frames.length = n + 1 → ¬ x.Leaves

theorem Stays.calm (h : Stays n R B) : StaysCalm n R B := fun j x hg _ => h j x hg

theorem StaysCalm.goes (h : StaysCalm n R B) {i : Nat} {B' : Machine} (hg : Goes i B B') :
    StaysCalm n R B' :=
  fun j x hx => h (i + j) x (hg.trans hx)

namespace Beside

theorem not_leaves (h : Beside b n R Q A B) (hs : StaysCalm n R B) :
    B.interrupt = false → B.Leaves → Q = [] → A.frames.length ≠ n + 1 := by
  obtain ⟨d, hA, hQ, rfl⟩ := h
  rintro hi hL rfl hlen
  exact hs 0 _ (.refl _) hi rfl hlen hL

theorem goes (h : Beside b n R Q A B) (hb : b < n) (hs : StaysCalm n R B) {j : Nat} {B' : Machine}
    (hg : Goes j B B') : ∃ Q' A', Goes j A A' ∧ Beside b n R Q' A' B' := by
  induction hg generalizing A Q with
  | refl B => exact ⟨Q, A, .refl A, h⟩
  | @step j B B₁ B' hB _ ih =>
    rcases h.step hb (h.not_leaves hs) with ⟨rfl, hlen⟩ | ht
    · rw [h.step_ended hlen] at hB
      cases hB
    · rw [hB] at ht
      generalize hA : A.step = p at ht
      cases ht with
      | running h₁ =>
        obtain ⟨Q', A', hg, hA'⟩ := ih h₁ (hs.goes (.one hB))
        exact ⟨Q', A', .step hA hg, hA'⟩

/-- A word that ends on its own leads back to its caller. -/
theorem goes_of_ok (h : Beside b n R Q A B) (hb : b < n) (hs : StaysCalm n R B) {fuel : Nat}
    {x : Machine} (hr : steps fuel B = some (.ok () x)) :
    ∃ j d, Goes j A { x with runs := ⟨b, .outside⟩ :: R, debugger := d } := by
  obtain ⟨j, B', -, hg, hend⟩ := steps_eq_some hr
  obtain ⟨Q', A', hgA, h'⟩ := h.goes hb hs hg
  rcases hend with ⟨y, hy, hxy⟩ | ⟨e, y, -, hxy⟩
  · cases hxy
    rcases h'.step hb (h'.not_leaves (hs.goes hg)) with ⟨rfl, hlen⟩ | ht
    · rw [h'.step_ended hlen] at hy
      cases hy
      obtain ⟨d, hA, -, rfl⟩ := h'
      refine ⟨j, A'.debugger, ?_⟩
      have hA' : { A' with runs := ⟨b, .outside⟩ :: R } = A' := by
        rw [show ⟨b, .outside⟩ :: R = A'.runs from hA.symm]
      exact hA'.symm ▸ hgA
    · rw [hy] at ht
      generalize A'.step = p at ht
      cases ht
  · cases hxy

/-- A word that fails on its own fails when it is called. -/
theorem steps_of_error (h : Beside b n R Q A B) (hb : b < n) (hs : StaysCalm n R B) {fuel : Nat}
    {e : Error} {x : Machine} (hr : steps fuel B = some (.error e x)) :
    ∃ fuel' d, steps fuel' A = some (.error e { x.truncateFrames b with debugger := d }) := by
  obtain ⟨j, B', -, hg, hend⟩ := steps_eq_some hr
  obtain ⟨Q', A', hgA, h'⟩ := h.goes hb hs hg
  rcases hend with ⟨y, -, hxy⟩ | ⟨e', y, hy, hxy⟩
  · cases hxy
  · cases hxy
    rcases h'.step hb (h'.not_leaves (hs.goes hg)) with ⟨rfl, hlen⟩ | ht
    · rw [h'.step_ended hlen] at hy
      cases hy
    · rw [hy] at ht
      generalize hA : A'.step = p at ht
      cases ht with
      | failed _ d hx =>
        refine ⟨j + 1, d, ?_⟩
        rw [steps_of_goes hgA, steps, hA]

/-- A call that comes to an end also does so on its own. -/
theorem ends (h : Beside b n R Q A B) (hb : b < n) (hs : StaysCalm n R B) {fuel : Nat}
    {r : EStateM.Result Error Machine Unit} (hr : steps fuel A = some r) :
    ∃ r', steps fuel B = some r' := by
  induction fuel generalizing Q A B with
  | zero => cases hr
  | succ fuel ih =>
    rcases h.step hb (h.not_leaves hs) with ⟨rfl, hlen⟩ | ht
    · exact ⟨_, by rw [steps, h.step_ended hlen]⟩
    · generalize hA : A.step = p at ht
      generalize hB : B.step = p' at ht
      cases ht with
      | running h' =>
        rw [steps_succ_of_running hA] at hr
        rw [steps_succ_of_running hB]
        exact ih h' (hs.goes (.one hB)) hr
      | failed e d hx => exact ⟨_, by rw [steps, hB]⟩

end Beside
end Machine
end ThreadedForth
