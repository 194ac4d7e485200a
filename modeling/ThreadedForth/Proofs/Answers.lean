/-
  What primitives ask about what is alive.
-/
import ThreadedForth.Proofs.Histories

namespace ThreadedForth

variable {α β : Type} {n : Nat}

/-! ## What primitives ask -/

namespace Machine

/-- The word created last, if it is alive. -/
def latest (m : Machine) : Except Error WordId :=
  m.compiler.last m.heap m.roots

/-- How many references there are to the object on top of the data stack. -/
def topCount (m : Machine) : Option Nat :=
  (m.data.peek? 0).bind (m.heap.liveCount? m.roots)

/-- The address of the object on top of the data stack, if the hash of the object is that of its
    address. -/
def topAddress (m : Machine) : Option UInt64 :=
  match m.data.peek? 0 with
  | some (.obj o) => if (m.heap.object o).hashesAddress then some (m.addresses o) else none
  | _ => none

end Machine

namespace Primitive

/-- Whether a primitive asks for the word created last, with the compiler in a state. -/
def asksLast (k : Compiler) : Primitive → Bool
  | memory .comma | memory .allot | memory .doesRuntime | defining .immediate => true
  | memory .does => k.mode = .interpreting
  | memory .here | control .beginLoop | control .closeIf => k.building?.isNone
  | _ => false

/-- Two machines give a primitive the same answers when it asks what is alive, or where an object
    is. -/
structure SameAnswers (p : Primitive) (x y : Machine) : Prop where
  last : p.asksLast x.compiler = true → x.latest = y.latest
  count : p = .object .refcount → x.topCount = y.topCount
  address : p = .object (.invoke .hash) → x.topAddress = y.topAddress

theorem SameAnswers.refl (p : Primitive) (x : Machine) : p.SameAnswers x x :=
  ⟨fun _ => rfl, fun _ => rfl, fun _ => rfl⟩

end Primitive

namespace ObjectWord

/-- The hash of an object is the same at another address, unless it is that of the address. -/
theorem onStore_hash {m : Machine} {o : ObjId} {a b : UInt64}
    (h : (m.heap.object o).hashesAddress = true → a = b) :
    M.onStore (Store.invoke a o .hash) m = M.onStore (Store.invoke b o .hash) m := by
  cases ht : (m.heap.object o).hashesAddress with
  | true => rw [h ht]
  | false =>
    unfold M.onStore
    rw [Store.invoke_address_of_text (s := ⟨m.heap, m.data⟩) ht a b]

end ObjectWord

/-! ## Computations in two contexts -/

variable {m : Machine} {c d : Context}

theorem Blind.agrees {act : M α} (h : Blind act) : Agrees n act m c d := by
  refine ⟨act m, none, c.debugger, d.debugger, fun _ => rfl, ?_, ?_⟩
  · rw [h]
    simp [Context.moved]
  · rw [h]
    simp [Context.moved]

namespace Agrees

theorem after_blind {x : M α} {f : α → M β} (hx : Blind x)
    (hf : ∀ y m', x m = .ok y m' → Agrees n (f y) m' c d) : Agrees n (x >>= f) m c d := by
  have hc := hx m c
  have hd := hx m d
  cases hr : x m with
  | error e m₁ =>
    rw [hr] at hc hd
    refine ⟨.error e m₁, none, c.debugger, d.debugger, fun _ => rfl, ?_, ?_⟩
    · rw [M.bind_error hc]
      simp [Context.moved, Machine.alter]
    · rw [M.bind_error hd]
      simp [Context.moved, Machine.alter]
  | ok y m₁ =>
    rw [hr] at hc hd
    obtain ⟨r, u, g, g', hu, h₁, h₂⟩ := hf y m₁ hr
    exact ⟨r, u, g, g', hu, (M.bind_ok hc).trans h₁, (M.bind_ok hd).trans h₂⟩

theorem before_blind {x : M α} {f : α → M β} (hx : Agrees n x m c d) (hf : ∀ y, Blind (f y)) :
    Agrees n (x >>= f) m c d := by
  obtain ⟨r, u, g, g', hu, hc, hd⟩ := hx
  cases r with
  | error e m₁ =>
    exact ⟨.error e m₁, u, g, g', hu, M.bind_error hc, M.bind_error hd⟩
  | ok y m₁ =>
    refine ⟨f y m₁, u, g, g', hu, ?_, ?_⟩
    · rw [M.bind_ok hc, hf]
    · rw [M.bind_ok hd, hf]

theorem get {f : Machine → M α} (h : f (m.within c) = f (m.within d))
    (hf : Agrees n (f (m.within c)) m c d) : Agrees n (MonadState.get >>= f) m c d := by
  obtain ⟨r, u, g, g', hu, hc, hd⟩ := hf
  refine ⟨r, u, g, g', hu, hc, ?_⟩
  show f (m.within d) (m.within d) = _
  rw [← h, hd]

theorem lastWith {held : List Ref}
    (h : m.compiler.last m.heap (held ++ (m.within c).roots) =
      m.compiler.last m.heap (held ++ (m.within d).roots)) : Agrees n (M.lastWith held) m c d :=
  .get (congrArg M.lift h) (M.lift_blind _).agrees

theorem last (h : (m.within c).latest = (m.within d).latest) : Agrees n M.last m c d :=
  lastWith h

theorem here (h : m.compiler.building? = none → (m.within c).latest = (m.within d).latest) :
    Agrees n M.here m c d := by
  refine .get (congrArg M.lift ?_) (M.lift_blind _).agrees
  show m.compiler.here m.heap (m.within c).roots = m.compiler.here m.heap (m.within d).roots
  cases hb : m.compiler.building? with
  | some w => simp [Compiler.here, hb]
  | none =>
    have h : m.compiler.last m.heap (m.within c).roots = m.compiler.last m.heap (m.within d).roots :=
      h hb
    simp [Compiler.here, hb, h]

theorem setLastCode {code : Code} (h : (m.within c).latest = (m.within d).latest) :
    Agrees n (setLastCode code) m c d :=
  (last h).before_blind fun _ => .get (fun _ _ => rfl) fun _ => M.setHeap_blind _

end Agrees

/-! ## The primitives that ask -/

theorem ControlWord.closeTag_refs {tags : List ControlTag} {fault : ControlFault} {k : Nat}
    {m' : Machine} (h : closeTag tags fault m = .ok k m') :
    ∃ s, s.items.flatMap Value.refs = m.data.items.flatMap Value.refs ∧
      m' = { m with data := s } := by
  obtain ⟨v, m₁, hp, h⟩ := M.of_bind_ok h
  obtain ⟨s, hs, rfl⟩ := M.pop_eq_ok hp
  split at h
  · rename_i hv
    obtain ⟨k', m₂, hk, h⟩ := M.of_bind_ok h
    obtain ⟨s', hs', rfl⟩ := M.popInt_eq_ok hk
    have hr : v.refs = [] := by
      cases v <;> first | rfl | cases hv
    have hm : m' = { m with data := s' } := by
      split at h
      · cases h
      · cases h
        rfl
    refine ⟨s', ?_, hm⟩
    rw [hs', hs, List.flatMap_cons, hr, List.nil_append]
  · cases h

/-- Values without references make no difference to what is alive. -/
theorem Machine.roots_of_refs {s : Stack Value}
    (h : s.items.flatMap Value.refs = m.data.items.flatMap Value.refs) :
    ({ m with data := s } : Machine).roots = m.roots := by
  simp only [roots, h]

theorem Machine.roots_of_cons {s : Stack Value} {v : Value} (h : m.data.items = v :: s.items) :
    v.refs ++ ({ m with data := s } : Machine).roots = m.roots := by
  simp only [roots, h, List.flatMap_cons, List.append_assoc]

theorem MemoryWord.run_agrees (w : MemoryWord) (hw : (Primitive.memory w).looks = true)
    (hn : (Primitive.memory w).actsOnCaller = true → 2 ≤ n) (ht : c.frames.take n = d.frames.take n)
    (ha : (Primitive.memory w).asksLast m.compiler = true →
      (m.within c).latest = (m.within d).latest) : Agrees n w.run m c d := by
  cases w with
  | here =>
    exact (Agrees.here fun hb => ha (by simp [Primitive.asksLast, hb])).before_blind fun _ =>
      (M.push_blind _).bind fun _ => .pure _
  | comma =>
    refine .after_blind M.pop_blind fun v m' hv => ?_
    obtain ⟨s, hs, rfl⟩ := M.pop_eq_ok hv
    refine Agrees.before_blind (.lastWith ?_) fun _ => (addSlot_blind _ _).bind fun _ => .pure _
    have hroots : ∀ k : Context, v.refs ++ (({ m with data := s } : Machine).within k).roots =
        (m.within k).roots := fun k => Machine.roots_of_cons (m := m.within k) hs
    rw [hroots, hroots]
    exact ha rfl
  | allot =>
    refine .after_blind M.popInt_blind fun k m' hk => ?_
    obtain ⟨s, hs, rfl⟩ := M.popInt_eq_ok hk
    have hroots : ∀ k : Context, (({ m with data := s } : Machine).within k).roots =
        (m.within k).roots := fun k => Machine.roots_of_refs (m := m.within k) hs
    have hl : m.compiler.last m.heap (m.within c).roots = m.compiler.last m.heap (m.within d).roots :=
      ha rfl
    split
    · exact (Blind.throw _).agrees
    · refine .get ?_ ((M.setHeap_blind _).bind fun _ => .pure _).agrees
      have hexpand : ∀ j, m.compiler.expand m.heap (({ m with data := s } : Machine).within c).roots j =
          m.compiler.expand m.heap (({ m with data := s } : Machine).within d).roots j := by
        intro j
        rw [hroots, hroots, Compiler.expand, Compiler.expand, hl]
      show (M.setHeap (m.compiler.expand m.heap _ _) >>= _) = _
      rw [hexpand]
      rfl
  | does =>
    have hmode : ∀ mode m', M.mode m = .ok mode m' → mode = m.compiler.mode ∧ m' = m := by
      intro mode m' h
      cases h
      exact ⟨rfl, rfl⟩
    refine .after_blind M.mode_blind fun mode m' hm => ?_
    obtain ⟨hm, rfl⟩ := hmode _ _ hm
    cases mode with
    | compiling => exact ((M.compileBuiltin_blind _).bind fun _ => .pure _).agrees
    | interpreting =>
      exact (Agrees.last (ha (by simp [Primitive.asksLast, ← hm]))).before_blind fun _ =>
        (M.setMode_blind _).bind fun _ => .pure _
    | compilingPostponed => exact ((Blind.throw _).bind fun _ => .pure _).agrees
    | runtimeCompiling => exact ((Blind.throw _).bind fun _ => .pure _).agrees
  | doesRuntime =>
    have hl := ha rfl
    obtain ⟨k, rfl⟩ : ∃ k, n = k + 2 := ⟨n - 2, by have := hn rfl; omega⟩
    -- The caller is in common, and is the same frame for both.
    rcases c with ⟨_ | ⟨f, _ | ⟨p, fs⟩⟩, rs, g⟩ <;> rcases d with ⟨_ | ⟨f', _ | ⟨p', fs'⟩⟩, rs', g'⟩ <;>
      simp only [List.take_succ_cons, List.take_nil, List.cons.injEq, reduceCtorEq, and_false] at ht
    · exact ⟨.error .callStackCorrupted m, none, g, g', fun _ => rfl, rfl, rfl⟩
    · exact ⟨.error .callStackCorrupted m, none, g, g', fun _ => rfl, rfl, rfl⟩
    · obtain ⟨rfl, rfl, -⟩ := ht
      obtain ⟨r, u, k, k', hu, hc, hd⟩ : Agrees 2 (ThreadedForth.setLastCode (.indirect p.word p.ip) >>=
          fun _ => pure Flow.leave) m _ _ := (Agrees.setLastCode hl).before_blind fun _ => .pure _
      exact ⟨r, u, k, k', fun h => by omega, hc, hd⟩
  | _ => cases hw

theorem DefiningWord.run_agrees (w : DefiningWord) (hw : (Primitive.defining w).looks = true)
    (ha : (Primitive.defining w).asksLast m.compiler = true →
      (m.within c).latest = (m.within d).latest) : Agrees n w.run m c d := by
  cases w with
  | immediate =>
    refine Agrees.before_blind ?_ fun _ => .pure _
    exact (Agrees.last (ha rfl)).before_blind fun _ => .modify fun _ _ => rfl
  | _ => cases hw

theorem ControlWord.run_agrees (w : ControlWord) (hw : (Primitive.control w).looks = true)
    (ha : (Primitive.control w).asksLast m.compiler = true →
      (m.within c).latest = (m.within d).latest) : Agrees n w.run m c d := by
  have hmode : ∀ {m' : Machine}, M.requireCompiling w.label m = .ok () m' → m' = m := by
    intro m' h
    obtain ⟨mode, m₁, hm, h⟩ := M.of_bind_ok h
    cases hm
    split at h
    · cases h
      rfl
    · cases h
  refine .after_blind (M.requireCompiling_blind _) fun _ m' hm => ?_
  obtain rfl := hmode hm
  cases w with
  | beginLoop =>
    exact (Agrees.here fun hb => ha (by simp [Primitive.asksLast, hb])).before_blind fun _ =>
      openAt_blind _ _
  | closeIf =>
    refine .after_blind (closeTag_blind _ _) fun k m₁ hk => ?_
    obtain ⟨s, hs, rfl⟩ := closeTag_refs hk
    refine Agrees.before_blind (.here fun hb => ?_) fun _ => fillHole_blind _ _
    have hroots : ∀ k : Context, (({ m' with data := s } : Machine).within k).roots =
        (m'.within k).roots := fun k => Machine.roots_of_refs (m := m'.within k) hs
    show m'.compiler.last m'.heap _ = m'.compiler.last m'.heap _
    rw [hroots, hroots]
    exact ha (by simp [Primitive.asksLast, show m'.compiler.building? = none from hb])
  | _ => cases hw

theorem ObjectWord.run_agrees (w : ObjectWord) (hw : (Primitive.object w).looks = true)
    (ha : (m.within c).topCount = (m.within d).topCount) : Agrees n w.run m c d := by
  cases w with
  | refcount =>
    refine .after_blind (M.peek_blind 0) fun v m' hv => ?_
    have hpeek : m.data.peek? 0 = some v ∧ m' = m := by
      unfold M.peek Stack.peek at hv
      cases hp : m.data.peek? 0 with
      | none =>
        rw [hp] at hv
        cases hv
      | some u =>
        rw [hp] at hv
        cases hv
        exact ⟨rfl, rfl⟩
    obtain ⟨hv, rfl⟩ := hpeek
    have hcount : ∀ k : Context, (m'.within k).topCount = m'.heap.liveCount? (m'.within k).roots v := by
      intro k
      show (m'.data.peek? 0).bind _ = _
      rw [hv]
      rfl
    rw [hcount, hcount] at ha
    refine .get ?_ (M.push_blind _).agrees
    show M.push (.nat ((m'.heap.liveCount? (m'.within c).roots v).getD 0)) = _
    rw [ha]
    rfl
  | _ => cases hw

/-- **What primitives see of their callers.**  A primitive does the same in two contexts that have
    the frames in common that it sees, and that give the same answers when it asks what is alive. -/
theorem Primitive.run_agrees (p : Primitive) (hn : 1 ≤ n) (hp : p.actsOnCaller = true → 2 ≤ n)
    (ht : c.frames.take n = d.frames.take n) (ha : p.SameAnswers (m.within c) (m.within d)) :
    Agrees n p.run m c d := by
  by_cases hl : p.looks = true
  · have hlast := ha.last
    cases p with
    | memory w => exact w.run_agrees hl hp ht hlast
    | defining w => exact w.run_agrees hl hlast
    | control w => exact (w.run_agrees hl hlast).before_blind fun _ => .pure _
    | object w =>
      have hw : w = .refcount := by cases w <;> first | rfl | cases hl
      exact (w.run_agrees hl (ha.count (by rw [hw]))).before_blind fun _ => .pure _
    | _ => cases hl
  · exact p.run_respects (s := false) (fun h => absurd h hl) hn hp m c d ⟨ht, nofun, nofun⟩

end ThreadedForth
