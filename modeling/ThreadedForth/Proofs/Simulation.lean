/-
  Compiled programs do what the programs mean.
-/
import ThreadedForth.Proofs.CodeSteps
import ThreadedForth.Proofs.Definitions

namespace ThreadedForth

/-- A program in which `leave` stands inside counted loops only; the flag says whether there is one
    around it.  What takes a counted loop apart, and calls of the word itself, are left out. -/
def Prog.Scoped : Bool → Prog → Prop
  | inLoop, simple .leave => inLoop = true
  | _, simple .unloop | _, simple .recurse => False
  | _, skip | _, simple _ => True
  | inLoop, seq p q | inLoop, ifElse p q | inLoop, beginWhile p q =>
    p.Scoped inLoop ∧ q.Scoped inLoop
  | inLoop, ifThen p | inLoop, beginUntil p | inLoop, beginAgain p => p.Scoped inLoop
  | _, count _ _ p => p.Scoped true

namespace Task

/-- The program of a task. -/
def program : Task → Prog
  | prog p | loop p _ => p

/-- The number of elements of the code of a task. -/
def size : Task → Nat
  | prog p => p.size
  | loop p _ => p.size + 3

/-- The code of a task that starts at the position `a`. -/
def layout (k : BranchWord → WordId) (a : Nat) : Task → List Elem
  | prog p => p.layout k a
  | loop p b => p.layout k a ++ Prog.jumpElems k a b

theorem Closed.jumps {p : Prog} {b : BranchWord} (h : (Task.loop p b).Closed) : b.Jumps := by
  cases b with
  | jump | jumpIfFalse | advanceCount _ => trivial
  | _ => exact h.elim

end Task

/-! ## The parts of code -/

namespace CodeAt

variable {k : BranchWord → WordId} {es : List Elem} {a : Nat} {p q : Prog}

theorem seq (h : CodeAt es a ((p.seq q).layout k a)) :
    CodeAt es a (p.layout k a) ∧ CodeAt es (a + p.size) (q.layout k (a + p.size)) := by
  rw [Prog.layout_seq] at h
  have h₂ := h.right
  rw [Prog.length_layout] at h₂
  exact ⟨h.left, h₂⟩

theorem ifThen (h : CodeAt es a ((Prog.ifThen p).layout k a)) :
    CodeAt es a (Prog.jumpElems k (a + 3 + p.size) .jumpIfFalse) ∧
      CodeAt es (a + 3) (p.layout k (a + 3)) ∧ a + 3 + p.size ≤ es.length := by
  rw [Prog.layout_ifThen] at h
  have hle := h.right.le
  rw [Prog.length_layout] at hle
  exact ⟨h.left, h.right, hle⟩

theorem ifElse (h : CodeAt es a ((Prog.ifElse p q).layout k a)) :
    CodeAt es a (Prog.jumpElems k (a + 3 + p.size + 3) .jumpIfFalse) ∧
      CodeAt es (a + 3) (p.layout k (a + 3)) ∧
      CodeAt es (a + 3 + p.size) (Prog.jumpElems k (a + 3 + p.size + 3 + q.size) .jump) ∧
      CodeAt es (a + 3 + p.size + 3) (q.layout k (a + 3 + p.size + 3)) ∧
      a + 3 + p.size + 3 + q.size ≤ es.length := by
  rw [Prog.layout_ifElse] at h
  have h₂ := h.right
  rw [List.length_append, Prog.length_layout, Draft.length_jumpElems, ← Nat.add_assoc] at h₂
  have hle := h₂.right.le
  rw [Prog.length_layout] at hle
  exact ⟨h.left.left, h.left.right, h₂.left, h₂.right, hle⟩

theorem beginWhile (h : CodeAt es a ((Prog.beginWhile p q).layout k a)) :
    CodeAt es a (p.layout k a) ∧
      CodeAt es (a + p.size) (Prog.jumpElems k (a + p.size + 3 + q.size + 3) .jumpIfFalse) ∧
      CodeAt es (a + p.size + 3) (q.layout k (a + p.size + 3)) ∧
      CodeAt es (a + p.size + 3 + q.size) (Prog.jumpElems k a .jump) ∧
      a + p.size + 3 + q.size + 3 ≤ es.length := by
  rw [Prog.layout_beginWhile] at h
  have h₂ := h.right
  rw [Prog.length_layout] at h₂
  have h₃ := h₂.right
  rw [List.length_append, Prog.length_layout, Draft.length_jumpElems, ← Nat.add_assoc] at h₃
  exact ⟨h.left, h₂.left.left, h₂.left.right, h₃, h₃.le⟩

theorem count {maySkip stepped : Bool} (h : CodeAt es a ((Prog.count maySkip stepped p).layout k a)) :
    CodeAt es a (Prog.jumpElems k (a + 3 + p.size + 3) (.enterCount maySkip)) ∧
      CodeAt es (a + 3) ((Task.loop p (.advanceCount stepped)).layout k (a + 3)) ∧
      a + 3 + p.size + 3 ≤ es.length := by
  rw [Prog.layout_count, List.append_assoc] at h
  have hle := h.right.le
  rw [List.length_append, Prog.length_layout, Draft.length_jumpElems, ← Nat.add_assoc] at hle
  exact ⟨h.left, h.right, hle⟩

theorem loop {b : BranchWord} (h : CodeAt es a ((Task.loop p b).layout k a)) :
    CodeAt es a (p.layout k a) ∧ CodeAt es (a + p.size) (Prog.jumpElems k a b) ∧
      a + p.size + 3 ≤ es.length := by
  rw [Task.layout] at h
  have h₂ := h.right
  rw [Prog.length_layout] at h₂
  exact ⟨h.left, h₂, h₂.le⟩

theorem beginUntil (h : CodeAt es a ((Prog.beginUntil p).layout k a)) :
    CodeAt es a ((Task.loop p .jumpIfFalse).layout k a) := by
  rwa [Prog.layout_beginUntil] at h

theorem beginAgain (h : CodeAt es a ((Prog.beginAgain p).layout k a)) :
    CodeAt es a ((Task.loop p .jump).layout k a) := by
  rwa [Prog.layout_beginAgain] at h

end CodeAt

namespace Machine

variable {es : List Elem} {exit? : Option Nat} {a : Nat} {s s₁ : Machine}

/-- The jump back of a loop leaves its surroundings on the return stack alone. -/
theorem InLoop.again {p : Prog} {b : BranchWord} (hx : InLoop es exit? s)
    (ht : (Task.loop p b).Closed) (h : b.choose a s = .ok false s₁) : InLoop es exit? s₁ := by
  cases b with
  | advanceCount stepped =>
    obtain ⟨i, hi⟩ := (BranchWord.advanceCount_return h).2 rfl
    intro t hexit
    obtain ⟨hbound, j, l, rest, hitems⟩ := hx t hexit
    refine ⟨hbound, i, l, rest, ?_⟩
    rw [hi, hitems]
    rfl
  | jump | jumpIfFalse => exact hx.of_return (BranchWord.choose_return h nofun nofun)
  | _ => exact ht.elim

/-- A counted loop that has been entered. -/
theorem InLoop.enter {maySkip : Bool} {target : Nat} (hb : 1 ≤ target ∧ target ≤ es.length)
    (h : (BranchWord.enterCount maySkip).choose target s = .ok true s₁) :
    InLoop es (some target) s₁ := by
  obtain ⟨i, l, hr⟩ := (BranchWord.enterCount_return h).1 rfl
  rintro t ⟨⟩
  exact ⟨hb, i, l, s.return.items, by rw [hr]⟩

end Machine

/-! ## Where the machine stands -/

namespace Machine

variable {k : BranchWord → WordId} {w : WordId} {es : List Elem} {exit? : Option Nat} {t : Task}
  {p q : Prog} {a : Nat} {s s₁ s₂ s₃ s₄ : Machine}

/-- Neither the code nor the return stack has changed. -/
structure Passes (k : BranchWord → WordId) (w : WordId) (s s₁ : Machine) : Prop where
  steady : Steady k w s s₁
  same : s₁.return = s.return

namespace Passes

theorem refl (s : Machine) : Passes k w s s := ⟨.refl s, rfl⟩

theorem trans (h : Passes k w s s₁) (h' : Passes k w s₁ s₂) : Passes k w s s₂ :=
  ⟨h.steady.trans h'.steady, h'.same.trans h.same⟩

theorem of_eval (h : Eval k w (.prog p) a s (.next s₁)) : Passes k w s s₁ :=
  ⟨(h.keeps trivial).1, (h.keeps trivial).2⟩

theorem of_flag {target : Nat} {c : Bool} (h : BranchWord.jumpIfFalse.choose target s = .ok c s₁) :
    Passes k w s s₁ :=
  ⟨.of_choose h, BranchWord.choose_return h nofun nofun⟩

theorem of_jump {target : Nat} {c : Bool} (h : BranchWord.jump.choose target s = .ok c s₁) :
    Passes k w s s₁ :=
  ⟨.of_choose h, BranchWord.choose_return h nofun nofun⟩

end Passes

/-- The machine comes to the code of a task; `exit?` is the end of the innermost counted loop
    around it. -/
structure Ready (k : BranchWord → WordId) (w : WordId) (es : List Elem) (exit? : Option Nat)
    (t : Task) (a : Nat) (s : Machine) : Prop where
  closed : t.Closed
  scope : t.program.Scoped exit?.isSome
  start : 1 ≤ a
  fits : es.length < 2 ^ 63
  holds : Holds k w es s
  code : CodeAt es a (t.layout k a)
  loop : InLoop es exit? s

namespace Ready

/-- From one part of the code to another. -/
theorem move (h : Ready k w es exit? t a s) (hs : Passes k w s s₁) {a' : Nat}
    (hp : p.Scoped exit?.isSome) (ha : a ≤ a') (hat : CodeAt es a' (p.layout k a')) :
    Ready k w es exit? (.prog p) a' s₁ where
  closed := trivial
  scope := hp
  start := Nat.le_trans h.start ha
  fits := h.fits
  holds := h.holds.steady hs.steady
  code := hat
  loop := h.loop.of_return hs.same

/-- From the start of a task to one of its jumps. -/
theorem atJump (h : Ready k w es exit? t a s) (hs : Steady k w s s₁) {b : BranchWord}
    {target ip : Nat} (hb : b.Jumps) (hat : CodeAt es ip (Prog.jumpElems k target b))
    (ht : a ≤ target ∧ target ≤ es.length) : AtJump k w es b target ip s₁ :=
  ⟨hb, h.holds.steady hs, hat, ⟨Nat.le_trans h.start ht.1, ht.2⟩, h.fits⟩

theorem seq_left (h : Ready k w es exit? (.prog (.seq p q)) a s) :
    Ready k w es exit? (.prog p) a s :=
  h.move (.refl s) h.scope.1 (Nat.le_refl a) h.code.seq.1

theorem seq_right (h : Ready k w es exit? (.prog (.seq p q)) a s)
    (hp : Eval k w (.prog p) a s (.next s₁)) : Ready k w es exit? (.prog q) (a + p.size) s₁ :=
  h.move (.of_eval hp) h.scope.2 (Nat.le_add_right _ _) h.code.seq.2

theorem ifThen_jump (h : Ready k w es exit? (.prog (.ifThen p)) a s) :
    AtJump k w es .jumpIfFalse (a + 3 + p.size) a s := by
  obtain ⟨hat, -, hle⟩ := h.code.ifThen
  exact h.atJump (.refl s) trivial hat ⟨by omega, hle⟩

theorem ifThen_part (h : Ready k w es exit? (.prog (.ifThen p)) a s)
    (hc : BranchWord.jumpIfFalse.choose (a + 3 + p.size) s = .ok true s₁) :
    Ready k w es exit? (.prog p) (a + 3) s₁ :=
  h.move (.of_flag hc) h.scope (Nat.le_add_right _ _) h.code.ifThen.2.1

theorem ifElse_jump (h : Ready k w es exit? (.prog (.ifElse p q)) a s) :
    AtJump k w es .jumpIfFalse (a + 3 + p.size + 3) a s := by
  obtain ⟨hat, -, -, -, hle⟩ := h.code.ifElse
  exact h.atJump (.refl s) trivial hat ⟨by omega, by omega⟩

theorem ifElse_left (h : Ready k w es exit? (.prog (.ifElse p q)) a s)
    (hc : BranchWord.jumpIfFalse.choose (a + 3 + p.size + 3) s = .ok true s₁) :
    Ready k w es exit? (.prog p) (a + 3) s₁ :=
  h.move (.of_flag hc) h.scope.1 (Nat.le_add_right _ _) h.code.ifElse.2.1

theorem ifElse_right (h : Ready k w es exit? (.prog (.ifElse p q)) a s)
    (hc : BranchWord.jumpIfFalse.choose (a + 3 + p.size + 3) s = .ok false s₁) :
    Ready k w es exit? (.prog q) (a + 3 + p.size + 3) s₁ :=
  h.move (.of_flag hc) h.scope.2 (by omega) h.code.ifElse.2.2.2.1

/-- The end of the first part jumps over the second one. -/
theorem ifElse_join (h : Ready k w es exit? (.prog (.ifElse p q)) a s)
    (hc : BranchWord.jumpIfFalse.choose (a + 3 + p.size + 3) s = .ok true s₁)
    (hp : Eval k w (.prog p) (a + 3) s₁ (.next s₂)) :
    AtJump k w es .jump (a + 3 + p.size + 3 + q.size) (a + 3 + p.size) s₂ := by
  obtain ⟨-, -, hat, -, hle⟩ := h.code.ifElse
  exact h.atJump ((Passes.of_flag hc).trans (.of_eval hp)).steady trivial hat ⟨by omega, hle⟩

theorem while_test (h : Ready k w es exit? (.prog (.beginWhile p q)) a s) :
    Ready k w es exit? (.prog p) a s :=
  h.move (.refl s) h.scope.1 (Nat.le_refl a) h.code.beginWhile.1

theorem while_jump (h : Ready k w es exit? (.prog (.beginWhile p q)) a s)
    (hp : Eval k w (.prog p) a s (.next s₁)) :
    AtJump k w es .jumpIfFalse (a + p.size + 3 + q.size + 3) (a + p.size) s₁ := by
  obtain ⟨-, hat, -, -, hle⟩ := h.code.beginWhile
  exact h.atJump (Passes.of_eval hp).steady trivial hat ⟨by omega, hle⟩

theorem while_part (h : Ready k w es exit? (.prog (.beginWhile p q)) a s)
    (hp : Eval k w (.prog p) a s (.next s₁))
    (hc : BranchWord.jumpIfFalse.choose (a + p.size + 3 + q.size + 3) s₁ = .ok true s₂) :
    Ready k w es exit? (.prog q) (a + p.size + 3) s₂ :=
  h.move ((Passes.of_eval hp).trans (.of_flag hc)) h.scope.2 (by omega) h.code.beginWhile.2.2.1

theorem while_back (h : Ready k w es exit? (.prog (.beginWhile p q)) a s)
    (hs : Passes k w s s₂) (hq : Eval k w (.prog q) (a + p.size + 3) s₂ (.next s₃)) :
    AtJump k w es .jump a (a + p.size + 3 + q.size) s₃ := by
  obtain ⟨-, -, -, hat, hle⟩ := h.code.beginWhile
  exact h.atJump (hs.trans (.of_eval hq)).steady trivial hat ⟨Nat.le_refl a, by omega⟩

theorem again (h : Ready k w es exit? (.prog p) a s) (hs : Passes k w s s₁) :
    Ready k w es exit? (.prog p) a s₁ :=
  h.move hs h.scope (Nat.le_refl a) h.code

theorem until_rounds (h : Ready k w es exit? (.prog (.beginUntil p)) a s) :
    Ready k w es exit? (.loop p .jumpIfFalse) a s :=
  ⟨trivial, h.scope, h.start, h.fits, h.holds, h.code.beginUntil, h.loop⟩

theorem again_rounds (h : Ready k w es exit? (.prog (.beginAgain p)) a s) :
    Ready k w es exit? (.loop p .jump) a s :=
  ⟨trivial, h.scope, h.start, h.fits, h.holds, h.code.beginAgain, h.loop⟩

theorem count_jump {maySkip stepped : Bool}
    (h : Ready k w es exit? (.prog (.count maySkip stepped p)) a s) :
    AtJump k w es (.enterCount maySkip) (a + 3 + p.size + 3) a s := by
  obtain ⟨hat, -, hle⟩ := h.code.count
  exact h.atJump (.refl s) trivial hat ⟨by omega, hle⟩

/-- The rounds of a counted loop can leave it. -/
theorem count_rounds {maySkip stepped : Bool}
    (h : Ready k w es exit? (.prog (.count maySkip stepped p)) a s)
    (hc : (BranchWord.enterCount maySkip).choose (a + 3 + p.size + 3) s = .ok true s₁) :
    Ready k w es (some (a + 3 + p.size + 3)) (.loop p (.advanceCount stepped)) (a + 3) s₁ := by
  obtain ⟨-, hat, hle⟩ := h.code.count
  exact ⟨trivial, h.scope, by omega, h.fits, h.holds.steady (.of_choose hc), hat,
    .enter ⟨by omega, hle⟩ hc⟩

theorem loop_part {b : BranchWord} (h : Ready k w es exit? (.loop p b) a s) :
    Ready k w es exit? (.prog p) a s :=
  h.move (.refl s) h.scope (Nat.le_refl a) h.code.loop.1

theorem loop_jump {b : BranchWord} (h : Ready k w es exit? (.loop p b) a s)
    (hp : Eval k w (.prog p) a s (.next s₁)) : AtJump k w es b a (a + p.size) s₁ := by
  obtain ⟨-, hat, hle⟩ := h.code.loop
  exact h.atJump (Passes.of_eval hp).steady h.closed.jumps hat ⟨Nat.le_refl a, by omega⟩

theorem loop_again {b : BranchWord} (h : Ready k w es exit? (.loop p b) a s)
    (hp : Eval k w (.prog p) a s (.next s₁)) (hc : b.choose a s₁ = .ok false s₂) :
    Ready k w es exit? (.loop p b) a s₂ := by
  have hs : Passes k w s s₁ := .of_eval hp
  refine ⟨h.closed, h.scope, h.start, h.fits, ?_, h.code, ?_⟩
  · exact h.holds.steady (hs.steady.trans (.of_choose hc))
  · exact (h.loop.of_return hs.same).again h.closed hc

end Ready

/-! ## From the program to its code -/

section Arrives

variable {x y : Machine} {o : Ending} {end₁ : Nat}

/-- The code comes to where the program ends: behind its own end, behind the innermost counted
    loop, or out of the word. -/
def Arrives (w : WordId) (x : Machine) (exit? : Option Nat) (end₁ : Nat) : Ending → Prop
  | .next s' => ∃ n d, Goes n x (s'.inside w end₁ d)
  | .left s' => ∃ t n d, exit? = some t ∧ Goes n x (s'.inside w t d)
  | .exited s' => ∃ n d, Goes n x (s'.back d)
  | .failed e s' => ∃ n d, steps n x = some (.error e { s' with debugger := d })
  | .foreign => True

namespace Arrives

theorem of_goes {n : Nat} (hg : Goes n x y) (h : Arrives w y exit? end₁ o) :
    Arrives w x exit? end₁ o := by
  cases o with
  | next s' =>
    obtain ⟨j, d, h⟩ := h
    exact ⟨n + j, d, hg.trans h⟩
  | left s' =>
    obtain ⟨t, j, d, ht, h⟩ := h
    exact ⟨t, n + j, d, ht, hg.trans h⟩
  | exited s' =>
    obtain ⟨j, d, h⟩ := h
    exact ⟨n + j, d, hg.trans h⟩
  | failed e s' =>
    obtain ⟨j, d, h⟩ := h
    exact ⟨n + j, d, by rw [steps_of_goes hg, h]⟩
  | foreign => trivial

/-- A program that stops does not come to its end. -/
theorem of_stops (h : Arrives w x exit? end₁ o) (ho : o.Stops) (end₂ : Nat) :
    Arrives w x exit? end₂ o := by
  cases o with
  | next s' => exact ho.elim
  | _ => exact h

theorem cast (h : Arrives w x exit? end₁ o) {end₂ : Nat} (he : end₁ = end₂) :
    Arrives w x exit? end₂ o :=
  he ▸ h

/-- A counted loop catches what leaves it. -/
theorem caught {end₂ : Nat} (h : Arrives w x (some end₁) end₁ o) (he : end₁ = end₂) :
    Arrives w x exit? end₂ o.caught := by
  subst he
  cases o with
  | left s' =>
    obtain ⟨t, n, d, ⟨⟩, h⟩ := h
    exact ⟨n, d, h⟩
  | _ => exact h

end Arrives

end Arrives
end Machine

open Machine

section

variable {k : BranchWord → WordId} {w : WordId} {es : List Elem} {exit? : Option Nat}

/-- **What a program does, its code does.** -/
theorem Eval.arrives {t : Task} {a : Nat} {s : Machine} {o : Ending} (h : Eval k w t a s o)
    (hR : Ready k w es exit? t a s) (d : Debugger) :
    Arrives w (s.inside w a d) exit? (a + t.size) o := by
  induction h generalizing exit? d with
  | skip => exact ⟨0, d, .refl _⟩
  | @number a s v =>
    have hlit := literal_goes hR.holds.toCarries (hR.holds.words .inlineLiteral (by decide)) hR.code d
    cases hp : M.push v s with
    | ok _ s₁ =>
      rw [hp] at hlit
      obtain ⟨d', hg⟩ := hlit
      exact ⟨2, d', hg⟩
    | error e s₁ =>
      rw [hp] at hlit
      obtain ⟨d', hr⟩ := hlit
      exact ⟨2, d', hr⟩
  | exit hc =>
    obtain ⟨d', hg⟩ := exit_goes hR.holds.toCarries hR.code.get hc d
    exact ⟨2, d', hg⟩
  | @call a s c fuel r hc hl hr =>
    cases r with
    | ok _ m' =>
      exact call_goes hR.holds.toCarries hR.code.get hl.stays.calm hr (hl.returns fuel m' hr).1 d
    | error e m' => exact call_fails hR.holds.toCarries hR.code.get hl.stays.calm hr d
  | foreign => trivial
  | leave hdrop =>
    obtain ⟨x, rfl⟩ := Option.isSome_iff_exists.1 hR.scope
    obtain ⟨d', hg⟩ := leave_goes hR.holds hR.code.get hR.loop hR.fits hdrop d
    exact ⟨x, 2, d', rfl, hg⟩
  | seqStop _ ho ih => exact (ih hR.seq_left d).of_stops ho _
  | seq hp _ ihp ihq =>
    obtain ⟨n, d', hg⟩ := ihp hR.seq_left d
    exact .of_goes hg ((ihq (hR.seq_right hp) d').cast (Nat.add_assoc _ _ _))
  | ifFail h => exact hR.ifThen_jump.fails d h
  | @ifFalse a s s₁ p h =>
    obtain ⟨d', hg⟩ := hR.ifThen_jump.goes_to d h
    have he : a + 3 + p.size = a + (Task.prog (.ifThen p)).size := Nat.add_assoc _ _ _
    exact he ▸ ⟨4, d', hg⟩
  | ifTrue h _ ih =>
    obtain ⟨d', hg⟩ := hR.ifThen_jump.goes_on d h
    exact .of_goes hg ((ih (hR.ifThen_part h) d').cast (Nat.add_assoc _ _ _))
  | elseFail h => exact hR.ifElse_jump.fails d h
  | @elseFalse a s s₁ p q o h _ ih =>
    have he : a + 3 + p.size + 3 + q.size = a + (Task.prog (.ifElse p q)).size := by
      simp only [Task.size, Prog.size]
      omega
    obtain ⟨d', hg⟩ := hR.ifElse_jump.goes_to d h
    exact .of_goes hg ((ih (hR.ifElse_right h) d').cast he)
  | elseTrueStop h _ ho ih =>
    obtain ⟨d', hg⟩ := hR.ifElse_jump.goes_on d h
    exact .of_goes hg ((ih (hR.ifElse_left h) d').of_stops ho _)
  | @elseTrue a s s₁ s₂ p q h hp ih =>
    have he : a + 3 + p.size + 3 + q.size = a + (Task.prog (.ifElse p q)).size := by
      simp only [Task.size, Prog.size]
      omega
    obtain ⟨d₁, hg₁⟩ := hR.ifElse_jump.goes_on d h
    obtain ⟨n, d₂, hg₂⟩ := ih (hR.ifElse_left h) d₁
    have hjoin := hR.ifElse_join h hp
    refine .of_goes hg₁ (.of_goes hg₂ (Arrives.cast ?_ he))
    cases hc : BranchWord.jump.choose (a + 3 + p.size + 3 + q.size) s₂ with
    | ok c s₃ =>
      obtain rfl := BranchWord.jump_choose hc
      obtain ⟨d₃, hg₃⟩ := hjoin.goes_to d₂ hc
      exact ⟨4, d₃, hg₃⟩
    | error e s₃ => exact hjoin.fails d₂ hc
  | beginUntil _ ih => exact ih hR.until_rounds d
  | beginAgain _ ih => exact ih hR.again_rounds d
  | whileStop _ ho ih => exact (ih hR.while_test d).of_stops ho _
  | whileFail hp h ih =>
    obtain ⟨n, d₁, hg₁⟩ := ih hR.while_test d
    exact .of_goes hg₁ ((hR.while_jump hp).fails d₁ h)
  | @whileFalse a s s₁ s₂ p q hp h ih =>
    have he : a + p.size + 3 + q.size + 3 = a + (Task.prog (.beginWhile p q)).size := by
      simp only [Task.size, Prog.size]
      omega
    obtain ⟨n, d₁, hg₁⟩ := ih hR.while_test d
    obtain ⟨d₂, hg₂⟩ := (hR.while_jump hp).goes_to d₁ h
    exact .of_goes hg₁ (he ▸ ⟨4, d₂, hg₂⟩)
  | whileTrueStop hp h _ ho ihp ihq =>
    obtain ⟨n, d₁, hg₁⟩ := ihp hR.while_test d
    obtain ⟨d₂, hg₂⟩ := (hR.while_jump hp).goes_on d₁ h
    exact .of_goes hg₁ (.of_goes hg₂ ((ihq (hR.while_part hp h) d₂).of_stops ho _))
  | whileTrueFail hp h hq hj ihp ihq =>
    obtain ⟨n, d₁, hg₁⟩ := ihp hR.while_test d
    obtain ⟨d₂, hg₂⟩ := (hR.while_jump hp).goes_on d₁ h
    obtain ⟨j, d₃, hg₃⟩ := ihq (hR.while_part hp h) d₂
    have hback := hR.while_back ((Passes.of_eval hp).trans (.of_flag h)) hq
    exact .of_goes hg₁ (.of_goes hg₂ (.of_goes hg₃ (hback.fails d₃ hj)))
  | whileTrue hp h hq hj _ ihp ihq ihl =>
    obtain ⟨n, d₁, hg₁⟩ := ihp hR.while_test d
    obtain ⟨d₂, hg₂⟩ := (hR.while_jump hp).goes_on d₁ h
    obtain ⟨j, d₃, hg₃⟩ := ihq (hR.while_part hp h) d₂
    have hs₂ := (Passes.of_eval hp).trans (.of_flag h)
    obtain ⟨d₄, hg₄⟩ := (hR.while_back hs₂ hq).goes_to d₃ hj
    have hs₄ := hs₂.trans ((Passes.of_eval hq).trans (.of_jump hj))
    exact .of_goes hg₁ (.of_goes hg₂ (.of_goes hg₃ (.of_goes hg₄ (ihl (hR.again hs₄) d₄))))
  | countFail h => exact hR.count_jump.fails d h
  | @countSkip a s s₁ maySkip stepped p h =>
    have he : a + 3 + p.size + 3 = a + (Task.prog (.count maySkip stepped p)).size := by
      simp only [Task.size, Prog.size]
      omega
    obtain ⟨d', hg⟩ := hR.count_jump.goes_to d h
    exact he ▸ ⟨4, d', hg⟩
  | @count a s s₁ maySkip stepped p o h _ ih =>
    have he : a + 3 + p.size + 3 = a + (Task.prog (.count maySkip stepped p)).size := by
      simp only [Task.size, Prog.size]
      omega
    obtain ⟨d', hg⟩ := hR.count_jump.goes_on d h
    exact .of_goes hg ((ih (hR.count_rounds h) d').caught he)
  | loopStop _ ho ih => exact (ih hR.loop_part d).of_stops ho _
  | loopFail hp h ih =>
    obtain ⟨n, d₁, hg₁⟩ := ih hR.loop_part d
    exact .of_goes hg₁ ((hR.loop_jump hp).fails d₁ h)
  | loopEnd hp h ih =>
    obtain ⟨n, d₁, hg₁⟩ := ih hR.loop_part d
    obtain ⟨d₂, hg₂⟩ := (hR.loop_jump hp).goes_on d₁ h
    exact .of_goes hg₁ ⟨4, d₂, hg₂⟩
  | loopAgain hp h _ ihp ihl =>
    obtain ⟨n, d₁, hg₁⟩ := ihp hR.loop_part d
    obtain ⟨d₂, hg₂⟩ := (hR.loop_jump hp).goes_to d₁ h
    exact .of_goes hg₁ (.of_goes hg₂ (ihl (hR.loop_again hp h) d₂))

end

/-! ## From the code to the program -/

namespace Machine

variable {k : BranchWord → WordId} {w : WordId} {es : List Elem} {exit? : Option Nat} {p q : Prog}
  {a n : Nat} {s s₁ : Machine} {d : Debugger} {r : EStateM.Result Error Machine Unit}

/-- What is left of a run after a jump that goes on behind it. -/
theorem AtJump.rest_on {b : BranchWord} {t : Nat} (hj : AtJump k w es b t a s)
    (hr : steps n (s.inside w a d) = some r) (hc : b.choose t s = .ok true s₁) :
    ∃ n' d', n' < n ∧ steps n' (s₁.inside w (a + 3) d') = some r := by
  obtain ⟨d', hg⟩ := hj.goes_on d hc
  obtain ⟨left, rfl, hl⟩ := hg.cut hr
  exact ⟨left, d', by omega, hl⟩

/-- What is left of a run after a jump to its target. -/
theorem AtJump.rest_to {b : BranchWord} {t : Nat} (hj : AtJump k w es b t a s)
    (hr : steps n (s.inside w a d) = some r) (hc : b.choose t s = .ok false s₁) :
    ∃ n' d', n' < n ∧ steps n' (s₁.inside w t d') = some r := by
  obtain ⟨d', hg⟩ := hj.goes_to d hc
  obtain ⟨left, rfl, hl⟩ := hg.cut hr
  exact ⟨left, d', by omega, hl⟩

/-- What is left of a run after a program. -/
theorem Ready.rest (hR : Ready k w es exit? (.prog p) a s)
    (hp : Eval k w (.prog p) a s (.next s₁)) (hr : steps n (s.inside w a d) = some r) :
    ∃ n' d', n' ≤ n ∧ steps n' (s₁.inside w (a + p.size) d') = some r := by
  obtain ⟨j, d', hg⟩ := hp.arrives hR d
  obtain ⟨left, rfl, hl⟩ := hg.cut hr
  exact ⟨left, d', by omega, hl⟩

/-- If the code of a task comes to an end, then so does the task. -/
def Ends (k : BranchWord → WordId) (w : WordId) (es : List Elem) (t : Task) : Prop :=
  ∀ ⦃exit? a s d n r⦄, Ready k w es exit? t a s → steps n (s.inside w a d) = some r →
    ∃ o, Eval k w t a s o

namespace Ends

/-- The rounds of a loop.  Each of them is shorter than what is left of the run. -/
theorem loop (hp : Ends k w es (.prog p)) (b : BranchWord) : Ends k w es (.loop p b) := by
  intro exit? a s d n r hR hr
  induction n using Nat.strongRecOn generalizing s d with
  | _ n ih =>
    obtain ⟨o, ho⟩ := hp hR.loop_part hr
    cases o with
    | next s₁ =>
      obtain ⟨n₁, d₁, hn₁, hr₁⟩ := hR.loop_part.rest ho hr
      cases hc : b.choose a s₁ with
      | error e s₂ => exact ⟨_, .loopFail ho hc⟩
      | ok c s₂ =>
        cases c with
        | true => exact ⟨_, .loopEnd ho hc⟩
        | false =>
          obtain ⟨n₂, d₂, hn₂, hr₂⟩ := (hR.loop_jump ho).rest_to hr₁ hc
          obtain ⟨o, hl⟩ := ih n₂ (by omega) (hR.loop_again ho hc) hr₂
          exact ⟨o, .loopAgain ho hc hl⟩
    | _ => exact ⟨_, .loopStop ho trivial⟩

theorem beginWhile (hp : Ends k w es (.prog p)) (hq : Ends k w es (.prog q)) :
    Ends k w es (.prog (.beginWhile p q)) := by
  intro exit? a s d n r hR hr
  induction n using Nat.strongRecOn generalizing s d with
  | _ n ih =>
    obtain ⟨o, ho⟩ := hp hR.while_test hr
    cases o with
    | next s₁ =>
      obtain ⟨n₁, d₁, hn₁, hr₁⟩ := hR.while_test.rest ho hr
      cases hc : BranchWord.jumpIfFalse.choose (a + p.size + 3 + q.size + 3) s₁ with
      | error e s₂ => exact ⟨_, .whileFail ho hc⟩
      | ok c s₂ =>
        cases c with
        | false => exact ⟨_, .whileFalse ho hc⟩
        | true =>
          have hpart := hR.while_part ho hc
          obtain ⟨n₂, d₂, hn₂, hr₂⟩ := (hR.while_jump ho).rest_on hr₁ hc
          obtain ⟨o, ho'⟩ := hq hpart hr₂
          cases o with
          | next s₃ =>
            obtain ⟨n₃, d₃, hn₃, hr₃⟩ := hpart.rest ho' hr₂
            have hs₂ : Passes k w s s₂ := (Passes.of_eval ho).trans (.of_flag hc)
            cases hj : BranchWord.jump.choose a s₃ with
            | error e s₄ => exact ⟨_, .whileTrueFail ho hc ho' hj⟩
            | ok c s₄ =>
              obtain rfl := BranchWord.jump_choose hj
              obtain ⟨n₄, d₄, hn₄, hr₄⟩ := (hR.while_back hs₂ ho').rest_to hr₃ hj
              have hs₄ := hs₂.trans ((Passes.of_eval ho').trans (.of_jump hj))
              obtain ⟨o, hl⟩ := ih n₄ (by omega) (hR.again hs₄) hr₄
              exact ⟨o, .whileTrue ho hc ho' hj hl⟩
          | _ => exact ⟨_, .whileTrueStop ho hc ho' trivial⟩
    | _ => exact ⟨_, .whileStop ho trivial⟩

theorem simple (x : Simple) : Ends k w es (.prog (.simple x)) := by
  intro exit? a s d n r hR hr
  cases x with
  | number v => exact ⟨_, .number⟩
  | word c =>
    by_cases hc : s.Exits c
    · exact ⟨_, .exit hc⟩
    · by_cases hl : Local k w (s.calling w (a + 1)) c
      · obtain ⟨fuel, r', hr'⟩ := call_ends hR.holds.toCarries hR.code.get hl.stays.calm hr
        exact ⟨_, .call hc hl hr'⟩
      · exact ⟨_, .foreign hc hl⟩
  | leave =>
    obtain ⟨x, rfl⟩ := Option.isSome_iff_exists.1 hR.scope
    obtain ⟨-, i, l, rest, hitems⟩ := hR.loop x rfl
    exact ⟨_, .leave (BranchWord.dropLoop_of_items hitems)⟩
  | unloop | recurse => exact hR.scope.elim

end Ends

/-- **Code that comes to an end is code of a program that does.** -/
theorem Ends.prog (p : Prog) : Ends k w es (.prog p) := by
  induction p with
  | skip => exact fun _ _ _ _ _ _ _ _ => ⟨_, .skip⟩
  | simple x => exact .simple x
  | seq p q ihp ihq =>
    intro exit? a s d n r hR hr
    obtain ⟨o, ho⟩ := ihp hR.seq_left hr
    cases o with
    | next s₁ =>
      obtain ⟨n₁, d₁, -, hr₁⟩ := hR.seq_left.rest ho hr
      obtain ⟨o, ho'⟩ := ihq (hR.seq_right ho) hr₁
      exact ⟨o, .seq ho ho'⟩
    | _ => exact ⟨_, .seqStop ho trivial⟩
  | ifThen p ih =>
    intro exit? a s d n r hR hr
    cases hc : BranchWord.jumpIfFalse.choose (a + 3 + p.size) s with
    | error e s₁ => exact ⟨_, .ifFail hc⟩
    | ok c s₁ =>
      cases c with
      | false => exact ⟨_, .ifFalse hc⟩
      | true =>
        obtain ⟨n₁, d₁, -, hr₁⟩ := hR.ifThen_jump.rest_on hr hc
        obtain ⟨o, ho⟩ := ih (hR.ifThen_part hc) hr₁
        exact ⟨o, .ifTrue hc ho⟩
  | ifElse p q ihp ihq =>
    intro exit? a s d n r hR hr
    cases hc : BranchWord.jumpIfFalse.choose (a + 3 + p.size + 3) s with
    | error e s₁ => exact ⟨_, .elseFail hc⟩
    | ok c s₁ =>
      cases c with
      | false =>
        obtain ⟨n₁, d₁, -, hr₁⟩ := hR.ifElse_jump.rest_to hr hc
        obtain ⟨o, ho⟩ := ihq (hR.ifElse_right hc) hr₁
        exact ⟨o, .elseFalse hc ho⟩
      | true =>
        obtain ⟨n₁, d₁, -, hr₁⟩ := hR.ifElse_jump.rest_on hr hc
        obtain ⟨o, ho⟩ := ihp (hR.ifElse_left hc) hr₁
        cases o with
        | next s₂ => exact ⟨_, .elseTrue hc ho⟩
        | _ => exact ⟨_, .elseTrueStop hc ho trivial⟩
  | beginUntil p ih =>
    intro exit? a s d n r hR hr
    obtain ⟨o, ho⟩ := ih.loop .jumpIfFalse hR.until_rounds hr
    exact ⟨o, .beginUntil ho⟩
  | beginAgain p ih =>
    intro exit? a s d n r hR hr
    obtain ⟨o, ho⟩ := ih.loop .jump hR.again_rounds hr
    exact ⟨o, .beginAgain ho⟩
  | beginWhile p q ihp ihq => exact ihp.beginWhile ihq
  | count maySkip stepped p ih =>
    intro exit? a s d n r hR hr
    cases hc : (BranchWord.enterCount maySkip).choose (a + 3 + p.size + 3) s with
    | error e s₁ => exact ⟨_, .countFail hc⟩
    | ok c s₁ =>
      cases c with
      | false => exact ⟨_, .countSkip hc⟩
      | true =>
        obtain ⟨n₁, d₁, -, hr₁⟩ := hR.count_jump.rest_on hr hc
        obtain ⟨o, ho⟩ := ih.loop (.advanceCount stepped) (hR.count_rounds hc) hr₁
        exact ⟨_, .count hc ho⟩

end Machine

/-! ## Whole words -/

/-- How a word ends when its program ends in the given way. -/
def Ending.result? : Ending → Option (EStateM.Result Error Machine Unit)
  | next s | exited s => some (.ok () s)
  | failed e s => some (.error e s)
  | left _ | foreign => none

/-- A token stands for at most three elements of code. -/
theorem Prog.size_le (p : Prog) : p.size ≤ 3 * p.tokens.length := by
  induction p with
  | skip => exact Nat.zero_le _
  | simple x => cases x <;> simp [size, tokens]
  | seq p q ihp ihq =>
    simp only [size, tokens, List.length_append]
    omega
  | ifThen p ih | beginUntil p ih | beginAgain p ih | count _ _ p ih =>
    simp only [size, tokens, List.length_cons, List.length_append, List.length_nil]
    omega
  | ifElse p q ihp ihq | beginWhile p q ihp ihq =>
    simp only [size, tokens, List.length_cons, List.length_append, List.length_nil]
    omega

namespace Machine

variable {m : Machine} {k : BranchWord → WordId} {w : WordId} {es : List Elem} {p : Prog}
  {s : Machine} {o : Ending} {name : String}

/-- What can be seen of a result: all but the state of the debugger. -/
def observed (r : EStateM.Result Error Machine Unit) : EStateM.Result Error Machine Unit :=
  alter (fun m => { m with debugger := default }) r

/-- A word whose body is the code of a program ends as the program does. -/
theorem Ready.execute (hR : Ready k w es none (.prog p) 1 s) (hlen : 1 + p.size = es.length)
    (h : Eval k w (.prog p) 1 s o) (ho : o ≠ .foreign) :
    ∃ fuel r r', s.execute fuel w = some r ∧ o.result? = some r' ∧ observed r = observed r' := by
  have harr := h.arrives hR s.debugger
  have hstart : s.startRun w .outside = s.inside w 1 s.debugger := rfl
  cases o with
  | next s' =>
    obtain ⟨n, d, hg⟩ : ∃ n d, Goes n _ (s'.inside w (1 + p.size) d) := harr
    have hs' : Holds k w es s' := hR.holds.steady (Passes.of_eval h).steady
    refine ⟨n + (0 + 1 + 1), .ok () { s' with debugger := d }, _, ?_, rfl, rfl⟩
    rw [Machine.execute, hstart, steps_of_goes hg, hlen, steps_succ_of_running (step_end hs'.toCarries d),
      steps, step_back]
  | exited s' =>
    obtain ⟨n, d, hg⟩ := harr
    refine ⟨n + (0 + 1), .ok () { s' with debugger := d }, _, ?_, rfl, rfl⟩
    rw [Machine.execute, hstart, steps_of_goes hg, steps, step_back]
  | left s' =>
    obtain ⟨t, n, d, ht, -⟩ := harr
    cases ht
  | failed e s' =>
    obtain ⟨n, d, hr⟩ := harr
    exact ⟨n, _, _, hr, rfl, rfl⟩
  | foreign => exact absurd rfl ho

theorem Ready.execute_iff (hR : Ready k w es none (.prog p) 1 s) (hlen : 1 + p.size = es.length)
    (hf : ¬ Eval k w (.prog p) 1 s .foreign) (r : EStateM.Result Error Machine Unit) :
    (∃ fuel, (s.execute fuel w).map observed = some r) ↔
      ∃ o, Eval k w (.prog p) 1 s o ∧ o.result?.map observed = some r := by
  have hne : ∀ {o}, Eval k w (.prog p) 1 s o → o ≠ .foreign := by
    rintro o ho rfl
    exact hf ho
  constructor
  · rintro ⟨fuel, hr⟩
    obtain ⟨r₀, hr₀, rfl⟩ := Option.map_eq_some_iff.1 hr
    obtain ⟨o, ho⟩ := Ends.prog p hR hr₀
    obtain ⟨fuel', r₁, r₂, hr₁, hr₂, heq⟩ := hR.execute hlen ho (hne ho)
    obtain rfl := steps_unique hr₀ hr₁
    exact ⟨o, ho, by rw [hr₂, Option.map_some, heq]⟩
  · rintro ⟨o, ho, hr⟩
    obtain ⟨fuel, r₁, r₂, hr₁, hr₂, heq⟩ := hR.execute hlen ho (hne ho)
    rw [hr₂] at hr
    exact ⟨fuel, by rw [hr₁, Option.map_some, heq, ← hr, Option.map_some]⟩

/-- A machine with a word that has been defined comes to the code of its program. -/
theorem Ready.of_defined (h : m.Provides k) (hscope : p.Scoped false)
    (hfit : 3 * p.tokens.length ≤ slotLimit) (hi : s.interrupt = false)
    (hheap : ∀ v, s.heap.word v = (m.defined name (p.layout k 1)).heap.word v) :
    Ready k ⟨m.heap.words.size⟩ (.direct .docol :: p.layout k 1) none (.prog p) 1 s where
  closed := trivial
  scope := hscope
  start := Nat.le_refl 1
  fits := by
    have := p.size_le
    simp only [List.length_cons, Prog.length_layout, slotLimit] at *
    omega
  holds :=
    { body := by rw [hheap, body_defined]
      code := by
        rw [hheap, word_defined]
        rfl
      words := by
        intro b hb
        rw [hheap, word_defined_of_ne (ne_of_find? (h.found b hb)), h.code b hb]
      calm := hi }
  code := ⟨[.direct .docol], [], by simp [Task.layout], rfl⟩
  loop := nofun

/-- **A defined word does what its program means.**  From any stacks, the word comes to an end in
    some way exactly if the program does, as long as the words that it calls leave it alone. -/
theorem defined_word_iff_eval (h : m.CanDefine k) {ts : List String}
    (hts : List.Forall₂ m.Denotes ts p.tokens)
    (hl : m.line.Yields (":" :: name :: (ts ++ [";"]))) (hfit : 3 * ts.length ≤ slotLimit)
    (hroom : m.data.depth + p.room ≤ m.data.capacity) (hscope : p.Scoped false) {fuel : Nat}
    (hfuel : 2 ≤ fuel) :
    ∃ m' w, interpret fuel (m.line.text.length + 2) m = some (.ok () m') ∧
      m'.find? name = some w ∧
      ∀ s : Machine, (∀ v, s.heap.word v = m'.heap.word v) → s.interrupt = false →
        ¬ Eval k w (.prog p) 1 s .foreign →
        ∀ r, (∃ fuel, (s.execute fuel w).map observed = some r) ↔
          ∃ o, Eval k w (.prog p) 1 s o ∧ o.result?.map observed = some r := by
  have hspare : p.room ≤ m.spare := by
    unfold spare
    omega
  obtain ⟨l, hdef⟩ := (interpret_program h hts hl hfit hfuel).1 ⟨p, rfl, hspare⟩
  refine ⟨_, ⟨(m.opening l).heap.words.size⟩, hdef p rfl, find?_defined _, ?_⟩
  intro s hheap hi hforeign r
  have hR : Ready k ⟨(m.opening l).heap.words.size⟩ (.direct .docol :: p.layout k 1) none
      (.prog p) 1 s :=
    .of_defined (h.opens l).provides hscope (hts.length_eq ▸ hfit) hi hheap
  have hlen : 1 + p.size = (Elem.direct .docol :: p.layout k 1).length := by
    rw [List.length_cons, Prog.length_layout, Nat.add_comm]
  exact hR.execute_iff hlen hforeign r

theorem dup_onData : OnData (.stack .dup) (StackWord.run .dup) :=
  ⟨rfl, (OnStacks.peek 0).bind fun v => .push v, (KeepsReturn.peek 0).bind fun v => .push v⟩

/-- The program on the line of `sample`. -/
def sampleProg : Prog := .ifThen (.simple (.word ⟨0⟩))

/-- A machine with the given values on its data stack. -/
def sampleStart (m : Machine) (vs : List Value) : Machine :=
  { m with data := ⟨.data, 4, vs⟩, interrupt := false }

/-- With a true flag, the conditional runs its part, which leaves the word alone. -/
theorem sample_eval {m : Machine} (w : WordId)
    (hdup : (m.heap.word ⟨0⟩).code = .ok (.native (.stack .dup))) :
    ¬ Eval sampleWord w (.prog sampleProg) 1 (sampleStart m [.bool true, .nat 7]) .foreign ∧
    Eval sampleWord w (.prog sampleProg) 1 (sampleStart m [.bool true, .nat 7])
      (.next (sampleStart m [.nat 7, .nat 7])) := by
  have hc : BranchWord.jumpIfFalse.choose 5 (sampleStart m [.bool true, .nat 7]) =
      .ok true (sampleStart m [.nat 7]) := rfl
  have hl : Local sampleWord w ((sampleStart m [.nat 7]).calling w 5) ⟨0⟩ :=
    .of_onData (m := (sampleStart m [.nat 7]).calling w 5) hdup rfl dup_onData _ _
  constructor
  · intro h
    cases h with
    | ifTrue hc' hp =>
      cases hc.symm.trans hc'
      exact hp.not_local hl
  · have hx : ¬ (sampleStart m [.nat 7]).Exits ⟨0⟩ := by
      intro hx
      cases hdup.symm.trans hx
    have hrun : (Primitive.stack .dup).run
        (((sampleStart m [.nat 7]).calling w 5).startRun ⟨0⟩ .outside) =
        .ok .next (((sampleStart m [.nat 7, .nat 7]).calling w 5).startRun ⟨0⟩ .outside) := rfl
    have hr := execute_native (m := (sampleStart m [.nat 7]).calling w 5) hdup rfl hrun rfl rfl 0
    exact .ifTrue hc (.call hx hl hr)

/-- A definition leaves the words alone that could be found before. -/
theorem word_of_definition {m' : Machine} (h : m.CanDefine k) {ts : List String}
    (hts : List.Forall₂ m.Denotes ts p.tokens)
    (hl : m.line.Yields (":" :: name :: (ts ++ [";"]))) (hfit : 3 * ts.length ≤ slotLimit)
    (hroom : p.room ≤ m.spare) {fuel : Nat} (hfuel : 2 ≤ fuel)
    (hr : interpret fuel (m.line.text.length + 2) m = some (.ok () m')) {t : String} {v : WordId}
    (hv : m.find? t = some v) : m'.heap.word v = m.heap.word v := by
  obtain ⟨l, hdef⟩ := (interpret_program h hts hl hfit hfuel).1 ⟨p, rfl, hroom⟩
  cases hr.symm.trans (hdef p rfl)
  exact word_defined_of_ne (ne_of_find? hv) _

/-- A conditional that duplicates a value, on a true flag. -/
theorem defined_word_iff_eval_of_sample :
    sample.CanDefine sampleWord ∧
    sample.line.Yields (":" :: "w" :: (["if", "dup", "then"] ++ [";"])) ∧
    sampleProg.Scoped false ∧
    ∃ m' w, interpret 2 (sample.line.text.length + 2) sample = some (.ok () m') ∧
      m'.find? "w" = some w ∧
      ∃ fuel, ((sampleStart m' [.bool true, .nat 7]).execute fuel w).map observed =
        some (observed (.ok () (sampleStart m' [.nat 7, .nat 7]))) := by
  have hspec : (sample.data.depth + 2 ≤ sample.data.capacity ∧ 2 ≤ sample.spare) ∧
      sample.find? "dup" = some ⟨0⟩ ∧ (sample.heap.word ⟨0⟩).code = .ok (.native (.stack .dup)) := by
    rw [sample_eq]
    decide +kernel
  obtain ⟨hroom, hdup⟩ := hspec
  refine ⟨sample_canDefine, sample_line, trivial, ?_⟩
  obtain ⟨m', w, hr, hw, hiff⟩ := defined_word_iff_eval (p := sampleProg) sample_canDefine
    sample_denotes sample_line (by decide) hroom.1 trivial (Nat.le_refl 2)
  have hword := word_of_definition (p := sampleProg) sample_canDefine sample_denotes sample_line
    (by decide) hroom.2 (Nat.le_refl 2) hr hdup.1
  obtain ⟨hforeign, heval⟩ := sample_eval w ((congrArg Word.code hword).trans hdup.2)
  have hstart := hiff (sampleStart m' [.bool true, .nat 7]) (fun _ => rfl) rfl hforeign
  exact ⟨m', w, hr, hw, (hstart _).2 ⟨_, heval, rfl⟩⟩

end Machine
end ThreadedForth
