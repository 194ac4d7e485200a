/-
  Structured programs: their tokens and their code.
-/
import Mathlib.Algebra.GroupWithZero.Nat
import ThreadedForth.WordSet.Control

namespace ThreadedForth

/-- A token inside a definition: a number, a word to be called, or a word that compiles a part of
    a control structure. -/
inductive Token where
  | number (v : Value)
  | word (w : WordId)
  | control (c : ControlWord)
deriving DecidableEq

/-- A program without parts. -/
inductive Simple where
  | number (v : Value)
  | word (w : WordId)
  | leave
  | unloop
  | recurse

/-- The token of a program without parts. -/
def Simple.token : Simple → Token
  | number v => .number v
  | word w => .word w
  | leave => .control .leave
  | unloop => .control .unloop
  | recurse => .control .recurse

/-- A structured program. -/
inductive Prog where
  | skip
  | simple (s : Simple)
  | seq (p q : Prog)
  | ifThen (p : Prog)
  | ifElse (p q : Prog)
  | beginUntil (p : Prog)
  | beginAgain (p : Prog)
  | beginWhile (p q : Prog)
  /-- A counted loop: which word opens it, and which closes it. -/
  | count (maySkip stepped : Bool) (p : Prog)

/-! ## Code -/

/-- An instruction: a single element, or a literal with its operand.  The targets of jumps are
    told apart from other literals. -/
inductive Instr where
  | plain (e : Elem)
  | literal (v : Value)
  | address (target : Nat)

namespace Instr

/-- The elements of an instruction, with the words `k` for what compiled code runs. -/
def elems (k : BranchWord → WordId) : Instr → List Elem
  | plain e => [e]
  | literal v => [.call (k .inlineLiteral), .lit v]
  | address target => [.call (k .inlineLiteral), .lit (.nat target)]

/-- The number of elements of an instruction. -/
def size : Instr → Nat
  | plain _ => 1
  | literal _ | address _ => 2

@[simp] theorem length_elems (k : BranchWord → WordId) (i : Instr) :
    (i.elems k).length = i.size := by
  cases i <;> rfl

/-- The number of elements of a list of instructions. -/
def total (is : List Instr) : Nat :=
  (is.map size).sum

@[simp] theorem total_nil : total [] = 0 := rfl

@[simp] theorem total_cons (i : Instr) (is : List Instr) : total (i :: is) = i.size + total is := by
  simp [total]

@[simp] theorem total_append (is js : List Instr) : total (is ++ js) = total is + total js := by
  simp [total]

/-- The positions at which instructions start, the first of them at `a`. -/
def starts : Nat → List Instr → List Nat
  | _, [] => []
  | a, i :: is => a :: starts (a + i.size) is

/-- A position at which an instruction starts, or the one after the last instruction. -/
def Lands (a : Nat) (is : List Instr) (t : Nat) : Prop :=
  t ∈ starts a is ∨ t = a + total is

theorem starts_append (a : Nat) (is js : List Instr) :
    starts a (is ++ js) = starts a is ++ starts (a + total is) js := by
  induction is generalizing a with
  | nil => simp [starts]
  | cons i is ih => simp [starts, ih, Nat.add_assoc]

theorem Lands.start (a : Nat) (is : List Instr) : Lands a is a := by
  cases is with
  | nil => exact .inr (by simp)
  | cons i is => exact .inl (by simp [starts])

theorem Lands.finish (a : Nat) (is : List Instr) : Lands a is (a + total is) := .inr rfl

/-- What lands in the first part of some code lands in the whole: its end is where the second part
    starts. -/
theorem Lands.left {a t : Nat} {is : List Instr} (h : Lands a is t) (js : List Instr) :
    Lands a (is ++ js) t := by
  rcases h with h | rfl
  · exact .inl (by rw [starts_append]; exact List.mem_append_left _ h)
  · rcases Lands.start (a + total is) js with h | h
    · exact .inl (by rw [starts_append]; exact List.mem_append_right _ h)
    · exact .inr (by simp only [total_append]; omega)

theorem Lands.right {a t : Nat} {is js : List Instr} (h : Lands (a + total is) js t) :
    Lands a (is ++ js) t := by
  rcases h with h | rfl
  · exact .inl (by rw [starts_append]; exact List.mem_append_right _ h)
  · exact .inr (by simp only [total_append]; omega)

theorem Lands.le {a t : Nat} {is : List Instr} (h : Lands a is t) : a ≤ t ∧ t ≤ a + total is := by
  rcases h with h | rfl
  · induction is generalizing a with
    | nil => simp [starts] at h
    | cons i is ih =>
      rcases List.mem_cons.1 h with rfl | h
      · simp only [total_cons]
        omega
      · have := ih h
        simp only [total_cons]
        omega
  · omega

end Instr

namespace Prog

/-- The tokens that a program is written with. -/
def tokens : Prog → List Token
  | skip => []
  | simple s => [s.token]
  | seq p q => p.tokens ++ q.tokens
  | ifThen p => .control .openIf :: (p.tokens ++ [.control .closeIf])
  | ifElse p q =>
    .control .openIf :: (p.tokens ++ .control .elseBranch :: (q.tokens ++ [.control .closeIf]))
  | beginUntil p => .control .beginLoop :: (p.tokens ++ [.control .untilFlag])
  | beginAgain p => .control .beginLoop :: (p.tokens ++ [.control .again])
  | beginWhile p q =>
    .control .beginLoop ::
      (p.tokens ++ .control .whileFlag :: (q.tokens ++ [.control .repeatLoop]))
  | count maySkip stepped p =>
    .control (.openCount maySkip) :: (p.tokens ++ [.control (.closeCount stepped)])

/-- The number of elements that a program compiles to. -/
def size : Prog → Nat
  | skip => 0
  | simple (.number _) => 2
  | simple _ => 1
  | seq p q => p.size + q.size
  | ifThen p => 3 + p.size
  | ifElse p q => 3 + p.size + 3 + q.size
  | beginUntil p | beginAgain p => p.size + 3
  | beginWhile p q => p.size + 3 + q.size + 3
  | count _ _ p => 3 + p.size + 3

/-- How many values the open control structures of a program take on the data stack while it is
    compiled, at most. -/
def room : Prog → Nat
  | skip | simple _ => 0
  | seq p q => max p.room q.room
  | ifThen p => 2 + p.room
  | ifElse p q => 2 + max p.room q.room
  | beginUntil p | beginAgain p => 2 + p.room
  | beginWhile p q => max (2 + p.room) (4 + q.room)
  | count _ _ p => 3 + p.room

section Code

variable (k : BranchWord → WordId)

/-- A jump: its target, and the word that jumps. -/
def jump (target : Nat) (b : BranchWord) : List Instr :=
  [.address target, .plain (.call (k b))]

/-- The instruction of a program without parts. -/
def simpleCode : Simple → Instr
  | .number v => .literal v
  | .word w => .plain (.call w)
  | .leave => .plain (.call (k .leave))
  | .unloop => .plain (.call (k .unloop))
  | .recurse => .plain .recurse

/-- The code of a program that starts at the position `a`. -/
def code : Nat → Prog → List Instr
  | _, skip => []
  | _, simple s => [simpleCode k s]
  | a, seq p q => code a p ++ code (a + p.size) q
  | a, ifThen p => jump k (a + 3 + p.size) .jumpIfFalse ++ code (a + 3) p
  | a, ifElse p q =>
    jump k (a + 3 + p.size + 3) .jumpIfFalse ++ code (a + 3) p ++
      (jump k (a + 3 + p.size + 3 + q.size) .jump ++ code (a + 3 + p.size + 3) q)
  | a, beginUntil p => code a p ++ jump k a .jumpIfFalse
  | a, beginAgain p => code a p ++ jump k a .jump
  | a, beginWhile p q =>
    code a p ++ (jump k (a + p.size + 3 + q.size + 3) .jumpIfFalse ++ code (a + p.size + 3) q ++
      jump k a .jump)
  | a, count maySkip stepped p =>
    jump k (a + 3 + p.size + 3) (.enterCount maySkip) ++ code (a + 3) p ++
      jump k (a + 3) (.advanceCount stepped)

/-- The elements of a program that starts at the position `a`. -/
def layout (a : Nat) (p : Prog) : List Elem :=
  (p.code k a).flatMap (Instr.elems k)

/-- The elements of a jump. -/
def jumpElems (target : Nat) (b : BranchWord) : List Elem :=
  [.call (k .inlineLiteral), .lit (.nat target), .call (k b)]

@[simp] theorem total_jump (t : Nat) (b : BranchWord) : Instr.total (jump k t b) = 3 := rfl

@[simp] theorem total_code (a : Nat) (p : Prog) : Instr.total (p.code k a) = p.size := by
  induction p generalizing a with
  | skip => rfl
  | simple s => cases s <;> rfl
  | seq p q ihp ihq => simp [code, size, ihp, ihq]
  | ifThen p ih => simp [code, size, ih]
  | ifElse p q ihp ihq => simp [code, size, ihp, ihq]; omega
  | beginUntil p ih => simp [code, size, ih]
  | beginAgain p ih => simp [code, size, ih]
  | beginWhile p q ihp ihq => simp [code, size, ihp, ihq]; omega
  | count _ _ p ih => simp [code, size, ih, Nat.add_assoc]

@[simp] theorem length_layout (a : Nat) (p : Prog) : (p.layout k a).length = p.size := by
  rw [layout, List.length_flatMap]
  simp only [Instr.length_elems]
  exact total_code k a p

theorem layout_skip (a : Nat) : layout k a skip = [] := rfl

theorem layout_simple (a : Nat) (s : Simple) :
    layout k a (simple s) = (simpleCode k s).elems k :=
  List.append_nil _

theorem layout_seq (a : Nat) (p q : Prog) :
    layout k a (seq p q) = layout k a p ++ layout k (a + p.size) q :=
  List.flatMap_append

theorem layout_ifThen (a : Nat) (p : Prog) :
    layout k a (ifThen p) = jumpElems k (a + 3 + p.size) .jumpIfFalse ++ layout k (a + 3) p :=
  List.flatMap_append

/-- The elements of three pieces of code. -/
theorem flatMap_three (xs ys zs : List Instr) :
    (xs ++ ys ++ zs).flatMap (Instr.elems k) =
      xs.flatMap (Instr.elems k) ++ ys.flatMap (Instr.elems k) ++ zs.flatMap (Instr.elems k) := by
  rw [List.flatMap_append, List.flatMap_append]

theorem layout_ifElse (a : Nat) (p q : Prog) :
    layout k a (ifElse p q) =
      jumpElems k (a + 3 + p.size + 3) .jumpIfFalse ++ layout k (a + 3) p ++
        (jumpElems k (a + 3 + p.size + 3 + q.size) .jump ++ layout k (a + 3 + p.size + 3) q) :=
  (flatMap_three k _ _ _).trans (congrArg _ List.flatMap_append)

theorem layout_beginUntil (a : Nat) (p : Prog) :
    layout k a (beginUntil p) = layout k a p ++ jumpElems k a .jumpIfFalse :=
  List.flatMap_append

theorem layout_beginAgain (a : Nat) (p : Prog) :
    layout k a (beginAgain p) = layout k a p ++ jumpElems k a .jump :=
  List.flatMap_append

theorem layout_beginWhile (a : Nat) (p q : Prog) :
    layout k a (beginWhile p q) =
      layout k a p ++ (jumpElems k (a + p.size + 3 + q.size + 3) .jumpIfFalse ++
        layout k (a + p.size + 3) q ++ jumpElems k a .jump) :=
  List.flatMap_append.trans (congrArg _ (flatMap_three k _ _ _))

theorem layout_count (a : Nat) (maySkip stepped : Bool) (p : Prog) :
    layout k a (count maySkip stepped p) =
      jumpElems k (a + 3 + p.size + 3) (.enterCount maySkip) ++ layout k (a + 3) p ++
        jumpElems k (a + 3) (.advanceCount stepped) :=
  flatMap_three k _ _ _

/-! ## Targets -/

theorem mem_jump {t u : Nat} {b : BranchWord} : Instr.address t ∈ jump k u b ↔ t = u := by
  simp [jump]

/-- The target of every jump is inside the program or at its end, and it is never the operand of
    an instruction. -/
theorem address_lands (a : Nat) (p : Prog) {t : Nat} (ht : .address t ∈ p.code k a) :
    Instr.Lands a (p.code k a) t := by
  induction p generalizing a with
  | skip => simp [code] at ht
  | simple s => cases s <;> simp [code, simpleCode] at ht
  | seq p q ihp ihq =>
    simp only [code, List.mem_append] at ht ⊢
    rcases ht with ht | ht
    · exact (ihp a ht).left _
    · refine .right ?_
      rw [total_code]
      exact ihq _ ht
  | ifThen p ih =>
    simp only [code, List.mem_append, mem_jump] at ht ⊢
    rcases ht with rfl | ht
    · refine .right ?_
      have := Instr.Lands.finish (a + 3) (p.code k (a + 3))
      rwa [total_code] at this
    · exact .right (ih (a + 3) ht)
  | ifElse p q ihp ihq =>
    simp only [code, List.mem_append, mem_jump] at ht ⊢
    have hq : a + 3 + p.size + 3 =
        a + Instr.total (jump k (a + 3 + p.size + 3) .jumpIfFalse ++ code k (a + 3) p) + 3 := by
      simp [Nat.add_assoc]
    rcases ht with (rfl | ht) | rfl | ht
    · refine .right (.right ?_)
      rw [total_jump, ← hq]
      exact .start _ _
    · exact .left (.right (ihp (a + 3) ht)) _
    · refine .right (.right ?_)
      rw [total_jump, ← hq]
      have := Instr.Lands.finish (a + 3 + p.size + 3) (q.code k (a + 3 + p.size + 3))
      rwa [total_code] at this
    · refine .right (.right ?_)
      rw [total_jump, ← hq]
      exact ihq _ ht
  | beginUntil p ih =>
    simp only [code, List.mem_append, mem_jump] at ht ⊢
    rcases ht with ht | rfl
    · exact (ih a ht).left _
    · exact .start _ _
  | beginAgain p ih =>
    simp only [code, List.mem_append, mem_jump] at ht ⊢
    rcases ht with ht | rfl
    · exact (ih a ht).left _
    · exact .start _ _
  | beginWhile p q ihp ihq =>
    simp only [code, List.mem_append, mem_jump] at ht ⊢
    rcases ht with ht | (rfl | ht) | rfl
    · exact (ihp a ht).left _
    · refine .inr ?_
      simp
      omega
    · refine .right (.left (.right ?_) _)
      rw [total_code, total_jump]
      exact ihq _ ht
    · exact .start _ _
  | count maySkip stepped p ih =>
    simp only [code, List.mem_append, mem_jump] at ht ⊢
    rcases ht with (rfl | ht) | rfl
    · refine .inr ?_
      simp
      omega
    · exact .left (.right (ih (a + 3) ht)) _
    · exact .left (.right (.start _ _)) _

end Code
end Prog
end ThreadedForth
