/-
  Reading structured programs token by token.
-/
import ThreadedForth.Proofs.Structured

namespace ThreadedForth

/-- An open control structure: what came before it, and its parts that are finished. -/
inductive Open where
  | inIf (before : Prog)
  | inElse (before p : Prog)
  | inBegin (before : Prog)
  | inWhile (before p : Prog)
  | inCount (before : Prog) (maySkip : Bool)

/-- How many values an open control structure has on the data stack. -/
def Open.depth : Open → Nat
  | inIf _ | inElse _ _ | inBegin _ => 2
  | inWhile _ _ => 4
  | inCount _ _ => 3

/-- A program that has been read in part. -/
structure Draft where
  /-- The open control structures, the innermost first. -/
  opens : List Open
  /-- What has been read inside the innermost of them. -/
  cur : Prog

namespace Draft

/-- How many values the open control structures have on the data stack. -/
def depthOf (os : List Open) : Nat :=
  (os.map Open.depth).sum

@[simp] theorem depthOf_nil : depthOf [] = 0 := rfl

@[simp] theorem depthOf_cons (o : Open) (os : List Open) :
    depthOf (o :: os) = o.depth + depthOf os := by
  simp [depthOf]

/-- The draft with a finished program added. -/
def add (d : Draft) (p : Prog) : Draft :=
  { d with cur := d.cur.seq p }

/-- The draft with a control structure opened, if there is room for so many values. -/
def openIn (d : Draft) (room : Nat) (o : Open) (os : List Open) (capacity : Nat) : Option Draft :=
  if depthOf d.opens + room ≤ capacity then some ⟨o :: os, .skip⟩ else none

/-- The draft after a token. -/
def shift (capacity : Nat) (d : Draft) : Token → Option Draft
  | .number v => some (d.add (.simple (.number v)))
  | .word w => some (d.add (.simple (.word w)))
  | .control .leave => some (d.add (.simple .leave))
  | .control .unloop => some (d.add (.simple .unloop))
  | .control .recurse => some (d.add (.simple .recurse))
  | .control .openIf => d.openIn 2 (.inIf d.cur) d.opens capacity
  | .control .elseBranch =>
    match d.opens with
    | .inIf before :: os => some ⟨.inElse before d.cur :: os, .skip⟩
    | _ => none
  | .control .closeIf =>
    match d.opens with
    | .inIf before :: os => some (add ⟨os, before⟩ (.ifThen d.cur))
    | .inElse before p :: os => some (add ⟨os, before⟩ (.ifElse p d.cur))
    | _ => none
  | .control .beginLoop => d.openIn 2 (.inBegin d.cur) d.opens capacity
  | .control .untilFlag =>
    match d.opens with
    | .inBegin before :: os => some (add ⟨os, before⟩ (.beginUntil d.cur))
    | _ => none
  | .control .again =>
    match d.opens with
    | .inBegin before :: os => some (add ⟨os, before⟩ (.beginAgain d.cur))
    | _ => none
  | .control .whileFlag =>
    match d.opens with
    | .inBegin before :: os => d.openIn 2 (.inWhile before d.cur) os capacity
    | _ => none
  | .control .repeatLoop =>
    match d.opens with
    | .inWhile before p :: os => some (add ⟨os, before⟩ (.beginWhile p d.cur))
    | _ => none
  | .control (.openCount maySkip) => d.openIn 3 (.inCount d.cur maySkip) d.opens capacity
  | .control (.closeCount stepped) =>
    match d.opens with
    | .inCount before maySkip :: os => some (add ⟨os, before⟩ (.count maySkip stepped d.cur))
    | _ => none

/-- The draft after some tokens. -/
def shiftAll (capacity : Nat) : Draft → List Token → Option Draft
  | d, [] => some d
  | d, t :: ts => (d.shift capacity t).bind fun d => shiftAll capacity d ts

theorem shiftAll_append (capacity : Nat) (d : Draft) (ts us : List Token) :
    d.shiftAll capacity (ts ++ us) =
      (d.shiftAll capacity ts).bind fun d => d.shiftAll capacity us := by
  induction ts generalizing d with
  | nil => rfl
  | cons t ts ih =>
    simp only [List.cons_append, shiftAll, Option.bind_assoc]
    congr 1
    funext d
    exact ih d

/-! ## Reading the tokens of a program -/

end Draft

/-- A program added to another as it is read: one part after the other. -/
def Prog.append : Prog → Prog → Prog
  | c, .skip => c
  | c, .simple s => c.seq (.simple s)
  | c, .seq p q => (c.append p).append q
  | c, .ifThen p => c.seq (.ifThen (append .skip p))
  | c, .ifElse p q => c.seq (.ifElse (append .skip p) (append .skip q))
  | c, .beginUntil p => c.seq (.beginUntil (append .skip p))
  | c, .beginAgain p => c.seq (.beginAgain (append .skip p))
  | c, .beginWhile p q => c.seq (.beginWhile (append .skip p) (append .skip q))
  | c, .count maySkip stepped p => c.seq (.count maySkip stepped (append .skip p))

namespace Prog

@[simp] theorem size_append (c p : Prog) : (c.append p).size = c.size + p.size := by
  induction p generalizing c with
  | skip => simp [append, size]
  | simple s => simp [append, size]
  | seq p q ihp ihq => simp [append, size, ihp, ihq, Nat.add_assoc]
  | ifThen p ih => simp [append, size, ih]
  | ifElse p q ihp ihq => simp [append, size, ihp, ihq]
  | beginUntil p ih => simp [append, size, ih]
  | beginAgain p ih => simp [append, size, ih]
  | beginWhile p q ihp ihq => simp [append, size, ihp, ihq]
  | count _ _ p ih => simp [append, size, ih]

/-- How a program has been put together does not show in its code. -/
theorem layout_append (k : BranchWord → WordId) (a : Nat) (c p : Prog) :
    (c.append p).layout k a = c.layout k a ++ p.layout k (a + c.size) := by
  induction p generalizing a c with
  | skip => simp [append, layout_skip]
  | simple s => rw [append, layout_seq]
  | seq p q ihp ihq => simp [append, layout_seq, ihp, ihq, Nat.add_assoc]
  | ifThen p ih => simp [append, layout_seq, layout_ifThen, ih, layout_skip, size]
  | ifElse p q ihp ihq => simp [append, layout_seq, layout_ifElse, ihp, ihq, layout_skip, size]
  | beginUntil p ih => simp [append, layout_seq, layout_beginUntil, ih, layout_skip, size]
  | beginAgain p ih => simp [append, layout_seq, layout_beginAgain, ih, layout_skip, size]
  | beginWhile p q ihp ihq => simp [append, layout_seq, layout_beginWhile, ihp, ihq, layout_skip, size]
  | count _ _ p ih => simp [append, layout_seq, layout_count, ih, layout_skip, size]

end Prog

namespace Draft

variable {capacity : Nat}

theorem bind_openIn (d : Draft) (room : Nat) (o : Open) (os : List Open) (f : Draft → Option Draft) :
    (d.openIn room o os capacity).bind f =
      if depthOf d.opens + room ≤ capacity then f ⟨o :: os, .skip⟩ else none := by
  unfold openIn
  split <;> rfl

theorem shiftAll_singleton (d : Draft) (t : Token) : d.shiftAll capacity [t] = d.shift capacity t := by
  simp [shiftAll]

/-- A part of a control structure, and what follows it. -/
theorem shiftAll_part {p : Prog} {os : List Open} {c : Prog}
    (ih : shiftAll capacity ⟨os, c⟩ p.tokens =
      if p.room ≤ capacity - depthOf os then some ⟨os, c.append p⟩ else none) (us : List Token) :
    shiftAll capacity ⟨os, c⟩ (p.tokens ++ us) =
      if p.room ≤ capacity - depthOf os then shiftAll capacity ⟨os, c.append p⟩ us else none := by
  rw [shiftAll_append, ih]
  split <;> rfl

theorem ite_and_none {α : Type} {a b : Prop} [Decidable a] [Decidable b] (x : Option α) :
    (if a then if b then x else none else none) = if a ∧ b then x else none := by
  by_cases ha : a <;> by_cases hb : b <;> simp [ha, hb]

/-- A program is read to its end if there is room for it, and not otherwise. -/
theorem shiftAll_tokens (p : Prog) (os : List Open) (c : Prog) :
    shiftAll capacity ⟨os, c⟩ p.tokens =
      if p.room ≤ capacity - depthOf os then some ⟨os, c.append p⟩ else none := by
  induction p generalizing os c with
  | skip => simp [Prog.tokens, Prog.room, shiftAll, Prog.append]
  | simple s =>
    cases s <;> simp [Prog.tokens, Prog.room, Simple.token, shiftAll, shift, add, Prog.append]
  | seq p q ihp ihq =>
    rw [Prog.tokens, shiftAll_part (ihp os c), ihq, ite_and_none]
    refine ite_congr (propext ?_) (fun _ => rfl) fun _ => rfl
    rw [Prog.room, Nat.max_le]
  | ifThen p ih =>
    rw [Prog.tokens, shiftAll, shift, bind_openIn, shiftAll_part (ih _ _), shiftAll_singleton,
      ite_and_none]
    refine ite_congr (propext ?_) (fun _ => rfl) fun _ => rfl
    simp only [Prog.room, depthOf_cons, Open.depth]
    omega
  | ifElse p q ihp ihq =>
    rw [Prog.tokens, shiftAll, shift, bind_openIn, shiftAll_part (ihp _ _), shiftAll, shift]
    simp only [Option.bind_some]
    rw [shiftAll_part (ihq _ _), shiftAll_singleton, ite_and_none, ite_and_none]
    refine ite_congr (propext ?_) (fun _ => rfl) fun _ => rfl
    simp only [Prog.room, depthOf_cons, Open.depth]
    omega
  | beginUntil p ih =>
    rw [Prog.tokens, shiftAll, shift, bind_openIn, shiftAll_part (ih _ _), shiftAll_singleton,
      ite_and_none]
    refine ite_congr (propext ?_) (fun _ => rfl) fun _ => rfl
    simp only [Prog.room, depthOf_cons, Open.depth]
    omega
  | beginAgain p ih =>
    rw [Prog.tokens, shiftAll, shift, bind_openIn, shiftAll_part (ih _ _), shiftAll_singleton,
      ite_and_none]
    refine ite_congr (propext ?_) (fun _ => rfl) fun _ => rfl
    simp only [Prog.room, depthOf_cons, Open.depth]
    omega
  | beginWhile p q ihp ihq =>
    rw [Prog.tokens, shiftAll, shift, bind_openIn, shiftAll_part (ihp _ _), shiftAll, shift]
    simp only [bind_openIn]
    rw [shiftAll_part (ihq _ _), shiftAll_singleton, ite_and_none, ite_and_none, ite_and_none]
    refine ite_congr (propext ?_) (fun _ => rfl) fun _ => rfl
    simp only [Prog.room, depthOf_cons, Open.depth]
    omega
  | count maySkip stepped p ih =>
    rw [Prog.tokens, shiftAll, shift, bind_openIn, shiftAll_part (ih _ _), shiftAll_singleton,
      ite_and_none]
    refine ite_congr (propext ?_) (fun _ => rfl) fun _ => rfl
    simp only [Prog.room, depthOf_cons, Open.depth]
    omega

/-! ## The tokens of a draft -/

/-- The tokens that have been read, up to what is inside the innermost open structure. -/
def tokensBefore : List Open → List Token
  | [] => []
  | .inIf before :: os => tokensBefore os ++ before.tokens ++ [.control .openIf]
  | .inElse before p :: os =>
    tokensBefore os ++ before.tokens ++ .control .openIf :: (p.tokens ++ [.control .elseBranch])
  | .inBegin before :: os => tokensBefore os ++ before.tokens ++ [.control .beginLoop]
  | .inWhile before p :: os =>
    tokensBefore os ++ before.tokens ++ .control .beginLoop :: (p.tokens ++ [.control .whileFlag])
  | .inCount before maySkip :: os =>
    tokensBefore os ++ before.tokens ++ [.control (.openCount maySkip)]

/-- The tokens that have been read. -/
def tokens (d : Draft) : List Token :=
  tokensBefore d.opens ++ d.cur.tokens

theorem tokens_shift {d d' : Draft} {t : Token} (h : d.shift capacity t = some d') :
    d'.tokens = d.tokens ++ [t] := by
  obtain ⟨os, c⟩ := d
  have hopen : ∀ {r o os'}, openIn ⟨os, c⟩ r o os' capacity = some d' → d' = ⟨o :: os', .skip⟩ := by
    intro r o os' ho
    unfold openIn at ho
    split at ho
    · exact (Option.some.inj ho).symm
    · cases ho
  cases t with
  | number v =>
    cases h
    simp [tokens, add, Prog.tokens, Simple.token]
  | word w =>
    cases h
    simp [tokens, add, Prog.tokens, Simple.token]
  | control w =>
    cases w with
    | openIf =>
      rw [hopen h]
      simp [tokens, tokensBefore, Prog.tokens]
    | beginLoop =>
      rw [hopen h]
      simp [tokens, tokensBefore, Prog.tokens]
    | openCount maySkip =>
      rw [hopen h]
      simp [tokens, tokensBefore, Prog.tokens]
    | leave | unloop | recurse =>
      cases h
      simp [tokens, add, Prog.tokens, Simple.token]
    | elseBranch | closeIf | untilFlag | again | repeatLoop | closeCount _ =>
      rcases os with _ | ⟨o, os⟩
      · cases h
      · cases o <;> first
          | cases h; done
          | (cases h; simp [tokens, tokensBefore, add, Prog.tokens])
    | whileFlag =>
      rcases os with _ | ⟨o, os⟩
      · cases h
      · cases o with
        | inBegin before =>
          rw [hopen h]
          simp [tokens, tokensBefore, Prog.tokens]
        | _ => cases h

/-- What has been read is what the draft is made of. -/
theorem tokens_shiftAll {d d' : Draft} {ts : List Token} (h : d.shiftAll capacity ts = some d') :
    d'.tokens = d.tokens ++ ts := by
  induction ts generalizing d with
  | nil =>
    cases h
    simp
  | cons t ts ih =>
    obtain ⟨d₁, h₁, h₂⟩ := Option.bind_eq_some_iff.1 h
    rw [ih h₂, tokens_shift h₁]
    simp

/-- What is read from the start to the end of a program, when there is room for it. -/
theorem shiftAll_eq_some_iff (ks : List Token) :
    (∃ p, shiftAll capacity ⟨[], .skip⟩ ks = some ⟨[], p⟩) ↔
      ∃ p : Prog, p.tokens = ks ∧ p.room ≤ capacity := by
  constructor
  · rintro ⟨p, h⟩
    have ht : p.tokens = ks := by
      have := tokens_shiftAll h
      simpa [tokens, tokensBefore, Prog.tokens] using this
    refine ⟨p, ht, ?_⟩
    rw [← ht, shiftAll_tokens] at h
    by_cases hr : p.room ≤ capacity
    · exact hr
    · rw [if_neg (by simpa using hr)] at h
      cases h
  · rintro ⟨p, rfl, hr⟩
    exact ⟨Prog.skip.append p, by rw [shiftAll_tokens, if_pos (by simpa using hr)]⟩

end Draft

/-- The code of a program is a matter of its tokens alone. -/
theorem Prog.layout_eq_of_tokens (k : BranchWord → WordId) {p q : Prog} (h : p.tokens = q.tokens)
    (a : Nat) : p.layout k a = q.layout k a := by
  have hp : Draft.shiftAll (p.room + q.room) ⟨[], .skip⟩ p.tokens = some ⟨[], append .skip p⟩ := by
    rw [Draft.shiftAll_tokens, if_pos (by simp)]
  have hq : Draft.shiftAll (p.room + q.room) ⟨[], .skip⟩ q.tokens = some ⟨[], append .skip q⟩ := by
    rw [Draft.shiftAll_tokens, if_pos (by simp)]
  rw [h, hq] at hp
  have hl := congrArg (layout k a) (congrArg Draft.cur (Option.some.inj hp))
  simpa [layout_append, layout_skip, size] using hl.symm

end ThreadedForth
