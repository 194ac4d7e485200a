/-
  The first slots of bodies, over all sequences of operations that build them.
-/
import ThreadedForth.Proofs.HeapShape
import ThreadedForth.Workbench

namespace ThreadedForth

/-! ## Bodies -/

namespace Word

/-- No element but the first is a code. -/
def LaterPlain (w : Word) : Prop :=
  ∀ i c, w.body[i + 1]? ≠ some (.direct c)

/-- The body is empty or starts with a code. -/
def Begun (w : Word) : Prop :=
  w.body = #[] ∨ ∃ c, w.body[0]? = some (.direct c)

/-- The body is empty or has the shape of a word that can be run. -/
def Orderly (w : Word) : Prop :=
  w.body = #[] ∨ w.Shaped

theorem orderly_iff {w : Word} : w.Orderly ↔ w.LaterPlain ∧ w.Begun := by
  obtain ⟨n, hi, im, bu, ⟨es⟩⟩ := w
  simp only [Orderly, Shaped, LaterPlain, Begun, List.getElem?_toArray]
  cases es with
  | nil => simp
  | cons e es =>
    constructor
    · rintro (h | ⟨c, es', h, hes⟩)
      · simp at h
      · simp only [List.cons.injEq] at h
        obtain ⟨rfl, rfl⟩ := h
        refine ⟨fun i c' hi => ?_, .inr ⟨c, rfl⟩⟩
        exact absurd (hes _ (List.mem_of_getElem? hi)) (by simp [Elem.isDirect])
    · rintro ⟨hlater, h | ⟨c, h⟩⟩
      · simp at h
      · simp only [List.getElem?_cons_zero, Option.some.injEq] at h
        refine .inr ⟨c, es, by rw [h], fun e' he => ?_⟩
        obtain ⟨i, hi⟩ := List.mem_iff_getElem?.1 he
        cases e' with
        | direct c' => exact absurd hi (hlater i c')
        | _ => rfl

theorem Begun.code {w : Word} (h : w.Begun) (hne : w.body ≠ #[]) : ∃ c, w.code = .ok c := by
  obtain ⟨c, hc⟩ := h.resolve_left hne
  exact ⟨c, by rw [Word.code, hc]⟩

/-- An element that may stand where it is put leaves a body in order. -/
theorem checkSlot_eq_ok {i : Nat} {e : Elem} {u : Unit} (h : checkSlot i e = .ok u) :
    (i = 0 ∧ ∃ c, e = .direct c) ∨ (i ≠ 0 ∧ e.isDirect = false) := by
  unfold checkSlot at h
  cases e <;> split at h <;> simp_all [Elem.isDirect]

end Word

/-! ## Operations on a body -/

/-- An operation on a single body. -/
inductive BodyOp where
  | push (e : Elem)
  | poke (index : Nat) (e : Elem)
  | setCode (c : Code)
  | store (index : Nat) (v : Value)
  | expand (n : Nat)

namespace BodyOp

/-- What the operation does. -/
def apply (w : Word) : BodyOp → Except Error Word
  | push e => w.push e
  | poke index e => w.poke index e
  | setCode c => w.setCode c
  | store index v => w.store index v
  | expand n => w.expand n

/-- Whether the operation adds data slots to a body without a code. -/
def hollows (w : Word) : BodyOp → Bool
  | expand n => n != 0 && w.body.isEmpty
  | _ => false

variable {w w' : Word}

/-- What an operation keeps of the order of a body. -/
structure Keeps (w w' : Word) : Prop where
  later : w.LaterPlain → w'.LaterPlain
  begun : w.Begun → w'.Begun
  size : w.size ≤ w'.size

theorem keeps_push {e : Elem} (h : w.push e = .ok w') : Keeps w w' := by
  unfold Word.push at h
  split at h
  · rename_i u hslot
    cases h
    have hget : ∀ i, (w.body.push e)[i]? = if i = w.size then some e else w.body[i]? :=
      fun i => Array.getElem?_push
    refine ⟨fun hl i c hi => ?_, fun hb => ?_, by simp [Word.size]⟩
    · rw [hget] at hi
      split at hi
      · cases hi
        rcases Word.checkSlot_eq_ok hslot with ⟨hz, -⟩ | ⟨-, hd⟩
        · omega
        · cases hd
      · exact hl i c hi
    · refine .inr ?_
      show ∃ c, (w.body.push e)[0]? = some (.direct c)
      rw [hget]
      rcases Word.checkSlot_eq_ok hslot with ⟨hz, c, rfl⟩ | ⟨hz, -⟩
      · exact ⟨c, by rw [if_pos hz.symm]⟩
      · rw [if_neg (Ne.symm hz)]
        exact hb.resolve_left fun he => hz (by simp [Word.size, he])
  · cases h

/-- An element of a body is replaced by one that may stand there. -/
theorem keeps_set {i : Nat} {e : Elem} {u : Unit} (hslot : Word.checkSlot i e = .ok u) :
    Keeps w { w with body := w.body.setIfInBounds i e } := by
  have hget : ∀ j, (w.body.setIfInBounds i e)[j]? =
      if i = j then (if i < w.body.size then some e else none) else w.body[j]? :=
    fun j => Array.getElem?_setIfInBounds
  refine ⟨fun hl j c hj => ?_, fun hb => ?_, by simp [Word.size]⟩
  · replace hj : (w.body.setIfInBounds i e)[j + 1]? = some (.direct c) := hj
    rw [hget] at hj
    split at hj
    · split at hj
      · cases hj
        rcases Word.checkSlot_eq_ok hslot with ⟨hz, -⟩ | ⟨-, hd⟩
        · omega
        · cases hd
      · cases hj
    · exact hl j c hj
  · rcases hb with hb | ⟨c, hc⟩
    · exact .inl (by simp [hb])
    · refine .inr ?_
      show ∃ c, (w.body.setIfInBounds i e)[0]? = some (.direct c)
      rw [hget]
      rcases Word.checkSlot_eq_ok hslot with ⟨hz, c', rfl⟩ | ⟨hz, -⟩
      · have hpos : i < w.body.size := by
          rw [hz]
          exact (Array.getElem?_eq_some_iff.1 hc).1
        exact ⟨c', by rw [if_pos hz, if_pos hpos]⟩
      · rw [if_neg hz]
        exact ⟨c, hc⟩

theorem keeps_poke {i : Nat} {e : Elem} (h : w.poke i e = .ok w') : Keeps w w' := by
  unfold Word.poke at h
  split at h
  · rename_i u hslot
    split at h
    · cases h
      exact keeps_set hslot
    · cases h
  · cases h

theorem keeps_store {i : Nat} {v : Value} (h : w.store i v = .ok w') : Keeps w w' := by
  unfold Word.store at h
  split at h
  · rename_i x hload
    cases h
    have hi : i ≠ 0 := by
      rintro rfl
      unfold Word.load at hload
      split at hload
      · rw [if_pos rfl] at hload; cases hload
      · cases hload
    exact keeps_set (show Word.checkSlot i (.lit v) = .ok () from if_neg hi)
  · cases h

/-- Data slots are no codes, wherever they are added. -/
theorem expand_keeps {n : Nat} (h : w.expand n = .ok w') :
    (w.LaterPlain → w'.LaterPlain) ∧ (w.body ≠ #[] ∨ n = 0 → w.Begun → w'.Begun) ∧
      w.size ≤ w'.size := by
  unfold Word.expand at h
  split at h
  · cases h
    have hget : ∀ i, i < w.body.size →
        (w.body ++ Array.replicate n (.lit (.int 0)))[i]? = w.body[i]? :=
      fun i hi => Array.getElem?_append_left hi
    refine ⟨fun hl i c hi => ?_, fun hn hb => ?_, by simp [Word.size]⟩
    · replace hi : (w.body ++ Array.replicate n (.lit (.int 0)))[i + 1]? = some (.direct c) := hi
      rw [Array.getElem?_append] at hi
      split at hi
      · exact hl i c hi
      · rw [Array.getElem?_replicate] at hi
        split at hi <;> cases hi
    · rcases hn with hne | rfl
      · obtain ⟨c, hc⟩ := hb.resolve_left hne
        exact .inr ⟨c, (hget 0 (Array.getElem?_eq_some_iff.1 hc).1).trans hc⟩
      · simpa [Word.Begun] using hb
  · cases h

/-- **One operation on a body.**  Whatever it is, no later element becomes a code, and the body gets
    no shorter; unless it adds data slots to an empty body, a body that has begun with a code still
    does. -/
theorem apply_keeps {e : BodyOp} (h : e.apply w = .ok w') :
    (w.LaterPlain → w'.LaterPlain) ∧ (e.hollows w = false → w.Begun → w'.Begun) ∧
      w.size ≤ w'.size := by
  have of_keeps : Keeps w w' → (w.LaterPlain → w'.LaterPlain) ∧
      (e.hollows w = false → w.Begun → w'.Begun) ∧ w.size ≤ w'.size :=
    fun k => ⟨k.later, fun _ => k.begun, k.size⟩
  cases e with
  | push x => exact of_keeps (keeps_push h)
  | poke i x => exact of_keeps (keeps_poke h)
  | setCode c => exact of_keeps (keeps_poke (i := 0) (e := .direct c) h)
  | store i v => exact of_keeps (keeps_store h)
  | expand n =>
    obtain ⟨hl, hb, hs⟩ := expand_keeps h
    refine ⟨hl, fun hh => hb ?_, hs⟩
    simp only [hollows, Bool.and_eq_false_iff, bne_eq_false_iff_eq] at hh
    rcases hh with hn | he
    · exact .inr hn
    · exact .inl (by rintro h; simp [h] at he)

end BodyOp

/-! ## Operations at a bench -/

/-- How a word comes to be. -/
inductive Origin where
  | blank | created
  | primitive (p : Primitive) (immediate : Bool)

/-- The word that comes to be. -/
def Origin.word (name : String) : Origin → Word
  | blank => .blank name
  | created => .created name
  | primitive p immediate => .ofPrimitive name p immediate

/-- An operation at a bench that concerns words. -/
inductive BuildOp where
  | make (handle name : String) (o : Origin)
  | start (handle name : String) (depth : Nat)
  | edit (handle : String) (e : BodyOp)
  | compile (e : Elem)
  | compileWord (handle : String)
  | alter (index : Nat) (e : Elem)
  | expandLast (n : Nat)
  | free (handle : String)
  | reset

namespace BuildOp

open Workbench

/-- What the operation does. -/
def run : BuildOp → WorkbenchM Unit
  | make handle name o => addWord handle (o.word name)
  | start handle name depth => Workbench.start handle name depth
  | edit handle e => change handle e.apply
  | compile e => Workbench.compile fun c h => c.push h e
  | compileWord handle => do
    let w ← find handle
    Workbench.compile fun c h => c.compileWord h w
  | alter index e => Workbench.compile fun c h => c.alter h index e
  | expandLast n => expand n
  | free handle => do let _ ← Workbench.free handle
  | reset => modify fun b => { b with compiler := b.compiler.reset }

/-- The bench after the operation, whether or not it fails. -/
def attempt (b : Workbench) (op : BuildOp) : Workbench :=
  match op.run b with
  | .ok _ b' | .error _ b' => b'

/-- The bench after a sequence of operations. -/
def attemptAll (b : Workbench) (ops : List BuildOp) : Workbench :=
  ops.foldl attempt b

/-- Whether the operation adds data slots to the word `w` while that has no code yet. -/
def hollows (b : Workbench) (w : WordId) : BuildOp → Bool
  | edit handle e =>
    match b.wordOf handle with
    | .ok u => u == w && e.hollows (b.heap.word u)
    | .error _ => false
  | expandLast n =>
    match b.compiler.last b.heap b.roots with
    | .ok u => u == w && (BodyOp.expand n).hollows (b.heap.word u)
    | .error _ => false
  | _ => false

/-- Whether no operation of a sequence adds data slots to the word while it has no code yet. -/
def neverHollows (b : Workbench) (w : WordId) : List BuildOp → Bool
  | [] => true
  | op :: ops => !op.hollows b w && neverHollows (attempt b op) w ops

end BuildOp

/-! ## What an operation makes of a word -/

/-- What an operation makes of a word: nothing, a new word in a place where there was none, or what
    an operation on its body does. -/
inductive Turn (x y : Word) : Bool → Prop
  | same {hollow : Bool} (h : y = x) : Turn x y hollow
  | made {hollow : Bool} (hx : x.body = #[]) (name : String) (o : Origin) (hy : y = o.word name) :
    Turn x y hollow
  | edited {hollow : Bool} (e : BodyOp) (h : e.apply x = .ok y)
    (hh : e.hollows x = true → hollow = true) : Turn x y hollow

namespace Turn

variable {x y : Word} {hollow : Bool}

theorem orderly_word (name : String) (o : Origin) : (o.word name).Orderly := by
  cases o with
  | blank => exact .inl rfl
  | created => exact .inr ⟨_, [], rfl, by simp⟩
  | primitive p immediate => exact .inr ⟨_, [], rfl, by simp⟩

theorem later (h : Turn x y hollow) (hx : x.LaterPlain) : y.LaterPlain := by
  cases h with
  | same h => exact h ▸ hx
  | made _ name o hy => exact hy ▸ (Word.orderly_iff.1 (orderly_word name o)).1
  | edited e h _ => exact (BodyOp.apply_keeps h).1 hx

theorem begun (h : Turn x y false) (hx : x.Begun) : y.Begun := by
  cases h with
  | same h => exact h ▸ hx
  | made _ name o hy => exact hy ▸ (Word.orderly_iff.1 (orderly_word name o)).2
  | edited e h hh => exact (BodyOp.apply_keeps h).2.1 (by simpa using hh) hx

theorem size_le (h : Turn x y hollow) : x.size ≤ y.size := by
  cases h with
  | same h => exact h ▸ Nat.le_refl _
  | made hx _ _ _ => simp [Word.size, hx]
  | edited e h _ => exact (BodyOp.apply_keeps h).2.2

end Turn

namespace Heap

variable {h h' : Heap}

/-- A word that is added is new in its place. -/
theorem turn_addWord (h : Heap) (name : String) (o : Origin) (w : WordId) (hollow : Bool) :
    Turn (h.word w) ((h.addWord (o.word name)).2.word w) hollow := by
  by_cases hw : w.index = h.words.size
  · refine .made ?_ name o ?_
    · simp [word, hw]
      rfl
    · simp [word, addWord, hw]
  · refine .same ?_
    simp [word, addWord, Array.getElem?_push, hw]

/-- A word that is changed by an operation on its body. -/
theorem turn_changeWord {u : WordId} {e : BodyOp} (hc : h.changeWord u e.apply = .ok h')
    (w : WordId) {hollow : Bool} (hh : u = w → e.hollows (h.word u) = true → hollow = true) :
    Turn (h.word w) (h'.word w) hollow := by
  unfold changeWord at hc
  split at hc
  · rename_i x hx
    cases hc
    rw [word_setWord]
    split
    · rename_i hw
      exact .edited e (hw.1 ▸ hx) (hw.1 ▸ hh hw.1.symm)
    · exact .same rfl
  · cases hc

end Heap

namespace BuildOp

open Workbench

variable {b b' : Workbench} {w : WordId}

theorem find_bind_eq (b : Workbench) (handle : String) (f : WordId → WorkbenchM Unit) :
    (do f (← find handle) : WorkbenchM Unit) b =
      match b.wordOf handle with
      | .ok u => f u b
      | .error err => .error err b := by
  have hfind : find handle b = lift (b.wordOf handle) b := rfl
  cases hw : b.wordOf handle with
  | ok u =>
    rw [hw] at hfind
    simp only [Bind.bind, EStateM.bind, hfind]
    rfl
  | error err =>
    rw [hw] at hfind
    simp only [Bind.bind, EStateM.bind, hfind]
    rfl

theorem setHeap_eq (b : Workbench) (r : Except Error Heap) :
    setHeap r b =
      match r with
      | .ok heap => .ok () { b with heap }
      | .error err => .error err b := by
  cases r <;> rfl

theorem change_eq (b : Workbench) (handle : String) (f : Word → Except Error Word) :
    change handle f b =
      match b.wordOf handle with
      | .ok u => setHeap (b.heap.changeWord u f) b
      | .error err => .error err b :=
  find_bind_eq b handle fun u => do setHeap ((← get).heap.changeWord u f)

theorem run_compileWord (b : Workbench) (handle : String) :
    run (compileWord handle) b =
      match b.wordOf handle with
      | .ok u => setHeap (b.compiler.compileWord b.heap u) b
      | .error err => .error err b :=
  find_bind_eq b handle fun u => Workbench.compile fun c h => c.compileWord h u

theorem setHeap_ok {r : Except Error Heap} (h : setHeap r b = .ok () b') :
    r = .ok b'.heap := by
  rw [setHeap_eq] at h
  cases r <;> cases h
  rfl

theorem setHeap_error {r : Except Error Heap} {e : Error} (h : setHeap r b = .error e b') :
    b' = b := by
  rw [setHeap_eq] at h
  cases r <;> cases h
  rfl

/-- An operation of the compiler is an operation on the body of the word under construction. -/
theorem turn_building {c : Compiler} {h h' : Heap} {e : BodyOp}
    (he : ∀ x : Word, e.hollows x = false)
    (hr : (do h.changeWord (← c.building) e.apply : Except Error Heap) = .ok h') (w : WordId)
    (hollow : Bool) : Turn (h.word w) (h'.word w) hollow := by
  cases hb : c.building with
  | ok u =>
    rw [hb] at hr
    exact Heap.turn_changeWord hr w fun _ hh => by simp [he] at hh
  | error err =>
    rw [hb] at hr
    cases hr

theorem turn_compileWord {c : Compiler} {h h' : Heap} {u : WordId}
    (hr : c.compileWord h u = .ok h') (w : WordId) (hollow : Bool) :
    Turn (h.word w) (h'.word w) hollow := by
  unfold Compiler.compileWord at hr
  cases hb : c.building with
  | error err =>
    rw [hb] at hr
    cases hr
  | ok v =>
    rw [hb] at hr
    replace hr : (if (h.word v).body.isEmpty then do
        let code ← (h.word u).code
        h.changeWord v fun x => x.push (.direct (Compiler.wrapped u code))
      else h.changeWord v fun x => x.push (.call u) : Except Error Heap) = .ok h' := hr
    split at hr
    · cases hcode : (h.word u).code with
      | error err =>
        rw [hcode] at hr
        cases hr
      | ok code =>
        rw [hcode] at hr
        exact Heap.turn_changeWord (e := .push (.direct (Compiler.wrapped u code))) hr w
          fun _ hh => by simp [BodyOp.hollows] at hh
    · exact Heap.turn_changeWord (e := .push (.call u)) hr w
        fun _ hh => by simp [BodyOp.hollows] at hh

/-- **One operation at a bench**, seen from one word. -/
theorem turn_of_run {op : BuildOp} (h : op.run b = .ok () b') (w : WordId) :
    Turn (b.heap.word w) (b'.heap.word w) (op.hollows b w) := by
  cases op with
  | make handle name o =>
    cases h
    exact b.heap.turn_addWord name o w _
  | start handle name depth =>
    cases h
    exact b.heap.turn_addWord name .blank w _
  | edit handle e =>
    replace h : change handle e.apply b = .ok () b' := h
    rw [change_eq] at h
    cases hw : b.wordOf handle with
    | error err => rw [hw] at h; cases h
    | ok u =>
      rw [hw] at h
      refine Heap.turn_changeWord (setHeap_ok h) w fun hu hh => ?_
      simp [hollows, hw, hu ▸ hh, hu]
  | compile e => exact turn_building (e := .push e) (fun _ => rfl) (setHeap_ok h) w _
  | compileWord handle =>
    rw [run_compileWord] at h
    cases hw : b.wordOf handle with
    | error err => rw [hw] at h; cases h
    | ok u =>
      rw [hw] at h
      exact turn_compileWord (setHeap_ok h) w _
  | alter i e => exact turn_building (e := .poke i e) (fun _ => rfl) (setHeap_ok h) w _
  | expandLast n =>
    have hr : b.compiler.expand b.heap b.roots n = .ok b'.heap := setHeap_ok h
    unfold Compiler.expand at hr
    cases hl : b.compiler.last b.heap b.roots with
    | error err => rw [hl] at hr; cases hr
    | ok u =>
      rw [hl] at hr
      refine Heap.turn_changeWord (e := .expand n) hr w fun hu hh => ?_
      simp [hollows, hl, hu ▸ hh, hu]
  | free handle => cases h; exact .same rfl
  | reset => cases h; exact .same rfl

/-- An operation that fails changes nothing. -/
theorem eq_of_run_error {op : BuildOp} {e : Error} (h : op.run b = .error e b') : b' = b := by
  cases op with
  | edit handle x =>
    replace h : change handle x.apply b = .error e b' := h
    rw [change_eq] at h
    split at h
    · exact setHeap_error h
    · cases h; rfl
  | compileWord handle =>
    rw [run_compileWord] at h
    split at h
    · exact setHeap_error h
    · cases h; rfl
  | compile x => exact setHeap_error h
  | alter i x => exact setHeap_error h
  | expandLast n => exact setHeap_error h
  | make handle name o => cases h
  | start handle name depth => cases h
  | free handle => cases h
  | reset => cases h

/-- One operation, whether or not it fails, seen from one word. -/
theorem turn_attempt (b : Workbench) (op : BuildOp) (w : WordId) :
    Turn (b.heap.word w) ((attempt b op).heap.word w) (op.hollows b w) := by
  unfold attempt
  cases h : op.run b with
  | ok u b' => exact turn_of_run h w
  | error e b' => exact .same (by rw [eq_of_run_error h])

/-! ## Sequences of operations -/

theorem later_attemptAll {w : WordId} (ops : List BuildOp) {b : Workbench}
    (hw : (b.heap.word w).LaterPlain) : ((attemptAll b ops).heap.word w).LaterPlain := by
  induction ops generalizing b with
  | nil => exact hw
  | cons op ops ih => exact ih ((turn_attempt b op w).later hw)

theorem begun_attemptAll {w : WordId} {ops : List BuildOp} {b : Workbench}
    (hn : neverHollows b w ops = true) (hw : (b.heap.word w).Begun) :
    ((attemptAll b ops).heap.word w).Begun := by
  induction ops generalizing b with
  | nil => exact hw
  | cons op ops ih =>
    simp only [neverHollows, Bool.and_eq_true, Bool.not_eq_true'] at hn
    have ht := turn_attempt b op w
    rw [hn.1] at ht
    exact ih hn.2 (ht.begun hw)

theorem size_le_attemptAll (w : WordId) (ops : List BuildOp) (b : Workbench) :
    (b.heap.word w).size ≤ ((attemptAll b ops).heap.word w).size := by
  induction ops generalizing b with
  | nil => exact Nat.le_refl _
  | cons op ops ih => exact Nat.le_trans (turn_attempt b op w).size_le (ih _)

end BuildOp

open BuildOp in
/-- **The first slot.**  A word is empty or in order, as every new word is, and any operations are
    tried on it and on other words, in any order and with any operands, whether or not they fail.
    An operation that fails changes nothing.  No element but the first is ever a code.  Unless data
    slots are added to the word while it has no code, it stays empty or in order, and once it is
    not empty it can be run. -/
theorem first_slot_rule {b : Workbench} {w : WordId} (hw : (b.heap.word w).Orderly)
    (ops : List BuildOp) :
    (∀ (op : BuildOp) e b', op.run (attemptAll b ops) = .error e b' → b' = attemptAll b ops) ∧
    ((attemptAll b ops).heap.word w).LaterPlain ∧
    (neverHollows b w ops = true → ((attemptAll b ops).heap.word w).Orderly ∧
      ((b.heap.word w).body ≠ #[] → ∃ c, ((attemptAll b ops).heap.word w).code = .ok c)) := by
  obtain ⟨hlater, hbegun⟩ := Word.orderly_iff.1 hw
  have hlater' := later_attemptAll ops hlater
  refine ⟨fun op e b' h => eq_of_run_error h, hlater', fun hn => ?_⟩
  have hbegun' := begun_attemptAll hn hbegun
  refine ⟨Word.orderly_iff.2 ⟨hlater', hbegun'⟩, fun hne => hbegun'.code fun hempty => hne ?_⟩
  -- bodies get no shorter
  have hsize := size_le_attemptAll w ops b
  simp only [Word.size, hempty] at hsize
  exact Array.eq_empty_of_size_eq_zero (Nat.le_zero.1 hsize)

namespace BuildOp

/-- An empty bench. -/
def bare : Workbench :=
  { data := ⟨.data, 4, []⟩ }

/-- Operations that build two words, some of which fail. -/
def attempts : List BuildOp :=
  [.make "a" "w" .blank, .edit "a" (.push .recurse), .edit "a" (.push (.direct .docol)),
    .edit "a" (.expand 2), .edit "a" (.poke 2 (.direct .docol)), .edit "a" (.store 2 (.int 7)),
    .start "b" "v" 0, .compileWord "a", .expandLast 1, .edit "b" (.store 0 (.int 7))]

end BuildOp

open BuildOp in
/-- Both words are in order, and the second one runs the first. -/
theorem first_slot_rule_of_attempts :
    (bare.heap.word ⟨1⟩).Orderly ∧ neverHollows bare ⟨1⟩ attempts = true ∧
      ((attemptAll bare attempts).heap.word ⟨1⟩).body =
        #[.direct (.indirect ⟨0⟩ 1), .lit (.int 0)] ∧
      ((attemptAll bare attempts).heap.word ⟨1⟩).Orderly := by
  have hn : neverHollows bare ⟨1⟩ attempts = true := by decide +kernel
  exact ⟨.inl rfl, hn, by decide +kernel, ((first_slot_rule (.inl rfl) attempts).2.2 hn).1⟩

open BuildOp in
/-- Data slots that are added to an empty body leave no place for a code. -/
theorem slots_without_code :
    ¬ ∀ (ops : List BuildOp) (w : WordId), ((attemptAll bare ops).heap.word w).Orderly := by
  intro h
  have hbody : ((attemptAll bare [.make "a" "w" .blank, .edit "a" (.expand 1)]).heap.word
      ⟨0⟩).body = #[.lit (.int 0)] := by decide +kernel
  rcases h [.make "a" "w" .blank, .edit "a" (.expand 1)] ⟨0⟩ with he | ⟨c, es, he, -⟩
  · simp [he] at hbody
  · simp [hbody] at he

end ThreadedForth
