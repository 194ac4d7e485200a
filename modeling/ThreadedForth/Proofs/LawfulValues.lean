/-
  Lawful words for values, operators and objects.
-/
import ThreadedForth.Proofs.Lawful

namespace ThreadedForth

variable {α β : Type} {L : Law} {m : Machine}

/-! ## Stacks -/

namespace StackWord

theorem pushSide_lawful (k : SideStack) {v : Value} (hv : v.Obeys L) :
    Lawful L m (pushSide k v) := by
  intro hm
  have hold : ∀ {s : Stack Value}, (∀ x ∈ s.items, x.Obeys L) → ∀ x ∈ v :: s.items, x.Obeys L := by
    intro s hs x hx
    rcases List.mem_cons.1 hx with rfl | hx
    · exact hv
    · exact hs x hx
  cases k with
  | temp =>
    unfold pushSide side
    cases hp : m.temp.push v with
    | error e => exact ⟨hm, Stack.push_error hp⟩
    | ok s =>
      have hbound := hm.bounded.temp.push hp
      obtain ⟨-, rfl⟩ := Stack.push_eq_ok hp
      exact ⟨{ hm with temp := hold hm.temp, bounded := { hm.bounded with temp := hbound } }, trivial⟩
  | self =>
    unfold pushSide side
    cases hp : m.self.push v with
    | error e => exact ⟨hm, Stack.push_error hp⟩
    | ok s =>
      have hbound := hm.bounded.self.push hp
      obtain ⟨-, rfl⟩ := Stack.push_eq_ok hp
      exact ⟨{ hm with self := hold hm.self, bounded := { hm.bounded with self := hbound } }, trivial⟩

theorem popSide_lawful (k : SideStack) : Lawful L m (popSide k) (Value.Obeys L) := by
  intro hm
  cases k with
  | temp =>
    unfold popSide side
    cases hp : m.temp.pop with
    | error e => exact ⟨hm, Stack.pop_error hp⟩
    | ok vs =>
      obtain ⟨v, s⟩ := vs
      have hi := (Stack.pop_eq_ok hp).1
      refine ⟨{ hm with
        temp := fun x hx => hm.temp x (hi ▸ List.mem_cons_of_mem _ hx)
        bounded := { hm.bounded with temp := hm.bounded.temp.pop hp } }, ?_⟩
      exact hm.temp v (hi ▸ List.mem_cons_self)
  | self =>
    unfold popSide side
    cases hp : m.self.pop with
    | error e => exact ⟨hm, Stack.pop_error hp⟩
    | ok vs =>
      obtain ⟨v, s⟩ := vs
      have hi := (Stack.pop_eq_ok hp).1
      refine ⟨{ hm with
        self := fun x hx => hm.self x (hi ▸ List.mem_cons_of_mem _ hx)
        bounded := { hm.bounded with self := hm.bounded.self.pop hp } }, ?_⟩
      exact hm.self v (hi ▸ List.mem_cons_self)

theorem side_obeys (hm : m.Obeys L) (k : SideStack) : ∀ v ∈ (side m k).items, v.Obeys L := by
  cases k with
  | temp => exact hm.temp
  | self => exact hm.self

theorem ensureRoom_lawful (n : Nat) : Lawful L m (ensureRoom n) :=
  .get fun _ => M.lift_lawful (Stack.ensureRoom_keeping _ n)

end StackWord

theorem checkIndex_keeping (i : Int64) (n : Nat) :
    Keeping L (fun k => k < n) (checkIndex i n) := by
  unfold checkIndex
  split
  · rename_i h
    exact (Int.toNat_lt h.1).2 h.2
  · exact .error rfl

theorem checkRange_keeping (start count : Int64) (n : Nat) :
    Keeping L (fun r => r.1 ≤ r.2 ∧ r.2 ≤ n) (checkRange start count n) := by
  unfold checkRange
  split
  · exact .error rfl
  · split
    · exact .error rfl
    · simp only [Keeping]
      omega

theorem StackWord.run_lawful (w : StackWord) : Lawful L m w.run := by
  cases w with
  | dup => exact (M.peek_lawful 0).bind fun _ _ hv => M.push_lawful hv
  | drop => exact M.pop_lawful.bind fun _ _ _ => .done
  | swap =>
    exact M.pop_lawful.bind fun _ _ ha => M.pop_lawful.bind fun _ _ hb =>
      (M.push_lawful ha).bind fun _ _ _ => M.push_lawful hb
  | «over» => exact (M.peek_lawful 1).bind fun _ _ hv => M.push_lawful hv
  | rot =>
    exact M.pop_lawful.bind fun _ _ hc => M.pop_lawful.bind fun _ _ hb => M.pop_lawful.bind
      fun _ _ ha => (M.push_lawful hb).bind fun _ _ _ => (M.push_lawful hc).bind fun _ _ _ =>
        M.push_lawful ha
  | nip =>
    exact M.pop_lawful.bind fun _ _ hb => M.pop_lawful.bind fun _ _ _ => M.push_lawful hb
  | tuck =>
    exact (ensureRoom_lawful 1).bind fun _ _ _ => M.pop_lawful.bind fun _ _ hb =>
      M.pop_lawful.bind fun _ _ ha => (M.push_lawful hb).bind fun _ _ _ =>
        (M.push_lawful ha).bind fun _ _ _ => M.push_lawful hb
  | twoDup =>
    exact (M.peek_lawful 1).bind fun _ _ ha => (M.peek_lawful 0).bind fun _ _ hb =>
      (ensureRoom_lawful 2).bind fun _ _ _ => (M.push_lawful ha).bind fun _ _ _ => M.push_lawful hb
  | twoDrop => exact M.pop_lawful.bind fun _ _ _ => M.pop_lawful.bind fun _ _ _ => .done
  | pick =>
    exact M.popInt_lawful.bind fun _ _ _ => .get fun _ => (M.lift_lawful (checkIndex_keeping _ _)).bind
      fun _ _ _ => (M.peek_lawful _).bind fun _ _ hv => M.push_lawful hv
  | depth => exact .get fun _ => M.push_lawful (.inert rfl)
  | clear =>
    exact .modify fun hm =>
      { hm with data := nofun, bounded := { hm.bounded with data := hm.bounded.data.clear } }
  | toReturn => exact M.popInt_lawful.bind fun _ _ _ => M.pushReturn_lawful _
  | fromReturn => exact M.popReturn_lawful.bind fun _ _ _ => M.push_lawful (.inert rfl)
  | copyReturn => exact (M.peekReturn_lawful 0).bind fun _ _ _ => M.push_lawful (.inert rfl)
  | toSide k => exact M.pop_lawful.bind fun _ _ hv => pushSide_lawful k hv
  | fromSide k => exact (popSide_lawful k).bind fun _ _ hv => M.push_lawful hv
  | copySide k =>
    exact .get fun hm => (M.lift_lawful (Stack.peek_keeping (side_obeys hm k) 0)).bind
      fun _ _ hv => M.push_lawful hv

/-! ## Texts of values -/

namespace Obj.Obeys

variable {x : Obj}

theorem opening (hx : x.Obeys L) : L.Text x.opening := by
  cases x with
  | text s => exact hx
  | array => exact Law.Text.of_ascii (s := "[") (by decide)
  | record => exact hx.1.name.append (.of_ascii (by decide))

theorem closing (x : Obj) : L.Text x.closing := by
  cases x with
  | text => exact Law.Text.of_ascii (s := "") (by decide)
  | array => exact Law.Text.of_ascii (s := "]") (by decide)
  | record => exact Law.Text.of_ascii (s := "\x7d") (by decide)

theorem abbreviation (hx : x.Obeys L) : L.Text x.abbreviation := by
  cases x with
  | text s => exact hx
  | array => exact Law.Text.of_ascii (s := "[...]") (by decide)
  | record => exact hx.1.name.append (.of_ascii (by decide))

theorem entries (hx : x.Obeys L) : ∀ e ∈ x.entries, L.Text e.1 ∧ e.2.Obeys L := by
  intro e he
  cases x with
  | text s => cases he
  | array items =>
    obtain ⟨i, hi, rfl⟩ := List.mem_mapIdx.1 he
    refine ⟨.of_ascii ?_, hx _ (Array.mem_toList_iff.1 (List.getElem_mem hi))⟩
    dsimp only
    split <;> decide
  | record t d items =>
    obtain ⟨i, hi, rfl⟩ := List.mem_mapIdx.1 he
    have hmem := List.of_mem_zip (List.getElem_mem hi)
    refine ⟨(Law.Text.append ?_ (hx.1.fields _ hmem.1)).append (.of_ascii (by decide)),
      hx.2 _ (Array.mem_toList_iff.1 hmem.2)⟩
    split <;> exact .of_ascii (by decide)

theorem setVisiting (hx : x.Obeys L) (b : Bool) : (x.setVisiting b).Obeys L := by
  cases x <;> exact hx

end Obj.Obeys

namespace Heap.Obeys

variable {h : Heap}

theorem leaf (hh : h.Obeys L) {v : Value} (hv : v.Obeys L) : ∀ s ∈ h.leaf v, L.Text s := by
  intro s hs
  cases v with
  | char c =>
    cases List.mem_singleton.1 hs
    refine fun hc => .ofList fun d hd => ?_
    cases List.mem_singleton.1 hd
    exact isAscii_byteChar (hv hc)
  | int n =>
    cases List.mem_singleton.1 hs
    exact .of_ascii (.int _)
  | float x => exact .of_ascii (AsciiText.shown x s hs)
  | bool b =>
    cases List.mem_singleton.1 hs
    exact .of_ascii (.boolText b)
  | type t =>
    cases List.mem_singleton.1 hs
    exact .of_ascii ((AsciiText.append (by decide) (.nat _)).append (by decide))
  | xt w =>
    cases List.mem_singleton.1 hs
    exact (Law.Text.append (.of_ascii (by decide)) (hh.word w).label).append (.of_ascii (by decide))
  | ptr p =>
    cases List.mem_singleton.1 hs
    exact (((Law.Text.append (.of_ascii (by decide)) (hh.word p.target).label).append
      (.of_ascii (by decide))).append (.of_ascii (.nat _))).append (.of_ascii (by decide))
  | obj => cases hs
  | binop op =>
    cases List.mem_singleton.1 hs
    exact .of_ascii (.symbol op)

theorem mark (hh : h.Obeys L) (o : ObjId) (b : Bool) : (h.mark o b).Obeys L :=
  hh.setObject o ((hh.object o).setVisiting b)

section Walk

variable {σ : Type} {put : σ → String → σ × Bool} {P : σ → Prop}

theorem putAll (hput : ∀ s p, P s → L.Text p → P (put s p).1) :
    ∀ {ps : List String} {s : σ}, (∀ p ∈ ps, L.Text p) → P s → P (putAll put ps s).1
  | [], _, _, hs => hs
  | p :: ps, s, hps, hs => by
    have hp := hput s p hs (hps p List.mem_cons_self)
    unfold Heap.putAll
    rcases hr : put s p with ⟨s', _ | _⟩
    · rwa [hr] at hp
    · rw [hr] at hp
      exact putAll hput (fun q hq => hps q (List.mem_cons_of_mem _ hq)) hp

/-- A walk that keeps a heap lawful and gives lawful texts to its sink. -/
def Walks (L : Law) (P : σ → Prop) (visit : Value → Heap → σ → Heap × σ × Bool) : Prop :=
  ∀ v h s, v.Obeys L → h.Obeys L → P s → (visit v h s).1.Obeys L ∧ P (visit v h s).2.1

theorem walkEntries {visit : Value → Heap → σ → Heap × σ × Bool}
    (hput : ∀ s p, P s → L.Text p → P (put s p).1) (hvisit : Walks L P visit) :
    ∀ {es : List (String × Value)} {h : Heap} {s : σ}, (∀ e ∈ es, L.Text e.1 ∧ e.2.Obeys L) →
      h.Obeys L → P s →
      (walkEntries put visit es h s).1.Obeys L ∧ P (walkEntries put visit es h s).2.1
  | [], _, _, _, hh, hs => ⟨hh, hs⟩
  | (t, v) :: es, h, s, hes, hh, hs => by
    obtain ⟨ht, hv⟩ := hes _ List.mem_cons_self
    have hp := hput s t hs ht
    unfold Heap.walkEntries
    rcases hr : put s t with ⟨s', _ | _⟩
    · rw [hr] at hp
      exact ⟨hh, hp⟩
    · rw [hr] at hp
      have hw := hvisit v h s' hv hh hp
      dsimp only
      rcases hr' : visit v h s' with ⟨h', s'', _ | _⟩
      · rwa [hr'] at hw
      · rw [hr'] at hw
        exact walkEntries hput hvisit (fun e he => hes e (List.mem_cons_of_mem _ he)) hw.1 hw.2

theorem walkObject {visit : Value → Heap → σ → Heap × σ × Bool}
    (hput : ∀ s p, P s → L.Text p → P (put s p).1) (hvisit : Walks L P visit) {x : Obj} {s : σ}
    (hx : x.Obeys L) (hh : h.Obeys L) (hs : P s) :
    (walkObject put visit x h s).1.Obeys L ∧ P (walkObject put visit x h s).2.1 := by
  have hp := hput s _ hs hx.opening
  unfold Heap.walkObject
  rcases hr : put s x.opening with ⟨s', _ | _⟩
  · rw [hr] at hp
    exact ⟨hh, hp⟩
  · rw [hr] at hp
    have hw := walkEntries hput hvisit hx.entries hh hp
    dsimp only
    rcases hr' : Heap.walkEntries put visit x.entries h s' with ⟨h', s'', _ | _⟩
    · rwa [hr'] at hw
    · rw [hr'] at hw
      exact ⟨hw.1, hput s'' _ hw.2 (Obj.Obeys.closing x)⟩

theorem walk (hput : ∀ s p, P s → L.Text p → P (put s p).1) (fuel : Nat) :
    Walks L P (walk put fuel) := by
  intro v h s hv hh hs
  cases v with
  | obj o =>
    have hx := hh.object o
    unfold Heap.walk
    rcases (h.object o).visiting? with _ | _ | _
    · exact ⟨hh, hput s _ hs hx.opening⟩
    · cases fuel with
      | zero => exact ⟨hh, hs⟩
      | succ fuel =>
        have hw := walkObject hput (walk hput fuel) hx (hh.mark o true) hs
        exact ⟨hw.1.mark o false, hw.2⟩
    · exact ⟨hh, hput s _ hs hx.abbreviation⟩
  | _ =>
    unfold Heap.walk
    exact ⟨hh, putAll hput (hh.leaf hv) hs⟩

end Walk

/-- The text of a value. -/
theorem display (hh : h.Obeys L) {v : Value} (hv : v.Obeys L) : L.Text (h.display v) := by
  have hput : ∀ s p, L.Text s → L.Text p → L.Text ((fun s p => (s ++ p, true)) s p : String × Bool).1 :=
    fun s p hs hp => hs.append hp
  exact (walk hput _ v h "" hv hh (.of_ascii (by decide))).2

theorem elemText (hh : h.Obeys L) {e : Elem} (he : e.Obeys L) : L.Text (h.elemText e) := by
  have hlit : ∀ s : String, AsciiText s → L.Text s := fun s hs => .of_ascii hs
  cases e with
  | direct c =>
    cases c with
    | native p => exact hlit "native" (by decide)
    | docol => exact hlit "docol" (by decide)
    | indirect b i =>
      exact ((Law.Text.append (hlit _ (by decide)) (hh.word b).label).append
        (hlit _ (by decide))).append (hlit _ (.nat _))
  | call w => exact Law.Text.append (hlit _ (by decide)) (hh.word w).label
  | lit v =>
    have hd := hh.display he
    cases v with
    | obj o => exact (Law.Text.append (hlit _ (by decide)) hd).append (hlit _ (by decide))
    | _ => exact Law.Text.append (hlit _ (by decide)) hd
  | recurse => exact hlit "recurse" (by decide)

/-- The listing of a word. -/
theorem listing (hh : h.Obeys L) (w : WordId) : L.Text (h.listing w) := by
  refine .join fun s hs => ?_
  obtain ⟨i, hi, rfl⟩ := List.mem_mapIdx.1 hs
  have he := (hh.word w).body _ (Array.mem_toList_iff.1 (List.getElem_mem hi))
  exact ((Law.Text.append (.of_ascii (.nat i)) (.of_ascii (by decide))).append
    (hh.elemText he)).append (.of_ascii (by decide))

end Heap.Obeys

namespace Types.Obeys

variable {t : Types}

theorem get? (ht : t.Obeys L) {id : TypeId} {e : TypeEntry} (he : t.get? id = some e) :
    e.Obeys L := by
  refine ht e ?_
  unfold Types.get? at he
  simp only at he
  split at he
  · exact .inl (Array.mem_of_getElem? he)
  · split at he
    · exact .inr (.inl (Array.mem_of_getElem? he))
    · exact .inr (.inr (Array.mem_of_getElem? he))

theorem handler? (ht : t.Obeys L) {id : TypeId} {h : Handler} (hh : t.handler? id = some h) :
    h.Obeys L := by
  obtain ⟨e, he, hh⟩ := Option.bind_eq_some_iff.1 hh
  exact (ht.get? he).handler h hh

theorem nameOf (ht : t.Obeys L) (id : TypeId) : L.Text (t.nameOf id) := by
  unfold Types.nameOf
  refine .append ?_ (.of_ascii (.ofList fun c hc => ?_))
  · cases he : t.get? id with
    | none => exact .of_ascii ((AsciiText.append (by decide) (.nat _)).append (by decide))
    | some e => exact (ht.get? he).name
  · rw [List.eq_of_mem_replicate hc]
    decide

end Types.Obeys

theorem Machine.Obeys.format (hm : m.Obeys L) {v : Value} (hv : v.Obeys L) :
    L.Text (m.format v) := by
  cases v with
  | type t => exact hm.types.nameOf t
  | _ => exact hm.heap.display hv

theorem Machine.Obeys.stackLine (hm : m.Obeys L) : L.Text m.stackLine := by
  refine .join fun s hs => ?_
  rcases List.mem_cons.1 hs with rfl | hs
  · exact .of_ascii ((AsciiText.append (by decide) (.nat _)).append (by decide))
  · obtain ⟨v, hv, rfl⟩ := List.mem_map.1 hs
    exact .append (.of_ascii (by decide)) (hm.format (hm.data v (List.mem_reverse.1 hv)))

/-! ## Operators -/

theorem intResult_keeping (a b : Int64) (op : Operator) :
    Keeping L (Value.Obeys L) (intResult a b op) := by
  cases op with
  | div | mod =>
    simp only [intResult]
    split
    · exact .error rfl
    · trivial
  | _ => trivial

theorem floatResult_keeping (a b : Float) (op : Operator) :
    Keeping L (Value.Obeys L) (floatResult a b op) := by
  cases op with
  | div | mod =>
    simp only [floatResult]
    split
    · exact .error rfl
    · trivial
  | and | or | xor => exact .error rfl
  | _ => trivial

theorem flagResult_keeping (a b : Bool) (op : Operator) :
    Keeping L (Value.Obeys L) (flagResult a b op) := by
  cases op with
  | eq | ne | and | or | xor => trivial
  | _ => exact .error rfl

theorem equalityResult_keeping (a b : Value) (op : Operator) :
    Keeping L (Value.Obeys L) (equalityResult a b op) := by
  cases op with
  | eq | ne => trivial
  | _ => exact .error rfl

theorem Heap.moved_keeping {h : Heap} {p : Pointer} (hp : L.callee p.target) (n : Int64) :
    Keeping L (Value.Obeys L) (h.moved p n) := by
  unfold Heap.moved Heap.offset
  dsimp only
  split
  · exact hp
  · exact .error rfl

theorem Heap.applyValues_keeping {h : Heap} {a b : Value} (ha : a.Obeys L) (hb : b.Obeys L)
    (op : Operator) : Keeping L (Value.Obeys L) (h.applyValues a b op) := by
  unfold Heap.applyValues
  split
  · exact Value.toFloat_keeping.bind fun _ _ => Value.toFloat_keeping.bind fun _ _ =>
      floatResult_keeping _ _ op
  · split
    · exact flagResult_keeping _ _ op
    · split
      · exact Heap.moved_keeping ha _
      · exact Heap.moved_keeping ha _
      · exact .error rfl
    · split
      · exact Heap.moved_keeping hb _
      · exact .error rfl
    · split
      · split
        · trivial
        · exact .error rfl
      · exact equalityResult_keeping _ _ _
    · exact equalityResult_keeping _ _ op
    · exact equalityResult_keeping _ _ op
    · exact equalityResult_keeping _ _ op
    · exact equalityResult_keeping _ _ op
    · split
      · exact Value.toInt_keeping.bind fun _ _ => Value.toInt_keeping.bind fun _ _ =>
          intResult_keeping _ _ op
      · exact .error rfl

theorem Heap.Obeys.applyStrings {h : Heap} (hh : h.Obeys L) {a b : Value} (ha : a.Obeys L)
    (hb : b.Obeys L) (op : Operator) :
    Keeping L (fun r => r.1.Obeys L ∧ r.2.Obeys L) (h.applyStrings a b op) := by
  unfold Heap.applyStrings
  split
  · have ht : L.Text (h.display a ++ h.display b) := (hh.display ha).append (hh.display hb)
    exact ⟨trivial, hh.addObject (x := .text _) ht⟩
  · split
    · split
      · exact ⟨trivial, hh⟩
      · split
        · exact ⟨trivial, hh⟩
        · exact ⟨trivial, hh⟩
        · exact .error rfl
    · exact .error rfl

namespace Operator

/-- What the application of an operator gives. -/
def Dispatch.Obeys (L : Law) : Dispatch → Prop
  | done v => v.Obeys L
  | run w _ => L.callee w

theorem handlerOf?_obeys (hm : m.Obeys L) {v : Value} {h : Handler} (hh : handlerOf? m v = some h) :
    h.Obeys L := by
  cases v with
  | obj o => exact hm.types.handler? hh
  | _ => cases hh

theorem handler?_obeys (hm : m.Obeys L) {a b : Value} {h : Handler} (hh : handler? m a b = some h) :
    h.Obeys L := by
  rcases Option.or_eq_some_iff.1 hh with hh | ⟨_, hh⟩
  · exact handlerOf?_obeys hm hh
  · exact handlerOf?_obeys hm hh

theorem takeResult_lawful (depth : Nat) : Lawful L m (takeResult depth) (Value.Obeys L) :=
  .get fun _ => .ite M.pop_lawful (.throw rfl)

theorem handleStrings_lawful : Lawful L m handleStrings := by
  refine M.pop_lawful.bind fun _ _ _ => (M.lift_lawful Value.toOperator_keeping).bind fun op _ _ =>
    M.pop_lawful.bind fun b _ hb => M.pop_lawful.bind fun a m₃ ha => .get fun hm =>
      (M.lift_lawful (hm.heap.applyStrings ha hb op)).bind fun vh m₄ hv => ?_
  exact fun hm => M.push_lawful (m := { m₄ with heap := vh.2 }) hv.1
    { hm with heap := hv.2, bounded := { hm.bounded with } }

theorem handleHost_lawful (h : HostHandler) :
    Lawful L m (handleHost h) fun w => ∀ x, w = some x → L.callee x := by
  cases h with
  | const | exit =>
    exact M.pop_lawful.bind fun _ _ _ => M.pop_lawful.bind fun _ _ _ => M.pop_lawful.bind
      fun _ _ _ => (M.push_lawful (.inert rfl)).bind fun _ _ _ => .pure nofun
  | call =>
    refine (M.builtin_lawful _).bind fun w _ hw => .pure fun x hx => ?_
    cases hx
    exact hw
  | broken => exact M.pop_lawful.bind fun _ _ _ => .pure nofun

theorem handle_lawful {h : Handler} (hh : h.Obeys L) :
    Lawful L m (handle h) fun w => ∀ x, w = some x → L.callee x := by
  cases h with
  | strings => exact handleStrings_lawful.bind fun _ _ _ => .pure nofun
  | host h => exact handleHost_lawful h
  | word w =>
    refine .pure fun x hx => ?_
    cases hx
    exact hh

theorem dispatch_lawful {a b : Value} (ha : a.Obeys L) (hb : b.Obeys L) (op : Operator) :
    Lawful L m (dispatch a b op) (Dispatch.Obeys L) := by
  refine .get fun hm => ?_
  cases hh : handler? m a b with
  | none => exact (M.lift_lawful (Heap.applyValues_keeping ha hb op)).bind fun _ _ hv => .pure hv
  | some h =>
    refine (M.push_lawful ha).bind fun _ _ _ => (M.push_lawful hb).bind fun _ _ _ =>
      (M.push_lawful (.inert rfl)).bind fun _ _ _ =>
        (handle_lawful (handler?_obeys hm hh)).bind fun w _ hw => ?_
    cases w with
    | none => exact (takeResult_lawful _).bind fun _ _ hv => .pure hv
    | some w => exact .pure (hw w rfl)

theorem useResult_lawful {v : Value} {after : After} (hv : v.Obeys L) (ha : after.Obeys L) :
    Lawful L m (useResult v after) := by
  cases after with
  | push => exact M.push_lawful hv
  | select a b =>
    exact (M.lift_lawful Value.toFlag_keeping).bind fun _ _ _ =>
      .ite (M.push_lawful ha.1) (M.push_lawful ha.2)
  | store p => exact .get fun hm => M.setHeap_lawful (hm.heap.store p hv)

theorem conclude_lawful (depth : Nat) {after : After} (ha : after.Obeys L) :
    Lawful L m (conclude depth after) :=
  (takeResult_lawful depth).bind fun _ _ hv => useResult_lawful hv ha

theorem applyThen_lawful {a b : Value} {after : After} (ha : a.Obeys L) (hb : b.Obeys L)
    (hafter : after.Obeys L) (op : Operator) :
    Lawful L m (applyThen a b op after) (Flow.Obeys L) := by
  refine (dispatch_lawful ha hb op).bind fun d _ hd => ?_
  cases d with
  | done v => exact (useResult_lawful hd hafter).bind fun _ _ _ => .pure trivial
  | run w depth => exact .pure ⟨hd, hafter⟩

end Operator

/-- A computation after which the program goes on. -/
theorem Lawful.next {act : M α} (h : Lawful L m act) :
    Lawful L m (act >>= fun _ => Pure.pure Flow.next) (Flow.Obeys L) :=
  h.bind fun _ _ _ => .pure trivial

theorem ArithmeticWord.run_lawful (w : ArithmeticWord) : Lawful L m w.run (Flow.Obeys L) := by
  have hpush : After.Obeys L .push := trivial
  cases w with
  | apply op =>
    exact M.pop_lawful.bind fun _ _ hb => M.pop_lawful.bind fun _ _ ha =>
      Operator.applyThen_lawful ha hb hpush op
  | select op =>
    refine M.pop_lawful.bind fun _ _ hb => M.pop_lawful.bind fun _ _ ha =>
      Operator.applyThen_lawful ha hb ?_ op
    exact ⟨ha, hb⟩
  | increment => exact M.pop_lawful.bind fun _ _ ha => Operator.applyThen_lawful ha (.inert rfl) hpush _
  | decrement => exact M.pop_lawful.bind fun _ _ ha => Operator.applyThen_lawful ha (.inert rfl) hpush _
  | negate =>
    refine M.pop_lawful.bind fun v _ _ => ?_
    cases v with
    | float x => exact (M.push_lawful (.inert rfl)).next
    | _ =>
      exact (M.lift_lawful Value.toInt_keeping).bind fun _ _ _ => (M.push_lawful (.inert rfl)).next
  | abs =>
    refine M.pop_lawful.bind fun v _ _ => ?_
    cases v with
    | float x => exact (M.push_lawful (.inert rfl)).next
    | _ =>
      exact (M.lift_lawful Value.toInt_keeping).bind fun _ _ _ => (M.push_lawful (.inert rfl)).next
  | not => exact M.popFlag_lawful.bind fun _ _ _ => (M.push_lawful (.inert rfl)).next
  | invert => exact M.popInt_lawful.bind fun _ _ _ => (M.push_lawful (.inert rfl)).next
  | flag b => exact (M.push_lawful (.inert rfl)).next

theorem onFloat_lawful (f : Float → Float) : Lawful L m (onFloat f) :=
  M.pop_lawful.bind fun _ _ _ => (M.lift_lawful Value.toFloat_keeping).bind fun _ _ _ =>
    M.push_lawful (.inert rfl)

theorem FloatWord.run_lawful (w : FloatWord) : Lawful L m w.run := by
  cases w with
  | toInt =>
    refine M.pop_lawful.bind fun v _ _ => ?_
    cases v with
    | float x => exact M.push_lawful (.inert rfl)
    | _ =>
      exact (M.lift_lawful Value.toInt_keeping).bind fun _ _ _ => M.push_lawful (.inert rfl)
  | _ => exact onFloat_lawful _

/-! ## Output -/

theorem putSpaces_lawful : ∀ (n : Nat) {m : Machine}, Lawful L m (putSpaces n)
  | 0, _ => .done
  | n + 1, _ => (M.put_lawful (.of_ascii (by decide))).bind fun _ _ _ => putSpaces_lawful n

/-- A byte that is a text by itself is an ASCII character. -/
theorem putByte_lawful (b : UInt8) : Lawful L m (putByte b) := by
  intro hm
  unfold putByte Output.pushBytes
  cases hb : Utf8.ofBytes? [b] with
  | none => exact ⟨hm, .of_ne rfl⟩
  | some s => exact M.put_lawful (.of_ascii (Utf8.ascii_of_ofBytes? hb)) hm

theorem byteOf_keeping (v : Value) : Keeping L (fun _ => True) (byteOf v) := by
  have hint : Keeping L (fun _ => True) (do
      let n ← v.toInt
      if 0 ≤ n.toInt ∧ n.toInt < 256 then Except.ok (UInt8.ofNat n.toInt.toNat)
      else .error (.indexOutOfRange n.toInt 256)) := by
    refine Value.toInt_keeping.bind fun n _ => ?_
    split
    · trivial
    · exact .error rfl
  cases v with
  | char c => trivial
  | _ => exact hint

theorem Machine.Obeys.names (hm : m.Obeys L) : L.Text
    (String.intercalate " " (m.dictionary.names m.heap)) := by
  refine fun hc => .intercalate (by decide) fun s hs => ?_
  obtain ⟨e, -, he⟩ := List.mem_filterMap.1 (List.mem_mergeSort.1 hs)
  split at he
  · cases he
  · cases he
    exact (hm.heap.word e.2).name hc

theorem OutputWord.run_lawful (w : OutputWord) : Lawful L m w.run := by
  have hlit : ∀ s : String, AsciiText s → L.Text s := fun s hs => .of_ascii hs
  have hpair : ∀ {s t : String}, L.Text s → AsciiText t → ∀ x ∈ [s, t], L.Text x := by
    intro s t hs ht x hx
    simp only [List.mem_cons, List.not_mem_nil, or_false] at hx
    rcases hx with rfl | rfl
    · exact hs
    · exact .of_ascii ht
  cases w with
  | print =>
    exact M.pop_lawful.bind fun _ _ hv => .get fun hm =>
      M.write_lawful (hpair (hm.format hv) (by decide))
  | printFloat =>
    refine M.pop_lawful.bind fun _ _ _ => (M.lift_lawful Value.toFloat_keeping).bind fun x _ _ =>
      M.write_lawful fun s hs => ?_
    rcases List.mem_append.1 hs with hs | hs
    · exact .of_ascii (AsciiText.shown x s hs)
    · cases List.mem_singleton.1 hs
      exact .of_ascii (by decide)
  | printStack => exact .get fun hm => M.write_lawful (hpair hm.stackLine (by decide))
  | emit =>
    exact M.pop_lawful.bind fun _ _ _ => (M.lift_lawful (byteOf_keeping _)).bind fun _ _ _ =>
      putByte_lawful _
  | newline => exact M.put_lawful (hlit _ (by decide))
  | space => exact M.put_lawful (hlit _ (by decide))
  | spaces => exact M.popInt_lawful.bind fun _ _ _ => putSpaces_lawful _
  | type => exact M.pop_lawful.bind fun _ _ hv => .get fun hm => M.put_lawful (hm.format hv)
  | words => exact .get fun hm => M.write_lawful (hpair hm.names (by decide))
  | see => exact (M.nextWord_lawful _).bind fun w _ _ => .get fun hm => M.put_lawful (hm.heap.listing w)

/-! ## Objects -/

namespace Store

/-- A lawful computation on the part of a machine that functions of objects work on. -/
abbrev Lawful (L : Law) (m : Machine) (act : StoreM α) (P : α → Prop) : Prop :=
  ThreadedForth.Lawful L m (M.onStore act) P

variable {address : UInt64} {P : α → Prop} {Q : β → Prop}

theorem Lawful.bind {x : StoreM α} {f : α → StoreM β} (hx : Lawful L m x P)
    (hf : ∀ a m₁, P a → Lawful L m₁ (f a) Q) : Lawful L m (x >>= f) Q := by
  unfold Lawful
  rw [M.onStore_bind]
  exact ThreadedForth.Lawful.bind hx hf

theorem Lawful.done {a : α} : Lawful L m (Pure.pure a) fun _ => True :=
  ThreadedForth.Lawful.done

theorem Lawful.throw {e : Error} (h : e.isFault = false) : Lawful L m (MonadExcept.throw e) P :=
  ThreadedForth.Lawful.throw h

theorem Lawful.get {f : Store → StoreM α} (h : m.Obeys L → Lawful L m (f ⟨m.heap, m.data⟩) P) :
    Lawful L m (MonadState.get >>= f) P :=
  fun hm => h hm hm

theorem pop_lawful : Lawful L m pop (Value.Obeys L) := by
  rw [Lawful, M.onStore_pop]
  exact M.pop_lawful

theorem push_lawful {v : Value} (hv : v.Obeys L) : Lawful L m (push v) fun _ => True := by
  rw [Lawful, M.onStore_push]
  exact M.push_lawful hv

theorem lift_lawful {r : Except Error α} (hr : Keeping L P r) : Lawful L m (lift r) P := by
  rw [Lawful, M.onStore_lift]
  exact M.lift_lawful hr

theorem popInt_lawful : Lawful L m popInt fun _ => True :=
  pop_lawful.bind fun _ _ _ => lift_lawful Value.toInt_keeping

theorem replace_lawful (o : ObjId) {x : Obj} (hx : x.Obeys L) :
    Lawful L m (replace o x) fun _ => True :=
  fun hm => ⟨{ hm with heap := hm.heap.setObject o hx, bounded := { hm.bounded with } }, trivial⟩

theorem pushAll_lawful : ∀ {m : Machine} {vs : List Value}, (∀ v ∈ vs, v.Obeys L) →
    Lawful L m (pushAll vs) fun _ => True
  | _, [], _ => .done
  | _, _ :: _, h =>
    (push_lawful (h _ List.mem_cons_self)).bind fun _ _ _ =>
      pushAll_lawful fun v hv => h v (List.mem_cons_of_mem _ hv)

theorem pushNew_lawful {x : Obj} (hx : x.Obeys L) : Lawful L m (pushNew x) fun _ => True := by
  rw [Lawful, onStore_pushNew]
  exact M.pushNew_lawful hx

theorem storedChar_keeping (v : Value) : Keeping L (fun c => isAscii c = true) (storedChar v) := by
  cases v with
  | char c =>
    unfold storedChar
    dsimp only
    split
    · exact isAscii_byteChar ‹_›
    · exact .error rfl
  | int n =>
    unfold storedChar
    dsimp only
    split
    · rename_i h
      exact isAscii_ofNat (by omega)
    · exact .error rfl
  | _ => exact .error rfl

theorem needle_keeping (h : Heap) (v : Value) : Keeping L (fun _ => True) (h.needle v) := by
  cases v with
  | char c => trivial
  | _ =>
    unfold Heap.needle
    dsimp only
    split
    · trivial
    · exact .error rfl

/-- A fault that only a machine with a host has. -/
theorem hostFault_lawful {f : NativeFault} (h : ¬ L.closed) :
    Lawful L m (MonadExcept.throw (Error.nativeFault f)) P :=
  fun hm => ⟨hm, fun hc => absurd hc h⟩

/-- The functions of a string; a character of an ASCII text is not cut. -/
theorem invokeText_lawful (o : ObjId) {text : String} (ht : L.Text text) (f : Function) :
    Lawful L m (invokeText o text f) fun _ => True := by
  cases f with
  | size => exact push_lawful (.inert rfl)
  | hash => exact push_lawful (.inert rfl)
  | get =>
    refine popInt_lawful.bind fun _ _ _ => (lift_lawful (checkIndex_keeping _ _)).bind fun i _ _ =>
      push_lawful fun hc => ?_
    cases hb : (Utf8.bytes text)[i]? with
    | none => decide
    | some b => exact Utf8.lt_of_mem_bytes (ht hc) (List.mem_of_getElem? hb)
  | set =>
    refine popInt_lawful.bind fun _ _ _ => pop_lawful.bind fun v _ _ =>
      (lift_lawful (storedChar_keeping v)).bind fun c _ hchar =>
        (lift_lawful (checkIndex_keeping _ _)).bind fun i _ hi => ?_
    by_cases hc : L.closed
    · have hlen := (ht hc).utf8ByteSize
      rw [Utf8.splice?_ascii [c] (ht hc) (Nat.le_succ i) (by omega)]
      refine replace_lawful o fun _ => .ofList fun d hd => ?_
      rcases List.mem_append.1 hd with hd | hd
      · rcases List.mem_append.1 hd with hd | hd
        · exact ht hc d (List.mem_of_mem_take hd)
        · cases List.mem_singleton.1 hd
          exact hchar
      · exact ht hc d (List.mem_of_mem_drop (List.mem_of_mem_drop hd))
    · split
      · exact replace_lawful o fun h => absurd h hc
      · exact hostFault_lawful hc
  | contains =>
    exact pop_lawful.bind fun _ _ _ => .get fun _ => (lift_lawful (needle_keeping _ _)).bind
      fun _ _ _ => push_lawful (.inert rfl)
  | indexOf =>
    refine pop_lawful.bind fun _ _ _ => .get fun _ => (lift_lawful (needle_keeping _ _)).bind
      fun _ _ _ => ?_
    split
    · exact push_lawful (.inert rfl)
    · exact push_lawful (.inert rfl)
  | subRange =>
    refine popInt_lawful.bind fun _ _ _ => popInt_lawful.bind fun _ _ _ =>
      (lift_lawful (checkRange_keeping _ _ _)).bind fun ij _ hij => ?_
    obtain ⟨i, j⟩ := ij
    dsimp only at hij ⊢
    by_cases hc : L.closed
    · have hlen := (ht hc).utf8ByteSize
      rw [Utf8.slice?_ascii (ht hc) hij.1 (by omega)]
      exact pushNew_lawful fun _ => .ofList fun d hd =>
        ht hc d (List.mem_of_mem_drop (List.mem_of_mem_take hd))
    · split
      · exact pushNew_lawful fun h => absurd h hc
      · exact hostFault_lawful hc
  | deconstruct =>
    refine (pushAll_lawful fun v hv => ?_).bind fun _ _ _ => push_lawful (.inert rfl)
    obtain ⟨b, hb, rfl⟩ := List.mem_map.1 hv
    exact fun hc => Utf8.lt_of_mem_bytes (ht hc) hb
  | append =>
    exact pop_lawful.bind fun _ _ hv => .get fun hm =>
      replace_lawful o (ht.append (hm.heap.display hv))
  | implements => exact popInt_lawful.bind fun _ _ _ => push_lawful (.inert rfl)
  | close | read | readLine | readChar | eof => exact .throw rfl

theorem setItems_obeys {x : Obj} {items : Array Value} (hx : x.Obeys L)
    (hi : ∀ v ∈ items, v.Obeys L) : (x.setItems items).Obeys L := by
  cases x with
  | text s => exact hx
  | array => exact hi
  | record => exact ⟨hx.1, hi⟩

theorem invokeItems_lawful (o : ObjId) {x : Obj} (hx : x.Obeys L) {items : Array Value}
    (hi : ∀ v ∈ items, v.Obeys L) (f : Function) :
    Lawful L m (invokeItems address o x items f) fun _ => True := by
  cases f with
  | size => exact push_lawful (.inert rfl)
  | hash => exact push_lawful (.inert rfl)
  | get =>
    refine popInt_lawful.bind fun _ _ _ => (lift_lawful (checkIndex_keeping _ _)).bind fun i _ _ =>
      push_lawful ?_
    cases h : items[i]? with
    | none => trivial
    | some v => exact hi v (Array.mem_of_getElem? h)
  | set =>
    refine popInt_lawful.bind fun _ _ _ => pop_lawful.bind fun v _ hv =>
      (lift_lawful (checkIndex_keeping _ _)).bind fun i _ _ =>
        replace_lawful o (setItems_obeys hx fun u hu => ?_)
    rcases Array.mem_or_eq_of_mem_setIfInBounds hu with hu | rfl
    · exact hi u hu
    · exact hv
  | contains => exact pop_lawful.bind fun _ _ _ => .get fun _ => push_lawful (.inert rfl)
  | indexOf =>
    refine pop_lawful.bind fun _ _ _ => .get fun _ => ?_
    dsimp only
    split
    · exact push_lawful (.inert rfl)
    · exact push_lawful (.inert rfl)
  | deconstruct =>
    exact (pushAll_lawful fun v hv => hi v (Array.mem_toList_iff.1 hv)).bind fun _ _ _ =>
      push_lawful (.inert rfl)
  | implements => exact popInt_lawful.bind fun _ _ _ => push_lawful (.inert rfl)
  | subRange | append | close | read | readLine | readChar | eof => exact .throw rfl

theorem invokeArray_lawful (o : ObjId) {x : Obj} (hx : x.Obeys L) {items : Array Value}
    (hi : ∀ v ∈ items, v.Obeys L) (f : Function) :
    Lawful L m (invokeArray address o x items f) fun _ => True := by
  have h : Lawful L m (invokeItems address o x items f) _ := invokeItems_lawful o hx hi f
  cases f with
  | subRange =>
    refine popInt_lawful.bind fun _ _ _ => popInt_lawful.bind fun _ _ _ =>
      (lift_lawful (checkRange_keeping _ _ _)).bind fun ij _ _ => pushNew_lawful fun v hv => ?_
    have hv : v ∈ items.toList.extract ij.1 ij.2 := by
      rw [← Array.toList_extract]
      exact Array.mem_toList_iff.2 hv
    exact hi v (Array.mem_toList_iff.1 (List.mem_of_mem_drop (List.mem_of_mem_take hv)))
  | append =>
    refine pop_lawful.bind fun v _ hv => replace_lawful o (setItems_obeys hx fun u hu => ?_)
    rcases Array.mem_push.1 hu with hu | rfl
    · exact hi u hu
    · exact hv
  | _ => exact h

theorem invoke_lawful (o : ObjId) (f : Function) : Lawful L m (invoke address o f) fun _ => True := by
  refine .get fun hm => ?_
  have hx := hm.heap.object o
  cases hc : m.heap.object o with
  | text s =>
    rw [hc] at hx
    exact invokeText_lawful o hx f
  | array items v =>
    rw [hc] at hx
    exact invokeArray_lawful o hx hx f
  | record t d items v =>
    rw [hc] at hx
    exact invokeItems_lawful o hx hx.2 f

end Store

/-- The integer on top of a stack. -/
def Stack.topInt? (s : Stack Value) : Option Int64 :=
  s.items.head?.bind fun v => v.toInt.toOption

/-- Whether a machine is about to make an array of too many values. -/
def Machine.MakesTooMany (m : Machine) : Prop :=
  ∃ t data e h n, m.data.pop = .ok (.type t, data) ∧ m.types.get? t = some e ∧
    e.sort = .object .array h ∧ data.topInt? = some n ∧ slotLimit < n.toInt.toNat

theorem M.of_pop_ok {v : Value} {m' : Machine} (h : M.pop m = .ok v m') :
    ∃ data, m.data.pop = .ok (v, data) ∧ m' = { m with data } := by
  unfold M.pop at h
  cases hd : m.data.pop with
  | error e =>
    rw [hd] at h
    cases h
  | ok vd =>
    rw [hd] at h
    cases h
    exact ⟨_, rfl, rfl⟩

theorem M.popInt_lawful_top : Lawful L m M.popInt fun n => m.data.topInt? = some n := by
  refine M.pop_lawful.bind_at fun v m₁ hp _ => M.lift_lawful ?_
  have hint : Keeping L (fun _ => True) v.toInt := Value.toInt_keeping
  obtain ⟨data, hd, -⟩ := M.of_pop_ok hp
  cases hn : v.toInt with
  | error e =>
    rw [hn] at hint
    exact hint
  | ok n =>
    show m.data.topInt? = some n
    rw [Stack.topInt?, (Stack.pop_eq_ok hd).1]
    simp [hn, Except.toOption]

namespace ObjectWord

theorem replicate_obeys (n : Nat) : ∀ v ∈ Array.replicate n (Value.int 0), v.Obeys L := by
  intro v hv
  rw [Array.eq_of_mem_replicate hv]
  trivial

theorem make_lawful (t : TypeId) {maker : Maker} (hmaker : maker.Obeys L)
    (hn : maker = .array → ∀ n, m.data.topInt? = some n → slotLimit < n.toInt.toNat → L.faults) :
    Lawful L m (make t maker) := by
  cases maker with
  | string => exact M.pushNew_lawful (x := .text "") (.of_ascii (by decide))
  | array =>
    refine M.popInt_lawful_top.bind fun n m₁ htop => .orThrow rfl fun _ => ?_
    split
    · rename_i hlt
      intro hm
      refine ⟨hm, fun _ f hf => ?_⟩
      cases hf
      exact ⟨rfl, hn rfl n htop hlt⟩
    · exact M.pushNew_lawful (x := .ofItems _) (replicate_obeys _)
  | host refuses =>
    cases refuses with
    | false => exact .get fun hm => M.pushNew_lawful (x := .text _) fun hc => absurd hc hmaker
    | true => exact .throw rfl

theorem makeObject_lawful (hn : m.MakesTooMany → L.faults) : Lawful L m makeObject := by
  refine M.pop_lawful.bind_at fun v m₁ hp _ => (M.lift_lawful Value.toType_keeping).bind_at
    fun t m₂ ht _ => .get fun hm => .orThrow rfl fun _ => ?_
  obtain ⟨data, hd, rfl⟩ := M.of_pop_ok hp
  obtain ⟨rfl, rfl⟩ : v = .type t ∧ m₂ = { m with data } := by
    cases v <;> cases ht
    exact ⟨rfl, rfl⟩
  cases he : m.types.get? t with
  | none => exact .throw rfl
  | some e =>
    have hentry := hm.types.get? he
    dsimp only
    cases hsort : e.sort with
    | value => exact .throw rfl
    | object maker h =>
      refine make_lawful t (hentry.maker maker h hsort) fun harray n htop hlt => ?_
      subst harray
      exact hn ⟨t, data, e, h, n, hd, he, hsort, htop, hlt⟩
    | user d h =>
      refine M.pushNew_lawful (x := .ofDeclaration t d) ⟨hentry.declaration d h hsort, ?_⟩
      exact replicate_obeys _

theorem call_lawful (f : Function) : Lawful L m (call f) :=
  M.pop_lawful.bind fun _ _ _ => (M.lift_lawful Value.toObject_keeping).bind fun _ _ _ => .get fun _ =>
    .ite (Store.invoke_lawful _ f) (.throw rfl)

theorem nextFields_lawful : ∀ (n : Nat) {m : Machine},
    Lawful L m (nextFields n) fun r => ∀ fs, r = some fs → ∀ s ∈ fs, L.Text s
  | 0, _ => .pure nofun
  | n + 1, _ => by
    refine M.nextToken_lawful.bind fun t? _ ht => ?_
    split
    · exact .pure nofun
    · refine .pure fun fs hfs => ?_
      cases hfs
      exact nofun
    · rename_i field _
      refine (nextFields_lawful n).bind fun r _ hr => .pure fun fs hfs => ?_
      obtain ⟨rest, rfl, rfl⟩ := Option.map_eq_some_iff.1 hfs
      intro s hs
      rcases List.mem_cons.1 hs with rfl | hs
      · exact ht _ rfl
      · exact hr rest rfl s hs

theorem defineFields_lawful {name : String} (hname : L.Text name) : ∀ (i : Nat) {fields : List String}
    {m : Machine}, (∀ f ∈ fields, L.Text f) → Lawful L m (defineFields name i fields)
  | _, [], _, _ => .done
  | i, f :: _, _, h =>
    (M.defineConstant_lawful ((hname.append (.of_ascii (by decide))).append
      (h f List.mem_cons_self)) (.inert rfl)).bind fun _ _ _ =>
        defineFields_lawful hname (i + 1) fun g hg => h g (List.mem_cons_of_mem _ hg)

theorem checkFree_keeping (t : Types) (name : String) (used room : Nat) :
    Keeping L (fun _ => True) (t.checkFree name used room) := by
  unfold Types.checkFree
  split
  · exact .error rfl
  · split
    · trivial
    · exact .error rfl

theorem addUser_obeys {t : Types} (ht : t.Obeys L) {d : Declaration} (hd : d.Obeys L) :
    Keeping L (fun _ => True) (t.addUser d).1 ∧ (t.addUser d).2.Obeys L := by
  have hfree : Keeping L (fun _ => True) (t.checkFree d.name t.users.size TypeId.userRoom) :=
    checkFree_keeping _ _ _ _
  unfold Types.addUser
  split
  · rename_i e he
    rw [he] at hfree
    exact ⟨hfree, ht⟩
  · refine ⟨trivial, fun e he => ?_⟩
    rcases he with he | he | he
    · exact ht e (.inl he)
    · exact ht e (.inr (.inl he))
    · rcases Array.mem_push.1 he with he | rfl
      · exact ht e (.inr (.inr he))
      · refine ⟨hd.name.foldCase, nofun, fun d' h hs => ?_, nofun⟩
        cases hs
        exact hd

/-- The registry with the entry of a base type replaced. -/
theorem setEntry_obeys {t : Types} (ht : t.Obeys L) (id : TypeId) {e : TypeEntry} (he : e.Obeys L) :
    (t.setEntry id e).Obeys L := by
  have hset : ∀ {es : Array TypeEntry} {i : Nat}, (∀ x ∈ es, x.Obeys L) →
      ∀ x ∈ es.setIfInBounds i e, x.Obeys L := by
    intro es i hes x hx
    rcases Array.mem_or_eq_of_mem_setIfInBounds hx with hx | rfl
    · exact hes x hx
    · exact he
  have hvalues : ∀ x ∈ t.values, x.Obeys L := fun x hx => ht x (.inl hx)
  have hobjects : ∀ x ∈ t.objects, x.Obeys L := fun x hx => ht x (.inr (.inl hx))
  have husers : ∀ x ∈ t.users, x.Obeys L := fun x hx => ht x (.inr (.inr hx))
  intro x hx
  unfold Types.setEntry at hx
  dsimp only at hx
  split at hx
  · rcases hx with hx | hx | hx
    · exact hset hvalues x hx
    · exact hobjects x hx
    · exact husers x hx
  · split at hx
    · rcases hx with hx | hx | hx
      · exact hvalues x hx
      · exact hset hobjects x hx
      · exact husers x hx
    · rcases hx with hx | hx | hx
      · exact hvalues x hx
      · exact hobjects x hx
      · exact hset husers x hx

theorem setHandler_obeys {t : Types} (ht : t.Obeys L) (id : TypeId) {h : Handler} (hh : h.Obeys L) :
    Keeping L (fun _ => True) (t.setHandler id h).1 ∧ (t.setHandler id h).2.Obeys L := by
  unfold Types.setHandler
  cases he : t.get? id with
  | none => exact ⟨.error rfl, ht⟩
  | some e =>
    have hentry := ht.get? he
    dsimp only
    unfold TypeEntry.setHandler
    cases hsort : e.sort with
    | value => exact ⟨.error rfl, ht⟩
    | object maker h' =>
      refine ⟨trivial, setEntry_obeys ht id ⟨hentry.name, fun mk g hs => ?_, nofun, fun g hg => ?_⟩⟩
      · cases hs
        exact hentry.maker maker h' hsort
      · cases hg
        exact hh
    | user d h' =>
      refine ⟨trivial, setEntry_obeys ht id ⟨hentry.name, nofun, fun d' g hs => ?_, fun g hg => ?_⟩⟩
      · cases hs
        exact hentry.declaration d h' hsort
      · cases hg
        exact hh

theorem declare_lawful : Lawful L m declare := by
  refine (M.nextName_lawful _).bind fun name _ hname => .get fun _ => (nextFields_lawful _).bind
    fun fields _ hfields => ?_
  cases fields with
  | none => exact .throw rfl
  | some fields =>
    exact (M.onTypes_lawful fun ht => addUser_obeys ht ⟨hname, hfields fields rfl⟩).bind fun _ _ _ =>
      (M.defineConstant_lawful hname (.inert rfl)).bind fun _ _ _ =>
        defineFields_lawful hname _ (hfields fields rfl)

theorem run_lawful (w : ObjectWord) (hn : w = .new → m.MakesTooMany → L.faults) :
    Lawful L m w.run := by
  cases w with
  | new => exact makeObject_lawful (hn rfl)
  | typeOf => exact M.pop_lawful.bind fun _ _ _ => .get fun _ => M.push_lawful (.inert rfl)
  | invoke f => exact call_lawful f
  | struct => exact declare_lawful
  | setHandler =>
    exact M.pop_lawful.bind fun _ _ _ => (M.lift_lawful Value.toType_keeping).bind fun t _ _ =>
      M.popWord_lawful.bind fun w _ hw => M.onTypes_lawful fun ht =>
        setHandler_obeys ht t (h := .word w) hw
  | refcount => exact (M.peek_lawful 0).bind fun _ _ _ => .get fun _ => M.push_lawful (.inert rfl)

end ObjectWord

/-! ## State and host -/

theorem StateWord.popCell_lawful : Lawful L m popCell :=
  M.popInt_lawful.bind fun _ _ _ =>
    M.lift_lawful ((checkIndex_keeping _ _).weaken fun _ _ => trivial)

theorem StateWord.run_lawful (w : StateWord) : Lawful L m w.run := by
  cases w with
  | loadCell => exact popCell_lawful.bind fun _ _ _ => .get fun _ => M.push_lawful (.inert rfl)
  | storeCell =>
    exact popCell_lawful.bind fun _ _ _ => M.popInt_lawful.bind fun _ _ _ =>
      .modify fun hm => { hm with bounded := { hm.bounded with } }
  | loadFlag => exact popCell_lawful.bind fun _ _ _ => .get fun _ => M.push_lawful (.inert rfl)
  | storeFlag =>
    exact popCell_lawful.bind fun _ _ _ => M.popFlag_lawful.bind fun _ _ _ =>
      .modify fun hm => { hm with bounded := { hm.bounded with } }
  | debugLevel =>
    refine M.popInt_lawful.bind fun _ _ _ => ?_
    split
    · exact .modify fun hm => { hm with bounded := { hm.bounded with } }
    · exact .throw rfl

/-- The words of a host, which a closed machine does not have. -/
theorem HostWord.run_lawful (w : HostWord) (hopen : ¬ L.closed) :
    Lawful L m w.run (Flow.Obeys L) := by
  have hfault : ∀ {m : Machine} (f : NativeFault),
      Lawful L m (throw (.nativeFault f) : M Flow) (Flow.Obeys L) :=
    fun f hm => ⟨hm, fun hc => absurd hc hopen⟩
  cases w with
  | log =>
    exact M.pop_lawful.bind fun _ _ _ =>
      (Lawful.modify fun hm => { hm with bounded := { hm.bounded with } }).next
  | bump =>
    exact (Lawful.modify fun hm => { hm with bounded := { hm.bounded with } }).bind fun _ _ _ =>
      .get fun _ => (M.push_lawful (.inert rfl)).next
  | boom => exact hfault _
  | boomAny => exact hfault _
  | boomText => exact M.popInt_lawful.bind fun _ _ _ => hfault _
  | nested => exact M.popWord_lawful.bind fun _ _ hw => .pure ⟨hw, trivial⟩
  | attempt => exact M.popWord_lawful.bind fun _ _ hw => .pure ⟨hw, hopen⟩
  | exit => exact .pure trivial
  | call => exact M.popWord_lawful.bind fun _ _ hw => .pure hw
  | interrupt => exact (Lawful.modify fun hm => { hm with bounded := { hm.bounded with } }).next

end ThreadedForth
