/-
  The records of a session, and the declarations of their types.
-/
import ThreadedForth.Proofs.Addresses
import ThreadedForth.Proofs.Capacities
import ThreadedForth.Proofs.FrozenCode
import ThreadedForth.Proofs.ReferenceCounts
import ThreadedForth.Proofs.Sequences
import ThreadedForth.Proofs.StructDefinitions

namespace ThreadedForth

variable {L : Edit → Prop} {m m' : Machine} {hand hand' : List Value} {t : TypeId}
  {d : Declaration} {o : ObjId}

/-! ## Declared types -/

namespace Types

variable {ts ts' : Types}

/-- A type is declared once. -/
theorem Declares.unique {d' : Declaration} (h : ts.Declares t d) (h' : ts.Declares t d') :
    d = d' := by
  obtain ⟨name, handler, h⟩ := h
  obtain ⟨name', handler', h'⟩ := h'
  cases h.symm.trans h'
  rfl

theorem Registers.declares {name : String} (h : ts.Registers .user name (.user d none) t ts') :
    ts'.Declares t d :=
  ⟨foldCase name, none, (h.get?_eq t).trans (if_pos rfl)⟩

theorem Allows.mono {x : Obj} (h : ts.Allows x) (hd : ∀ t d, ts.Declares t d → ts'.Declares t d) :
    ts'.Allows x :=
  fun t d n hx => ⟨hd t d (h t d n hx).1, (h t d n hx).2⟩

theorem Allows.of_record? {x y : Obj} (h : ts.Allows x) (hxy : y.record? = x.record?) :
    ts.Allows y :=
  fun t d n hy => h t d n (hxy ▸ hy)

end Types

/-! ## Records stay -/

/-- An object keeps its shape, or it is new. -/
theorem Move.object (hm : Move L m hand m' hand') (o : ObjId) :
    (m'.heap.object o).record? = (m.heap.object o).record? ∨
      (m.heap.object o).record? = none ∧ m.types.Allows (m'.heap.object o) := by
  cases hm with
  | other h => exact .inl (by rw [show m'.heap = m.heap from congrArg Owned.heap h])
  | newObject h ht =>
    dsimp only
    rw [Heap.object_addObject]
    split
    · rename_i ho
      subst ho
      have hnew : m.heap.objects[m.heap.objects.size]? = none :=
        Array.getElem?_eq_none (Nat.le_refl _)
      exact .inr ⟨congrArg (fun x? => (Option.getD x? default).record?) hnew, ht⟩
    · exact .inl rfl
  | setObject ho h hr =>
    dsimp only
    rw [Heap.object_setObject]
    split
    · rename_i ho
      exact .inl (ho.1 ▸ hr)
    · exact .inl rfl
  | _ => exact .inl rfl

theorem Move.declares (hm : Move L m hand m' hand') (h : m.types.Declares t d) :
    m'.types.Declares t d := by
  cases hm with
  | other hs => rwa [show m'.types = m.types from congrArg Owned.types hs]
  | types _ _ hd => exact hd t d h
  | _ => exact h

namespace Machine

/-- What is declared stays declared, and records keep their shape. -/
structure KeepsRecords (m m' : Machine) : Prop where
  declares : ∀ {t d}, m.types.Declares t d → m'.types.Declares t d
  record? : ∀ {o r}, (m.heap.object o).record? = some r → (m'.heap.object o).record? = some r

theorem KeepsRecords.refl (m : Machine) : m.KeepsRecords m :=
  ⟨id, id⟩

theorem KeepsRecords.trans {m₁ : Machine} (h : m.KeepsRecords m₁) (h' : m₁.KeepsRecords m') :
    m.KeepsRecords m' :=
  ⟨fun hd => h'.declares (h.declares hd), fun hr => h'.record? (h.record? hr)⟩

/-- All records have the fields of the declarations of their types. -/
def RecordsDeclared (m : Machine) : Prop :=
  ∀ o, m.types.Allows (m.heap.object o)

end Machine

open Machine

theorem Move.keepsRecords (hm : Move L m hand m' hand') : m.KeepsRecords m' where
  declares := hm.declares
  record? {o r} hr := by
    rcases hm.object o with h | ⟨h, -⟩
    · rw [h, hr]
    · rw [h] at hr
      cases hr

theorem Moves.keepsRecords (hm : Moves L m hand m' hand') : m.KeepsRecords m' := by
  induction hm with
  | refl => exact .refl _
  | tail _ ht ih => exact ih.trans ht.keepsRecords

theorem Machine.RecordsDeclared.moves (h : m.RecordsDeclared) (hm : Moves L m hand m' hand') :
    m'.RecordsDeclared := by
  induction hm with
  | refl => exact h
  | tail _ ht ih =>
    intro o
    refine Types.Allows.mono ?_ fun _ _ => ht.declares
    rcases ht.object o with hr | ⟨-, ha⟩
    · exact (ih o).of_record? hr
    · exact ha

namespace Machine

variable {ph ph' : Phase}

theorem Leads.keepsRecords (hl : Leads ph m ph' m') : m.KeepsRecords m' := by
  induction hl with
  | refl => exact .refl _
  | tail _ hn ih =>
    obtain ⟨hand, hm⟩ := hn.moves
    exact ih.trans hm.keepsRecords

theorem Reached.recordsDeclared (h : Reached ph m) : m.RecordsDeclared := by
  refine h.invariant (P := fun _ m => m.RecordsDeclared) (fun p bs => ?_) fun _ ha hn => ?_
  · have hm : Moves (fun _ => False) (empty p) [] (Machine.create p bs) [] := create_moves p bs
    refine RecordsDeclared.moves (fun o => ?_) hm
    rintro t d n hr
    cases hr
  · obtain ⟨hand, hm⟩ := hn.moves
    exact ha.moves hm

/-- The data stack does not hold more than it has room for. -/
theorem Reached.fits (h : Reached ph m) : m.data.Fits := by
  have hb : ∃ p, m.Bounded p := h.invariant (P := fun _ m => ∃ p, m.Bounded p)
    (fun p bs => ⟨p, (Hosted.create bs).bounded⟩) fun _ ⟨p, hb⟩ hn => ⟨p, hb.next hn⟩
  obtain ⟨p, hb⟩ := hb
  exact hb.data.fits

end Machine

/-! ## Fields -/

theorem Obj.record?_eq_some {x : Obj} {n : Nat} (h : x.record? = some (t, d, n)) :
    ∃ items b, x = .record t d items b ∧ items.size = n := by
  cases x with
  | record t' d' items b =>
    cases h
    exact ⟨items, b, rfl, rfl⟩
  | _ => cases h

namespace Heap

/-- The value of a field of an object. -/
def field? (h : Heap) (o : ObjId) (i : Nat) : Option Value :=
  (h.object o).items[i]?

/-- An object has so many fields, and they are what is read from it. -/
structure HasFields (h : Heap) (o : ObjId) (k : Nat) : Prop where
  isSome_iff : ∀ i, (h.field? o i).isSome ↔ i < k
  size : ∀ (m : Machine) rest, m.heap = h → m.data.Fits → m.data.items = .obj o :: rest →
    ObjectWord.run (.invoke .size) m = .ok () (m.withItems (.nat k :: rest))
  get : ∀ (m : Machine) u (n : Int64) (i : Nat) v rest, m.heap = h → m.data.Fits →
    m.data.items = .obj o :: u :: rest → u.toInt = .ok n → n.toInt = i → h.field? o i = some v →
    ObjectWord.run (.invoke .get) m = .ok () (m.withItems (v :: rest))

/-- Setting one of the fields of an object changes this field and nothing else. -/
def SetsFields (h : Heap) (o : ObjId) (k : Nat) : Prop :=
  ∀ (m : Machine) u (n : Int64) (i : Nat) v rest, m.heap = h →
    m.data.items = .obj o :: u :: v :: rest → u.toInt = .ok n → n.toInt = i → i < k →
    ∃ h' : Heap, ObjectWord.run (.invoke .set) m = .ok () { m.withItems rest with heap := h' } ∧
      h'.HasFields o k ∧ (∀ j, h'.field? o j = if j = i then some v else h.field? o j) ∧
      (∀ a, a ≠ o → h'.object a = h.object a) ∧ h'.words = h.words

variable {h : Heap} {items : Array Value} {b : Bool} {f : Function} {rest : List Value}

theorem objects_of_record (ho : h.object o = .record t d items b) :
    h.objects[o.index]? = some (.record t d items b) := by
  cases hx : h.objects[o.index]? with
  | none =>
    rw [object, hx] at ho
    cases ho
  | some x =>
    rw [object, hx, Option.getD_some] at ho
    rw [ho]

/-- A function of a record is one of the functions on values. -/
theorem call_record (ho : m.heap.object o = .record t d items b)
    (hd : m.data.items = .obj o :: rest) (hf : (Obj.record t d items b).implements f = true) :
    ObjectWord.run (.invoke f) m =
      M.onStore (Store.invokeItems (m.addresses o) o (.record t d items b) items f) (m.withItems rest) := by
  have hinvoke : M.onStore (Store.invoke (m.addresses o) o f) (m.withItems rest) =
      M.onStore (Store.invokeItems (m.addresses o) o (.record t d items b) items f) (m.withItems rest) := by
    have hstore : Store.invoke (m.addresses o) o f ⟨m.heap, (m.withItems rest).data⟩ =
        Store.invokeItems (m.addresses o) o (.record t d items b) items f
          ⟨m.heap, (m.withItems rest).data⟩ :=
      Store.invoke_eq (objects_of_record ho)
    unfold M.onStore
    rw [show (m.withItems rest).heap = m.heap from rfl, hstore]
  have hobject : M.lift (Value.obj o).toObject (m.withItems rest) = .ok o (m.withItems rest) := rfl
  rw [ObjectWord.run, ObjectWord.call, M.bind_ok (pop_of_items hd)]
  refine (M.bind_ok hobject).trans ?_
  show (if (m.heap.object o).implements f then M.onStore (Store.invoke (m.addresses o) o f) else throw _)
    (m.withItems rest) = _
  rw [ho, if_pos hf, hinvoke]

theorem onStore_ok {act : StoreM Unit} {s : Store} (h : act ⟨m.heap, m.data⟩ = .ok () s) :
    M.onStore act m = .ok () { m with heap := s.heap, data := s.data } := by
  simp only [M.onStore, h]

theorem checkIndex_of_lt {n : Int64} {i k : Nat} (hn : n.toInt = i) (hi : i < k) :
    checkIndex n k = .ok i := by
  rw [checkIndex, if_pos (by omega), hn, Int.toNat_natCast]

theorem hasFields_of_record (ho : h.object o = .record t d items b) : h.HasFields o items.size := by
  have hfield : ∀ i, h.field? o i = items[i]? := fun i => by rw [field?, ho, Obj.items]
  refine ⟨fun i => ?_, ?_, ?_⟩
  · rw [hfield, isSome_getElem?]
  · rintro m rest rfl hfits hd
    have hroom : rest.length < m.data.capacity := room_of_items hd hfits
    have hsize : Store.invokeItems (m.addresses o) o (.record t d items b) items .size
        ⟨m.heap, (m.withItems rest).data⟩ =
          .ok () ⟨m.heap, (m.withItems (.nat items.size :: rest)).data⟩ :=
      Store.push_of_lt _ hroom
    rw [call_record ho hd rfl]
    exact onStore_ok (m := m.withItems rest) hsize
  · rintro m u n i v rest rfl hfits hd hu hn hv
    have hroom : rest.length < m.data.capacity := Nat.lt_of_succ_lt (room_of_items hd hfits)
    rw [hfield] at hv
    obtain ⟨hi, -⟩ := Array.getElem?_eq_some_iff.1 hv
    have hget : Store.invokeItems (m.addresses o) o (.record t d items b) items .get
        ⟨m.heap, (m.withItems (u :: rest)).data⟩ =
          .ok () ⟨m.heap, (m.withItems (v :: rest)).data⟩ := by
      have hu' : (m.withItems (u :: rest)).data.items = u :: rest := rfl
      refine (Store.popInt_bind hu' hu).trans ((Store.lift_bind (checkIndex_of_lt hn hi)).trans ?_)
      rw [hv, Option.getD_some]
      exact Store.push_of_lt v hroom
    rw [call_record ho hd rfl]
    exact onStore_ok (m := m.withItems (u :: rest)) hget

theorem setsFields_of_record (ho : h.object o = .record t d items b) :
    h.SetsFields o items.size := by
  rintro m u n i v rest rfl hd hu hn hi
  rw [call_record ho hd rfl]
  have hset : Store.invokeItems (m.addresses o) o (.record t d items b) items .set
      ⟨m.heap, (m.withItems (u :: v :: rest)).data⟩ =
        .ok () ⟨m.heap.setObject o (.record t d (items.setIfInBounds i v) b),
          (m.withItems rest).data⟩ := by
    have hu' : (m.withItems (u :: v :: rest)).data.items = u :: v :: rest := rfl
    have hv' : (m.withItems (v :: rest)).data.items = v :: rest := rfl
    refine (Store.popInt_bind hu' hu).trans ?_
    refine (Store.pop_bind hv').trans ?_
    exact Store.lift_bind (checkIndex_of_lt hn hi)
  obtain ⟨hin, -⟩ := Array.getElem?_eq_some_iff.1 (objects_of_record ho)
  have ho' : (m.heap.setObject o (.record t d (items.setIfInBounds i v) b)).object o =
      .record t d (items.setIfInBounds i v) b := by
    rw [object_setObject, if_pos ⟨rfl, hin⟩]
  refine ⟨_, onStore_ok (m := m.withItems (u :: v :: rest)) hset, ?_, fun j => ?_,
    fun a ha => ?_, rfl⟩
  · have := hasFields_of_record ho'
    rwa [Array.size_setIfInBounds] at this
  · rw [field?, field?, ho', ho, Obj.items, Obj.items, Array.getElem?_setIfInBounds]
    grind
  · rw [object_setObject, if_neg fun hc => ha hc.1]

/-- An object has so many fields, which can be set. -/
def KeepsFields (h : Heap) (o : ObjId) (k : Nat) : Prop :=
  h.HasFields o k ∧ h.SetsFields o k

theorem keepsFields_of_record? {k : Nat} (hr : (h.object o).record? = some (t, d, k)) :
    h.KeepsFields o k := by
  obtain ⟨items, b, ho, rfl⟩ := Obj.record?_eq_some hr
  exact ⟨hasFields_of_record ho, setsFields_of_record ho⟩

end Heap

/-! ## Structs -/

namespace Machine

variable {rest : List Value} {ph : Phase} {left? : Option Nat} {z : Machine}

/-- What the definition of a struct changes: there is one type more, and a constant for it and for
    each of its fields. -/
structure DefinesStruct (m : Machine) (d : Declaration) (t : TypeId) (m' : Machine) : Prop where
  registers : m.types.Registers .user d.name (.user d none) t m'.types
  typeWord : (d.fields.map foldCase).Nodup → m'.HasConstant d.name (.type t)
  fieldWord : (d.fields.map foldCase).Nodup → ∀ i field, d.fields[i]? = some field →
    m'.HasConstant (d.fieldName field) (.nat i)
  /-- No other name is bound anew, and no word changes. -/
  lookup? : ∀ n : Name, n ≠ .ofString d.name →
    (∀ field ∈ d.fields, n ≠ .ofString (d.fieldName field)) →
    m'.dictionary.lookup? n = m.dictionary.lookup? n
  word : ∀ w, m.heap.Has (.word w) → m'.heap.word w = m.heap.word w
  compiler : m'.compiler =
    { m.compiler with last? := some ⟨m.heap.words.size + d.fields.length⟩ }
  others : m' = { m with
    line := m'.line
    types := m'.types
    heap := { m.heap with words := m'.heap.words }
    dictionary := m'.dictionary
    compiler := m'.compiler }

theorem definesStruct_withConstants {types : Types} (l : Line)
    (h : m.types.Registers .user d.name (.user d none) t types) :
    m.DefinesStruct d t (({ m with line := l, types }).withConstants (d.constants t)) := by
  generalize hm₀ : ({ m with line := l, types } : Machine) = m₀
  have hc := compiler_withConstants m₀ (d.name, .type t)
    (d.fields.mapIdx fun i field => (d.fieldName field, .nat i))
  rw [List.length_mapIdx] at hc
  have heq := withConstants_eq m₀ (d.constants t)
  have hconstant : (d.fields.map foldCase).Nodup → ∀ (i : Nat) (name : String) (v : Value),
      (d.constants t)[i]? = some (name, v) →
        (m₀.withConstants (d.constants t)).HasConstant name v :=
    fun hd _ _ _ hi => hasConstant_of_word (lookup?_withConstants (d.nodup_constants hd t) hi)
      (word_withConstants hi)
  refine ⟨?_, fun hd => ?_, fun hd i field hi => ?_, fun n hn hfields => ?_, fun w hw => ?_, ?_, ?_⟩
  · rw [congrArg Machine.types heq]
    subst hm₀
    exact h
  · exact hconstant hd _ _ _ (d.constants_zero t)
  · exact hconstant hd _ _ _ (Declaration.constants_succ hi t)
  · have hmem : n ∉ (d.constants t).map fun c => Name.ofString c.1 := by
      rw [d.names_constants, List.mem_cons, List.mem_map, not_or]
      exact ⟨hn, fun ⟨field, hf, he⟩ => hfields field hf he.symm⟩
    rw [lookup?_withConstants_of_not_mem hmem]
    subst hm₀
    rfl
  · rw [word_withConstants_of_has (by subst hm₀; exact hw)]
    subst hm₀
    rfl
  · rw [Declaration.constants, hc]
    subst hm₀
    rfl
  · rw [heq]
    subst hm₀
    rfl

theorem step_of_object {w : ObjectWord} (hp : m.primitive? = some (.object w))
    (hr : w.run m = .ok () m') : m.step = .running m'.popFrame := by
  have hrun : (Primitive.object w).run m = .ok .next m' := by
    rw [Primitive.run, thenNext, M.bind_ok hr]
    rfl
  rw [step_of_primitive hp, hrun]
  rfl

/-- What `new` makes of a declared type. -/
theorem run_new (hd : m.data.items = .type t :: rest) (hfits : m.data.Fits)
    (ht : t.isPointer = false) (hdec : m.types.Declares t d) :
    ObjectWord.run .new m = .ok () (({ m with
      heap := (m.heap.addObject (.ofDeclaration t d)).2 }).withItems
        (.obj (m.heap.addObject (.ofDeclaration t d)).1 :: rest)) := by
  obtain ⟨name, handler, he⟩ := hdec
  have htype : M.lift (Value.type t).toType (m.withItems rest) = .ok t (m.withItems rest) := rfl
  have hget : (MonadState.get : M Machine) (m.withItems rest) =
      .ok (m.withItems rest) (m.withItems rest) := rfl
  have hmake : ObjectWord.makeObject m = M.pushNew (.ofDeclaration t d) (m.withItems rest) := by
    rw [ObjectWord.makeObject, M.bind_ok (pop_of_items hd)]
    refine (M.bind_ok htype).trans ((M.bind_ok hget).trans ?_)
    simp only [ht, Bool.false_eq_true, if_false, show (m.withItems rest).types = m.types from rfl, he]
  exact hmake.trans (push_withItems
    (m := { m with heap := (m.heap.addObject (.ofDeclaration t d)).2 }) _ (room_of_items hd hfits))

/-- What holds of a struct that has been defined. -/
structure KeepsStruct (ph : Phase) (z : Machine) (d : Declaration) (t : TypeId) : Prop where
  declares : z.types.Declares t d
  /-- Every object of the type has the fields of the struct. -/
  objects : ∀ o, (z.heap.object o).type = t → z.heap.KeepsFields o d.fields.length
  /-- `new` makes another object of the type, which has its fields from then on. -/
  new : ∀ left? rest, ph = .word left? → z.primitive? = some (.object .new) →
    z.data.items = .type t :: rest → ∃ o z', z.step = .running z' ∧ z'.data.items = .obj o :: rest ∧
      ¬z.heap.Has (.object o) ∧ z'.heap.object o = .ofDeclaration t d ∧
      ∀ ph y, Leads (.word left?) z' ph y → y.heap.KeepsFields o d.fields.length

theorem keepsStruct (hr : Reached ph z) (hdec : z.types.Declares t d) (ht : t.isPointer = false)
    (hu : Types.rangeOf t = .user) : z.KeepsStruct ph d t where
  declares := hdec
  objects o ho := by
    have ha := hr.recordsDeclared o
    cases hx : z.heap.object o with
    | text s =>
      rw [hx] at ho
      exact absurd (show Types.rangeOf .string = .user from
        (congrArg Types.rangeOf ho).trans hu) (by decide)
    | array items b =>
      rw [hx] at ho
      exact absurd (show Types.rangeOf .array = .user from
        (congrArg Types.rangeOf ho).trans hu) (by decide)
    | record t' d' items b =>
      rw [hx] at ho ha
      obtain rfl : t' = t := ho
      obtain ⟨hdec', hn⟩ := ha t' d' items.size rfl
      obtain rfl := hdec'.unique hdec
      rw [← hn]
      exact Heap.keepsFields_of_record? (by rw [hx]; rfl)
  new left? rest hph hp hd := by
    subst hph
    have hnew := run_new hd hr.fits ht hdec
    have hobject : ((z.heap.addObject (.ofDeclaration t d)).2).object
        (z.heap.addObject (.ofDeclaration t d)).1 = .ofDeclaration t d := by
      rw [Heap.object_addObject, if_pos rfl]
    refine ⟨_, _, step_of_object hp hnew, rfl, Nat.lt_irrefl _, hobject, fun ph y hl => ?_⟩
    refine Heap.keepsFields_of_record? (t := t) (d := d) (hl.keepsRecords.record? ?_)
    refine (congrArg Obj.record? hobject).trans ?_
    rw [Obj.ofDeclaration, Obj.record?, Array.size_replicate]

end Machine

open Machine

/-- **Structs.**  `struct:` either changes nothing but what has been read of the line, for one of
    four reasons, or registers one type and binds one constant for it and one for each of its
    fields, if these differ.  From then on, every object of the type has exactly the fields of the
    struct: getting one of them after it has been set gives the value that was stored, and all the
    others keep their values. -/
theorem struct_definitions :
    (∀ m : Machine,
      (∃ ts e l, m.line.Yields ts ∧ m.RefusesStruct ts e ∧
        ObjectWord.run .struct m = .error e (m.atLine l)) ∨
      ∃ d rest t m', m.line.Yields (d.name :: (d.fields ++ fieldsEnd :: rest)) ∧
        fieldsEnd ∉ d.fields ∧ m'.line.Yields rest ∧ ObjectWord.run .struct m = .ok () m' ∧
        m.DefinesStruct d t m') ∧
    ∀ left? m d t m', Reached (.word left?) m → m.primitive? = some (.object .struct) →
      ObjectWord.run .struct m = .ok () m' → m.DefinesStruct d t m' →
      m.step = .running m'.popFrame ∧
        ∀ ph z, Leads (.word left?) m'.popFrame ph z → z.KeepsStruct ph d t := by
  refine ⟨fun m => ?_, fun left? m d t m' hm hp hr hs => ?_⟩
  · obtain ⟨ts, hts⟩ := m.line.exists_yields
    rcases ObjectWord.declare_outcome hts with ⟨e, l, he, hr⟩ |
      ⟨d, rest, t, types, l, rfl, hend, hrest, hreg, hr⟩
    · exact .inl ⟨ts, e, l, hts, he, hr⟩
    · refine .inr ⟨d, rest, t, _, hts, hend, ?_, hr, definesStruct_withConstants l hreg⟩
      rw [congrArg Machine.line (withConstants_eq _ _)]
      exact hrest
  · have hstep := step_of_object hp hr
    refine ⟨hstep, fun ph z hl => ?_⟩
    have hdec : m'.types.Declares t d := hs.registers.declares
    refine keepsStruct ((hm.step hstep).leads hl) (hl.keepsRecords.declares hdec) ?_ ?_
    · rw [hs.registers.id_eq]
      rfl
    · rw [hs.registers.id_eq]
      exact Types.rangeOf_place hs.registers.room

/-- A machine that is about to define a struct with two fields. -/
def Machine.declaring : Machine :=
  (after (fill "p x y ;struct" (ofNames {} ["struct:", "new"]))).startRun ⟨1⟩ .outside

theorem Machine.ofNames_declaring : ofNames {} ["struct:", "new"] = stocked {} (supply
    [⟨"new", .object .new, false⟩, ⟨"struct:", .object .struct, false⟩]) :=
  ofNames_eq _ _ (by decide) (by decide)

/-- The machine that has defined it. -/
def Machine.declared : Machine :=
  after (ObjectWord.run .struct declaring)

/-- An object is made of the struct on the next line. -/
theorem struct_definitions_of_point :
    ∃ (m m' : Machine) (t : TypeId), Reached (.word none) m ∧
      ObjectWord.run .struct m = .ok () m' ∧ m.DefinesStruct ⟨"p", ["x", "y"]⟩ t m' ∧
      m'.HasConstant "p.y" (.nat 1) ∧ ∃ z o, Leads (.word none) m'.popFrame .rest z ∧
        z.data.items = [.obj o] ∧ z.heap.KeepsFields o 2 := by
  obtain ⟨hdefine, hkeep⟩ := struct_definitions
  have hbefore : (after (fill "p x y ;struct" (ofNames {} ["struct:", "new"]))).find? "struct:" =
        some ⟨1⟩ ∧ declaring.primitive? = some (.object .struct) ∧
      declaring.line.Yields ["p", "x", "y", ";struct"] ∧ declaring.types.users.size = 0 := by
    rw [declaring, ofNames_declaring]
    decide +kernel
  have hafter : declared.types.users.size = 1 ∧ (declared.popFrame.frames = [] ∧
        declared.popFrame.runs = [⟨0, .outside⟩]) ∧
      (processLine 64 (after (fill "p new" { declared.popFrame with runs := [] }))).isSome = true ∧
      (afterLine "p new" { declared.popFrame with runs := [] }).data.items = [.obj ⟨0⟩] ∧
      ((afterLine "p new" { declared.popFrame with runs := [] }).heap.object ⟨0⟩).type =
        Types.place TypeId.userMin 0 := by
    rw [declared, declaring, ofNames_declaring]
    decide +kernel
  obtain ⟨hw, hp, hl, husers⟩ := hbefore
  obtain ⟨husers', ⟨hframes, hruns⟩, hline, hitems, htype⟩ := hafter
  have hreached : Reached (.word none) declaring := ((Reached.create _ _).fill _).run hw
  have hdeclared : declared = after (ObjectWord.run .struct declaring) := rfl
  generalize declaring = m at *
  generalize declared = m' at *
  rcases hdefine m with ⟨ts, e, l, -, -, hr⟩ | ⟨d, rest, t, m₁, hy, -, -, hr, hs⟩
  · -- a type has been registered
    rw [hr] at hdeclared
    rw [hdeclared] at husers'
    cases husers'.symm.trans husers
  rw [hr] at hdeclared
  obtain rfl : m' = m₁ := hdeclared
  have hd : d = ⟨"p", ["x", "y"]⟩ := by
    have htokens := hl.unique hy
    rcases d with ⟨name, _ | ⟨a, _ | ⟨b, _ | ⟨c, fields⟩⟩⟩⟩ <;> simp_all [fieldsEnd]
  subst hd
  have hid : t = Types.place TypeId.userMin 0 := by
    rw [hs.registers.id_eq]
    exact congrArg (Types.place TypeId.userMin) husers
  have hlater : Leads (.word none) m'.popFrame .rest
      (afterLine "p new" { m'.popFrame with runs := [] }) := by
    have hstep : m'.popFrame.step = .ended { m'.popFrame with runs := [] } :=
      step_of_back hruns (Nat.le_of_eq (congrArg List.length hframes))
    have hrest : Leads (.word none) m'.popFrame .rest { m'.popFrame with runs := [] } :=
      (Leads.refl _ _).tail (.ended hstep)
    obtain ⟨r, hline⟩ := Option.isSome_iff_exists.1 hline
    rw [afterLine, hline]
    exact (hrest.tail (.fill _)).processLine hline
  exact ⟨m, m', t, hreached, hr, hs, hs.fieldWord (by decide) 1 "y" rfl, _, ⟨0⟩, hlater, hitems,
    ((hkeep none m _ t m' hreached hp hr hs).2 _ _ hlater).objects ⟨0⟩ (htype.trans hid.symm)⟩

end ThreadedForth
