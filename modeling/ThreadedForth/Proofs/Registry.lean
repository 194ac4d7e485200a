/-
  The registry of types, after any requests.
-/
import ThreadedForth.Types

namespace ThreadedForth

namespace TypeEntry

/-- The type as it was registered: all but the handler. -/
def withoutHandler (e : TypeEntry) : TypeEntry :=
  match e.sort with
  | .value => e
  | .object maker _ => { e with sort := .object maker none }
  | .user d _ => { e with sort := .user d none }

/-- A new handler changes nothing else. -/
theorem withoutHandler_setHandler {e e' : TypeEntry} {h : Handler} (he : e.setHandler h = .ok e') :
    e'.withoutHandler = e.withoutHandler := by
  obtain ⟨name, sort⟩ := e
  cases sort with
  | value => cases he
  | object maker h₀ => cases he; rfl
  | user d h₀ => cases he; rfl

theorem name_withoutHandler (e : TypeEntry) : e.withoutHandler.name = e.name := by
  obtain ⟨name, sort⟩ := e
  cases sort <;> rfl

end TypeEntry

namespace Types

/-! ## Ranges -/

/-- The ranges of base types. -/
inductive Range where
  | value | object | user
deriving DecidableEq

namespace Range

/-- The first base of a range. -/
def first : Range → Nat
  | value => 0
  | object => TypeId.objectMin
  | user => TypeId.userMin

/-- How many types a range has room for. -/
def room : Range → Nat
  | value => TypeId.valueRoom
  | object => TypeId.objectRoom
  | user => TypeId.userRoom

/-- The range of a base. -/
def ofBase (b : Nat) : Range :=
  if b < TypeId.objectMin then value else if b < TypeId.userMin then object else user

/-- No range reaches the next one, and the base that belongs to no type lies between two of them. -/
theorem ofBase_add {k : Range} {i : Nat} (hi : i < k.room) : ofBase (k.first + i) = k := by
  cases k <;>
    simp only [ofBase, first, room, TypeId.objectMin, TypeId.userMin, TypeId.valueRoom,
      TypeId.objectRoom, TypeId.userRoom] at hi ⊢ <;> grind

theorem first_ofBase_le (b : Nat) : (ofBase b).first ≤ b := by
  simp only [ofBase, TypeId.objectMin, TypeId.userMin]
  grind [first, TypeId.objectMin, TypeId.userMin]

theorem add_lt_size {k : Range} {i : Nat} (hi : i < k.room) : k.first + i < 65536 := by
  cases k <;>
    simp only [first, room, TypeId.objectMin, TypeId.userMin, TypeId.valueRoom,
      TypeId.objectRoom, TypeId.userRoom] at hi ⊢ <;> omega

end Range

variable {t : Types} {k : Range} {id : TypeId} {name : String}

theorem base_place {i : Nat} (hi : i < k.room) : (place k.first i).base.toNat = k.first + i := by
  show (UInt16.ofNat (k.first + i)).toNat = _
  rw [UInt16.toNat_ofNat', Nat.mod_eq_of_lt (Range.add_lt_size hi)]

/-- The types of a range. -/
def entries (t : Types) : Range → Array TypeEntry
  | .value => t.values
  | .object => t.objects
  | .user => t.users

/-- The registry with other types in a range. -/
def setEntries (t : Types) (es : Array TypeEntry) : Range → Types
  | .value => { t with values := es }
  | .object => { t with objects := es }
  | .user => { t with users := es }

@[simp] theorem index_setEntries (t : Types) (es : Array TypeEntry) (k : Range) :
    (t.setEntries es k).index = t.index := by
  cases k <;> rfl

theorem entries_setEntries (t : Types) (es : Array TypeEntry) (j k : Range) :
    (t.setEntries es k).entries j = if j = k then es else t.entries j := by
  cases j <;> cases k <;> rfl

/-- The range of a base type. -/
def rangeOf (id : TypeId) : Range :=
  .ofBase id.base.toNat

/-- The place of a base type in its range. -/
def placeOf (id : TypeId) : Nat :=
  id.base.toNat - (rangeOf id).first

theorem get?_eq (t : Types) (id : TypeId) : t.get? id = (t.entries (rangeOf id))[placeOf id]? := by
  unfold get? placeOf rangeOf Range.ofBase
  dsimp only
  split
  · rfl
  · split <;> rfl

theorem rangeOf_place {i : Nat} (hi : i < k.room) : rangeOf (place k.first i) = k := by
  rw [rangeOf, base_place hi, Range.ofBase_add hi]

theorem placeOf_place {i : Nat} (hi : i < k.room) : placeOf (place k.first i) = i := by
  rw [placeOf, rangeOf_place hi, base_place hi, Nat.add_sub_cancel_left]

/-- A base is determined by its range and its place. -/
theorem base_eq_iff {i : Nat} (hi : i < k.room) :
    id.base = (place k.first i).base ↔ rangeOf id = k ∧ placeOf id = i := by
  constructor
  · intro h
    have hr : rangeOf id = rangeOf (place k.first i) := by rw [rangeOf, h, rangeOf]
    have hp : placeOf id = placeOf (place k.first i) := by rw [placeOf, hr, h, placeOf]
    rw [hr, hp, rangeOf_place hi, placeOf_place hi]
    exact ⟨rfl, rfl⟩
  · rintro ⟨hr, hp⟩
    refine UInt16.toNat_inj.1 ?_
    have hle := Range.first_ofBase_le id.base.toNat
    rw [base_place hi, ← hr, ← hp, placeOf]
    exact (Nat.add_sub_of_le hle).symm

/-! ## Registration -/

/-- Registers a type in a range.  The registry stays as it is if there is an error. -/
def register (t : Types) (k : Range) (name : String) (sort : TypeSort) :
    Except Error TypeId × Types :=
  match t.checkFree name (t.entries k).size k.room with
  | .error e => (.error e, t)
  | .ok _ =>
    let id := place k.first (t.entries k).size
    (.ok id, { t.setEntries ((t.entries k).push ⟨foldCase name, sort⟩) k with
      index := t.index.insert (.ofString name) id })

theorem addValue_eq (t : Types) (name : String) :
    t.addValue name = t.register .value name .value := rfl

theorem addObject_eq (t : Types) (name : String) (maker : Maker) (h : Option Handler) :
    t.addObject name maker h = t.register .object name (.object maker h) := rfl

theorem addUser_eq (t : Types) (d : Declaration) :
    t.addUser d = t.register .user d.name (.user d none) := rfl

/-- Registration is refused if the name is taken, and else if the range is full. -/
theorem register_fst (t : Types) (k : Range) (name : String) (sort : TypeSort) :
    (t.register k name sort).1 =
      if (t.find? name).isSome then .error (.typeRedefined name)
      else if (t.entries k).size < k.room then .ok (place k.first (t.entries k).size)
      else .error .typeSpaceExhausted := by
  unfold register checkFree
  by_cases hn : (t.find? name).isSome
  · simp only [hn, if_true]
  · by_cases hk : (t.entries k).size < k.room
    · simp only [hn, hk, if_true, if_false, Bool.false_eq_true]
    · simp only [hn, hk, if_false, Bool.false_eq_true]

theorem register_error {sort : TypeSort} {e : Error} (h : (t.register k name sort).1 = .error e) :
    (t.register k name sort).2 = t := by
  unfold register at h ⊢
  cases hc : t.checkFree name (t.entries k).size k.room with
  | error e => rfl
  | ok u =>
    rw [hc] at h
    cases h

/-- What a registration that is not refused does. -/
structure Registers (t : Types) (k : Range) (name : String) (sort : TypeSort) (id : TypeId)
    (t' : Types) : Prop where
  free : t.find? name = none
  room : (t.entries k).size < k.room
  id_eq : id = place k.first (t.entries k).size
  entries_eq : ∀ j, t'.entries j =
    if j = k then (t.entries k).push ⟨foldCase name, sort⟩ else t.entries j
  find?_eq : ∀ n, t'.find? n = if foldCase n = foldCase name then some id else t.find? n

theorem register_ok {sort : TypeSort} (h : (t.register k name sort).1 = .ok id) :
    t.Registers k name sort id (t.register k name sort).2 := by
  have hfst := t.register_fst k name sort
  rw [h] at hfst
  split at hfst
  · cases hfst
  · rename_i hn
    split at hfst
    · rename_i hk
      cases hfst
      have hc : t.checkFree name (t.entries k).size k.room = .ok () := by
        rw [checkFree, if_neg hn, if_pos hk]
      refine ⟨Option.not_isSome_iff_eq_none.1 hn, hk, rfl, fun j => ?_, fun n => ?_⟩
      · rw [register, hc]
        exact t.entries_setEntries _ j k
      · rw [register, hc]
        show NameIndex.find? (.ofString n) (NameIndex.insert (.ofString name) _ t.index) = _
        rw [NameIndex.find?_insert]
        simp only [Name.ofString_eq_iff]
        rfl
    · cases hfst

/-- After a registration there is one type more, at the new identifier. -/
theorem Registers.get?_eq {sort : TypeSort} {new : TypeId} {t' : Types}
    (h : t.Registers k name sort new t') (id : TypeId) :
    t'.get? id = if id.base = new.base then some ⟨foldCase name, sort⟩ else t.get? id := by
  rw [Types.get?_eq, Types.get?_eq, h.entries_eq, h.id_eq]
  simp only [base_eq_iff h.room]
  by_cases hr : rangeOf id = k
  · subst hr
    simp only [if_true, true_and, Array.getElem?_push]
  · simp only [hr, if_false, false_and]

/-! ## Handlers -/

theorem setEntry_eq (t : Types) (id : TypeId) (e : TypeEntry) :
    t.setEntry id e =
      t.setEntries ((t.entries (rangeOf id)).setIfInBounds (placeOf id) e) (rangeOf id) := by
  unfold setEntry placeOf rangeOf Range.ofBase
  dsimp only
  split
  · rfl
  · split <;> rfl

theorem get?_setEntry {e₀ : TypeEntry} (h : t.get? id = some e₀) (e : TypeEntry) (j : TypeId) :
    (t.setEntry id e).get? j = if j.base = id.base then some e else t.get? j := by
  have hlt : placeOf id < (t.entries (rangeOf id)).size := by
    rw [get?_eq] at h
    exact (Array.getElem?_eq_some_iff.1 h).1
  rw [setEntry_eq, get?_eq, get?_eq, entries_setEntries]
  by_cases hb : j.base = id.base
  · have hr : rangeOf j = rangeOf id := by rw [rangeOf, hb, rangeOf]
    have hp : placeOf j = placeOf id := by rw [placeOf, hr, hb, placeOf]
    rw [if_pos hr, if_pos hb, hp, Array.getElem?_setIfInBounds_self_of_lt hlt]
  · rw [if_neg hb]
    by_cases hr : rangeOf j = rangeOf id
    · have hp : placeOf id ≠ placeOf j := by
        intro hp
        refine hb (UInt16.toNat_inj.1 ?_)
        have hj : (rangeOf j).first ≤ j.base.toNat := Range.first_ofBase_le _
        have hi : (rangeOf id).first ≤ id.base.toNat := Range.first_ofBase_le _
        simp only [placeOf, hr] at hp hj
        omega
      rw [if_pos hr, Array.getElem?_setIfInBounds_ne hp, hr]
    · rw [if_neg hr]

/-- A handler is refused by what is no type and by value types, and else it is all that changes. -/
theorem setHandler_cases (t : Types) (id : TypeId) (h : Handler) :
    (∃ e, t.setHandler id h = (.error e, t)) ∨
      ∃ e e', t.get? id = some e ∧ e.setHandler h = .ok e' ∧
        t.setHandler id h = (.ok (), t.setEntry id e') := by
  unfold setHandler
  cases hg : t.get? id with
  | none => exact .inl ⟨_, rfl⟩
  | some e =>
    cases he : e.setHandler h with
    | error err => exact .inl ⟨err, by simp only [he]⟩
    | ok e' => exact .inr ⟨e, e', rfl, he, by simp only [he]⟩

/-! ## The invariant -/

/-- No range is overfull, and the index leads from the names to the types and back. -/
structure Consistent (t : Types) : Prop where
  room : ∀ k, (t.entries k).size ≤ k.room
  find?_iff : ∀ name id, t.find? name = some id ↔
    id.indirection = 0 ∧ ∃ e, t.get? id = some e ∧ e.name = foldCase name

theorem Consistent.empty : Consistent {} where
  room k := by cases k <;> exact Nat.zero_le _
  find?_iff name id := by
    constructor
    · intro h
      cases h
    · rintro ⟨-, e, he, -⟩
      rw [get?_eq] at he
      cases hr : rangeOf id <;> simp [hr, entries] at he

theorem Consistent.isSome_find?_iff (ht : t.Consistent) (name : String) :
    (t.find? name).isSome ↔ ∃ id e, t.get? id = some e ∧ e.name = foldCase name := by
  rw [Option.isSome_iff_exists]
  constructor
  · rintro ⟨id, h⟩
    obtain ⟨-, e, he, hn⟩ := (ht.find?_iff name id).1 h
    exact ⟨id, e, he, hn⟩
  · rintro ⟨id, e, he, hn⟩
    exact ⟨id.baseType, (ht.find?_iff name _).2 ⟨rfl, e, he, hn⟩⟩

theorem Consistent.registers {sort : TypeSort} {t' : Types} (ht : t.Consistent)
    (h : t.Registers k name sort id t') : t'.Consistent where
  room j := by
    rw [h.entries_eq]
    split
    · rename_i hj
      subst hj
      rw [Array.size_push]
      exact h.room
    · exact ht.room j
  find?_iff n i := by
    rw [h.find?_eq, h.get?_eq]
    by_cases hn : foldCase n = foldCase name
    · rw [if_pos hn]
      constructor
      · intro hi
        obtain rfl := Option.some.inj hi
        exact ⟨by rw [h.id_eq]; rfl, _, if_pos rfl, hn.symm⟩
      · rintro ⟨hz, e, he, hen⟩
        split at he
        · rename_i hb
          have hid : id.indirection = 0 := by rw [h.id_eq]; rfl
          obtain ⟨b, z⟩ := i
          obtain ⟨c, y⟩ := id
          rw [Option.some.injEq, TypeId.mk.injEq]
          exact ⟨hb.symm, hid.trans hz.symm⟩
        · have htaken := (ht.find?_iff name i).2 ⟨hz, e, he, hen.trans hn⟩
          rw [h.free] at htaken
          cases htaken
    · rw [if_neg hn, ht.find?_iff n i]
      refine and_congr_right fun hz => exists_congr fun e => ?_
      split
      · rename_i hb
        -- the new identifier was not in use, and the new name is another one
        constructor
        · rintro ⟨he, -⟩
          rw [Types.get?_eq] at he
          obtain ⟨hr, hp⟩ := (base_eq_iff h.room).1 (h.id_eq ▸ hb)
          rw [hr, hp, Array.getElem?_eq_none (Nat.le_refl _)] at he
          cases he
        · rintro ⟨he, hen⟩
          cases he
          exact absurd hen.symm hn
      · rfl

theorem Consistent.setEntry {e e' : TypeEntry} (ht : t.Consistent) (hg : t.get? id = some e)
    (hn : e'.name = e.name) : (t.setEntry id e').Consistent where
  room j := by
    rw [setEntry_eq, entries_setEntries]
    split
    · rename_i hj
      subst hj
      rw [Array.size_setIfInBounds]
      exact ht.room _
    · exact ht.room j
  find?_iff n i := by
    have hfind : (t.setEntry id e').find? n = t.find? n := by
      rw [setEntry_eq, find?, index_setEntries, find?]
    rw [hfind, ht.find?_iff n i, get?_setEntry hg]
    refine and_congr_right fun _ => ?_
    split
    · rename_i hb
      have hgi : t.get? i = some e := by
        rw [← hg, get?, get?, hb]
      simp only [hgi, Option.some.injEq, exists_eq_left', hn]
    · rfl

/-! ## Requests -/

/-- What is asked of a registry. -/
inductive Request where
  | value (name : String)
  | object (name : String) (maker : Maker) (handler : Option Handler)
  | user (d : Declaration)
  /-- A new handler for a type. -/
  | handler (id : TypeId) (h : Handler)

/-- The type that a request registers: its range, its name and its sort. -/
def Request.registers? : Request → Option (Range × String × TypeSort)
  | value name => some (.value, name, .value)
  | object name maker h => some (.object, name, .object maker h)
  | user d => some (.user, d.name, .user d none)
  | handler _ _ => none

/-- What a registry answers to a request, an identifier if it registers a type, and the registry
    afterwards. -/
def answer (t : Types) : Request → Except Error (Option TypeId) × Types
  | .value name => ((t.addValue name).1.map some, (t.addValue name).2)
  | .object name maker handler =>
    ((t.addObject name maker handler).1.map some, (t.addObject name maker handler).2)
  | .user d => ((t.addUser d).1.map some, (t.addUser d).2)
  | .handler id h => ((t.setHandler id h).1.map fun _ => none, (t.setHandler id h).2)

theorem answer_of_registers {q : Request} {sort : TypeSort}
    (hq : q.registers? = some (k, name, sort)) (t : Types) :
    t.answer q = ((t.register k name sort).1.map some, (t.register k name sort).2) := by
  cases q with
  | value name =>
    cases hq
    rw [answer, addValue_eq]
  | object name maker handler =>
    cases hq
    rw [answer, addObject_eq]
  | user d =>
    cases hq
    rw [answer, addUser_eq]
  | handler id h => cases hq

/-- The registry after some requests, the first of them made to a new one. -/
def served (qs : List Request) : Types :=
  qs.foldl (fun t q => (t.answer q).2) {}

/-- The identifiers that requests to a registry are answered with in a range. -/
def issuedFrom (k : Range) : Types → List Request → List TypeId
  | _, [] => []
  | t, q :: qs =>
    (match q.registers?, (t.answer q).1 with
      | some (j, _), .ok (some id) => if j = k then [id] else []
      | _, _ => []) ++ issuedFrom k (t.answer q).2 qs

/-- The identifiers that requests to a new registry are answered with in a range. -/
def issued (k : Range) (qs : List Request) : List TypeId :=
  issuedFrom k {} qs

/-- What a request comes to. -/
inductive Outcome (t : Types) (q : Request) : Prop
  /-- It is refused. -/
  | refused (e : Error) (h : t.answer q = (.error e, t))
  /-- A type is registered. -/
  | registered {k : Range} {name : String} {sort : TypeSort} (id : TypeId)
    (hq : q.registers? = some (k, name, sort)) (ha : (t.answer q).1 = .ok (some id))
    (h : t.Registers k name sort id (t.answer q).2)
  /-- A type has a new handler. -/
  | handled {e e' : TypeEntry} {h : Handler} (id : TypeId) (hq : q.registers? = none)
    (hg : t.get? id = some e) (he : e.setHandler h = .ok e')
    (ha : t.answer q = (.ok none, t.setEntry id e'))

theorem outcome (t : Types) (q : Request) : t.Outcome q := by
  cases hq : q.registers? with
  | some r =>
    obtain ⟨k, name, sort⟩ := r
    have ha := answer_of_registers hq t
    cases hr : (t.register k name sort).1 with
    | error e => exact .refused e (by rw [ha, hr, register_error hr]; rfl)
    | ok id =>
      have hfst : (t.answer q).1 = .ok (some id) := by rw [ha, hr]; rfl
      refine .registered id hq hfst ?_
      rw [ha]
      exact register_ok hr
  | none =>
    cases q with
    | value | object | user => cases hq
    | handler id h =>
      rcases t.setHandler_cases id h with ⟨e, he⟩ | ⟨e, e', hg, he, hs⟩
      · exact .refused e (by rw [answer, he]; rfl)
      · exact .handled id hq hg he (by rw [answer, hs]; rfl)

/-- **A request keeps a registry consistent.** -/
theorem Consistent.answer (ht : t.Consistent) (q : Request) : (t.answer q).2.Consistent := by
  cases t.outcome q with
  | refused e h => rwa [h]
  | registered id hq ha h => exact ht.registers h
  | handled id hq hg he ha =>
    rw [ha]
    refine ht.setEntry hg ?_
    rw [← TypeEntry.name_withoutHandler, TypeEntry.withoutHandler_setHandler he,
      TypeEntry.name_withoutHandler]

/-- A request leaves every type as it was registered. -/
theorem get?_answer {e : TypeEntry} (h : t.get? id = some e) (q : Request) :
    ∃ e', (t.answer q).2.get? id = some e' ∧ e'.withoutHandler = e.withoutHandler := by
  cases t.outcome q with
  | refused err ha => exact ⟨e, by rw [ha]; exact h, rfl⟩
  | registered new hq ha hr =>
    refine ⟨e, ?_, rfl⟩
    rw [hr.get?_eq, if_neg, h]
    intro hb
    obtain ⟨hk, hp⟩ := (base_eq_iff hr.room).1 (hr.id_eq ▸ hb)
    rw [get?_eq, hk, hp, Array.getElem?_eq_none (Nat.le_refl _)] at h
    cases h
  | handled j hq hg he ha =>
    rw [ha, get?_setEntry hg]
    split
    · rename_i hb
      have hgi : t.get? id = t.get? j := by rw [get?, get?, hb]
      rw [hgi, hg] at h
      cases h
      exact ⟨_, rfl, TypeEntry.withoutHandler_setHandler he⟩
    · exact ⟨e, h, rfl⟩

theorem get?_serve (more : List Request) {e : TypeEntry} (h : t.get? id = some e) :
    ∃ e', (more.foldl (fun t q => (t.answer q).2) t).get? id = some e' ∧
      e'.withoutHandler = e.withoutHandler := by
  induction more generalizing t e with
  | nil => exact ⟨e, h, rfl⟩
  | cons q more ih =>
    obtain ⟨e₁, h₁, hsame⟩ := get?_answer h q
    obtain ⟨e₂, h₂, hsame'⟩ := ih h₁
    exact ⟨e₂, h₂, hsame'.trans hsame⟩

theorem Consistent.serve (ht : t.Consistent) (qs : List Request) :
    (qs.foldl (fun t q => (t.answer q).2) t).Consistent := by
  induction qs generalizing t with
  | nil => exact ht
  | cons q qs ih => exact ih (ht.answer q)

/-- The identifiers that are handed out in a range are the next ones. -/
theorem issuedFrom_eq (k : Range) (t : Types) (qs : List Request) :
    issuedFrom k t qs = (List.range' (t.entries k).size
      (((qs.foldl (fun t q => (t.answer q).2) t).entries k).size - (t.entries k).size)).map
        (place k.first) ∧
      (t.entries k).size ≤ ((qs.foldl (fun t q => (t.answer q).2) t).entries k).size := by
  induction qs generalizing t with
  | nil => simp [issuedFrom]
  | cons q qs ih =>
    obtain ⟨hi, hle⟩ := ih (t.answer q).2
    rw [List.foldl_cons, issuedFrom]
    cases t.outcome q with
    | refused e h =>
      rw [h] at hi hle ⊢
      exact ⟨by cases q.registers? <;> simpa using hi, hle⟩
    | registered id hq ha h =>
      rename_i j name sort
      have hsize : ((t.answer q).2.entries k).size =
          (t.entries k).size + if k = j then 1 else 0 := by
        rw [h.entries_eq]
        split
        · rename_i hk
          rw [Array.size_push, hk]
        · rfl
      rw [hi, hq, ha]
      rw [hsize] at hle ⊢
      by_cases hk : k = j
      · subst hk
        simp only [if_true] at hle ⊢
        refine ⟨?_, by omega⟩
        rw [h.id_eq, List.singleton_append, ← List.map_cons, ← List.range'_succ]
        congr 2
        omega
      · simp only [hk, Ne.symm hk, if_false] at hle ⊢
        exact ⟨rfl, hle⟩
    | handled id hq hg he ha =>
      have hsize : ((t.answer q).2.entries k).size = (t.entries k).size := by
        rw [ha, setEntry_eq, entries_setEntries]
        split
        · rename_i hk
          rw [Array.size_setIfInBounds, hk]
        · rfl
      rw [hi, hq]
      rw [hsize] at hle ⊢
      exact ⟨rfl, hle⟩

theorem issued_eq (k : Range) (qs : List Request) :
    issued k qs = (List.range ((served qs).entries k).size).map (place k.first) := by
  have h := (issuedFrom_eq k {} qs).1
  have h₀ : (({} : Types).entries k).size = 0 := by cases k <;> rfl
  rw [h₀, Nat.sub_zero, ← List.range_eq_range'] at h
  exact h

theorem length_issued (k : Range) (qs : List Request) :
    (issued k qs).length = ((served qs).entries k).size := by
  rw [issued_eq, List.length_map, List.length_range]

/-- What is asked for last comes after what was asked for before. -/
theorem served_append (qs more : List Request) :
    served (qs ++ more) = more.foldl (fun t q => (t.answer q).2) (served qs) :=
  List.foldl_append

/-! ## What holds after any requests -/

theorem consistent_served (qs : List Request) : (served qs).Consistent :=
  Consistent.empty.serve qs

theorem length_issued_le (k : Range) (qs : List Request) : (issued k qs).length ≤ k.room := by
  rw [length_issued]
  exact (consistent_served qs).room k

/-- The identifiers of a range, one after the other from its first base. -/
theorem issued_consecutive (k : Range) (qs : List Request) :
    (issued k qs).map (fun id => (id.base.toNat, id.indirection)) =
      (List.range (issued k qs).length).map fun i => (k.first + i, 0) := by
  have hroom := (consistent_served qs).room k
  rw [length_issued, issued_eq, List.map_map]
  refine List.map_congr_left fun i hi => ?_
  exact Prod.ext (base_place (Nat.lt_of_lt_of_le (List.mem_range.1 hi) hroom)) rfl

theorem mem_issued {qs : List Request} (h : id ∈ issued k qs) :
    k.first ≤ id.base.toNat ∧ id.base.toNat < k.first + k.room := by
  rw [issued_eq] at h
  obtain ⟨i, hi, rfl⟩ := List.mem_map.1 h
  have hlt : i < k.room :=
    Nat.lt_of_lt_of_le (List.mem_range.1 hi) ((consistent_served qs).room k)
  rw [base_place hlt]
  omega

/-- The types of a registry are those whose identifiers it has handed out. -/
theorem exists_get?_iff (qs : List Request) (id : TypeId) :
    (∃ e, (served qs).get? id = some e) ↔ ∃ k, id.baseType ∈ issued k qs := by
  simp only [issued_eq, List.mem_map, List.mem_range, get?_eq, Array.getElem?_eq_some_iff]
  constructor
  · rintro ⟨-, hlt, -⟩
    have hroom := Nat.lt_of_lt_of_le hlt ((consistent_served qs).room _)
    refine ⟨rangeOf id, placeOf id, hlt, ?_⟩
    rw [TypeId.baseType, (base_eq_iff hroom).2 ⟨rfl, rfl⟩]
    rfl
  · rintro ⟨k, i, hlt, hid⟩
    have hroom := Nat.lt_of_lt_of_le hlt ((consistent_served qs).room _)
    have hbase : id.base = (place k.first i).base := (congrArg TypeId.base hid).symm
    obtain ⟨rfl, rfl⟩ := (base_eq_iff hroom).1 hbase
    exact ⟨_, hlt, rfl⟩

/-- How a registration is answered: with the reasons for a refusal, and with the new type. -/
theorem answer_registration {q : Request} {sort : TypeSort}
    (hq : q.registers? = some (k, name, sort)) (t : Types) :
    (t.answer q).1 =
        (if (t.find? name).isSome then .error (.typeRedefined name)
        else if (t.entries k).size < k.room then .ok (some (place k.first (t.entries k).size))
        else .error .typeSpaceExhausted) ∧
      ∀ id, (t.answer q).1 = .ok (some id) →
        (t.answer q).2.get? id = some ⟨foldCase name, sort⟩ := by
  have ha := answer_of_registers hq t
  constructor
  · rw [ha, register_fst]
    split
    · rfl
    · split <;> rfl
  · intro id hid
    cases hr : (t.register k name sort).1 with
    | error e =>
      rw [ha, hr] at hid
      cases hid
    | ok j =>
      rw [ha, hr] at hid
      cases hid
      rw [ha, (register_ok hr).get?_eq, if_pos rfl]

theorem answer_error {q : Request} {e : Error} (h : (t.answer q).1 = .error e) :
    (t.answer q).2 = t := by
  cases t.outcome q with
  | refused e' ha => rw [ha]
  | registered id hq ha hr =>
    rw [ha] at h
    cases h
  | handled id hq hg he ha =>
    rw [ha] at h
    cases h

/-- **A registry is consistent, whatever was asked of it.**  The names and the identifiers of its
    types belong together one to one, up to case.  The identifiers of each range were handed out
    one after the other, and no type has another identifier.  Later requests leave a type as it
    was registered.  A registration is refused with `typeRedefined` exactly if the name is taken,
    else with `typeSpaceExhausted` exactly if the range is full, and else the new type is there.
    A refusal of any kind changes nothing. -/
theorem registry_consistent (qs : List Request) :
    (∀ name id, (served qs).find? name = some id ↔
      id.indirection = 0 ∧ ∃ e, (served qs).get? id = some e ∧ e.name = foldCase name) ∧
    (∀ k, (issued k qs).map (fun id => (id.base.toNat, id.indirection)) =
      (List.range (issued k qs).length).map fun i => (k.first + i, 0)) ∧
    (∀ id ∈ issued .value qs, id.base.toNat ≤ 1022) ∧
    (∀ id ∈ issued .object qs, 1024 ≤ id.base.toNat ∧ id.base.toNat ≤ 32767) ∧
    (∀ id ∈ issued .user qs, 32768 ≤ id.base.toNat ∧ id.base.toNat ≤ 65535) ∧
    (∀ id, (∃ e, (served qs).get? id = some e) ↔ ∃ k, id.baseType ∈ issued k qs) ∧
    (∀ more id e, (served qs).get? id = some e →
      ∃ e', (served (qs ++ more)).get? id = some e' ∧ e'.withoutHandler = e.withoutHandler) ∧
    (∀ q k name sort, q.registers? = some (k, name, sort) →
      (((served qs).answer q).1 = .error (.typeRedefined name) ↔
        ∃ id e, (served qs).get? id = some e ∧ e.name = foldCase name) ∧
      (((served qs).answer q).1 = .error .typeSpaceExhausted ↔
        (¬∃ id e, (served qs).get? id = some e ∧ e.name = foldCase name) ∧
          (issued k qs).length = k.room) ∧
      (((served qs).answer q).1 = .error (.typeRedefined name) ∨
        ((served qs).answer q).1 = .error .typeSpaceExhausted ∨
        ∃ id, ((served qs).answer q).1 = .ok (some id) ∧
          (served (qs ++ [q])).get? id = some ⟨foldCase name, sort⟩)) ∧
    (∀ q e, ((served qs).answer q).1 = .error e → ((served qs).answer q).2 = served qs) := by
  have ht := consistent_served qs
  refine ⟨ht.find?_iff, fun k => issued_consecutive k qs, fun id h => ?_, fun id h => ?_,
    fun id h => ?_, exists_get?_iff qs, fun more id e h => ?_, fun q k name sort hq => ?_,
    fun q e h => answer_error h⟩
  · have := (mem_issued h).2
    simp only [Range.first, Range.room, TypeId.valueRoom] at this
    omega
  · have := mem_issued h
    simp only [Range.first, Range.room, TypeId.objectMin, TypeId.objectRoom] at this
    omega
  · have := mem_issued h
    simp only [Range.first, Range.room, TypeId.userMin, TypeId.userRoom] at this
    omega
  · rw [served_append]
    exact get?_serve more h
  · obtain ⟨hfst, hnew⟩ := answer_registration hq (served qs)
    have hfull : (issued k qs).length = k.room ↔ ¬((served qs).entries k).size < k.room := by
      have hle := length_issued_le k qs
      rw [length_issued] at hle ⊢
      omega
    have hlast : served (qs ++ [q]) = ((served qs).answer q).2 := served_append qs [q]
    rw [hlast, hfull, ← ht.isSome_find?_iff]
    by_cases hn : ((served qs).find? name).isSome
    · rw [if_pos hn] at hfst
      simp [hfst, hn]
    · rw [if_neg hn] at hfst
      by_cases hk : ((served qs).entries k).size < k.room
      · rw [if_pos hk] at hfst
        have := hnew _ hfst
        simp [hfst, hn, hk, this]
      · rw [if_neg hk] at hfst
        simp [hfst, hn, hk]

end Types
end ThreadedForth
