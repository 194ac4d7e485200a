/-
  Objects as sequences, and their functions as operations on lists.
-/
import ThreadedForth.Proofs.AsciiTexts
import ThreadedForth.Proofs.StoreSteps

namespace ThreadedForth

/-! ## First places -/

/-- The first place of a list from where on it has a property; there may be none. -/
def FirstPlace {α : Type} (p : List α → Prop) (xs : List α) : Option Nat → Prop
  | some i => i ≤ xs.length ∧ p (xs.drop i) ∧ ∀ j, j < i → ¬ p (xs.drop j)
  | none => ∀ i, i ≤ xs.length → ¬ p (xs.drop i)

namespace FirstPlace

variable {α β : Type} {p : List α → Prop} {q : List β → Prop} {xs ys : List α}
  {place? place'? : Option Nat}

theorem zero (h : p xs) : FirstPlace p xs (some 0) :=
  ⟨Nat.zero_le _, h, fun _ hj => (Nat.not_lt_zero _ hj).elim⟩

/-- Nothing is found in what comes before. -/
theorem append (hys : ∀ j, j < ys.length → ¬ p ((ys ++ xs).drop j)) (h : FirstPlace p xs place?) :
    FirstPlace p (ys ++ xs) (place?.map (ys.length + ·)) := by
  cases place? with
  | none =>
    intro i hi
    by_cases hlt : i < ys.length
    · exact hys i hlt
    · obtain ⟨j, rfl⟩ := Nat.exists_eq_add_of_le (Nat.le_of_not_lt hlt)
      rw [List.length_append] at hi
      rw [List.drop_length_add_append]
      exact h j (Nat.le_of_add_le_add_left hi)
  | some i =>
    obtain ⟨hi, hp, hfirst⟩ := h
    refine ⟨by rw [List.length_append]; exact Nat.add_le_add_left hi _, ?_, fun j hj => ?_⟩
    · rw [List.drop_length_add_append]
      exact hp
    · by_cases hlt : j < ys.length
      · exact hys j hlt
      · obtain ⟨k, rfl⟩ := Nat.exists_eq_add_of_le (Nat.le_of_not_lt hlt)
        rw [List.drop_length_add_append]
        exact hfirst k (Nat.lt_of_add_lt_add_left hj)

theorem map {f : α → β} (hf : ∀ ys, q (ys.map f) ↔ p ys) (h : FirstPlace p xs place?) :
    FirstPlace q (xs.map f) place? := by
  cases place? with
  | none =>
    intro i hi
    rw [← List.map_drop, hf]
    exact h i (by rwa [List.length_map] at hi)
  | some i =>
    obtain ⟨hi, hp, hfirst⟩ := h
    refine ⟨by rwa [List.length_map], ?_, fun j hj => ?_⟩
    · rw [← List.map_drop, hf]
      exact hp
    · rw [← List.map_drop, hf]
      exact hfirst j hj

theorem unique (h : FirstPlace p xs place?) (h' : FirstPlace p xs place'?) : place? = place'? := by
  cases place? with
  | none =>
    cases place'? with
    | none => rfl
    | some j => exact (h j h'.1 h'.2.1).elim
  | some i =>
    cases place'? with
    | none => exact (h' i h.1 h.2.1).elim
    | some j =>
      rcases Nat.lt_trichotomy i j with hlt | rfl | hlt
      · exact (h'.2.2 i hlt h.2.1).elim
      · rfl
      · exact (h.2.2 j hlt h'.2.1).elim

/-- The place of the first element that has a property. -/
theorem findIdx? (f : α → Bool) (xs : List α) :
    FirstPlace (fun ys => ∃ y zs, ys = y :: zs ∧ f y = true) xs (xs.findIdx? f) := by
  cases h : xs.findIdx? f with
  | none =>
    rw [List.findIdx?_eq_none_iff] at h
    rintro i - ⟨y, zs, hy, hfy⟩
    have hmem : y ∈ xs.drop i := hy ▸ List.mem_cons_self
    rw [h y (List.mem_of_mem_drop hmem)] at hfy
    cases hfy
  | some i =>
    obtain ⟨hi, hfi, hfirst⟩ := List.findIdx?_eq_some_iff_getElem.1 h
    refine ⟨Nat.le_of_lt hi, ⟨_, _, List.drop_eq_getElem_cons hi, hfi⟩, ?_⟩
    rintro j hj ⟨y, zs, hy, hfy⟩
    have hjlt := Nat.lt_trans hj hi
    rw [List.drop_eq_getElem_cons hjlt, List.cons.injEq] at hy
    exact hfirst j hj (hy.1 ▸ hfy)

end FirstPlace

/-! ## Bytes of characters -/

namespace Utf8

variable {c d : Char} {cs ds : List Char}

/-- The bytes of some characters. -/
def encode (cs : List Char) : List UInt8 :=
  cs.flatMap String.utf8EncodeChar

theorem bytes_ofList (cs : List Char) : bytes (String.ofList cs) = encode cs := by
  rw [bytes, String.toList_ofList, encode]

theorem encode_cons (c : Char) (cs : List Char) :
    encode (c :: cs) = String.utf8EncodeChar c ++ encode cs :=
  List.flatMap_cons

theorem encode_append (cs ds : List Char) : encode (cs ++ ds) = encode cs ++ encode ds :=
  List.flatMap_append

theorem bytes_append (s t : String) : bytes (s ++ t) = bytes s ++ bytes t := by
  rw [bytes, String.toList_append, List.flatMap_append]
  rfl

theorem length_encode (cs : List Char) : (encode cs).length = size cs := by
  induction cs with
  | nil => rfl
  | cons c cs ih =>
    rw [encode_cons, List.length_append, ih, String.length_utf8EncodeChar]
    rfl

theorem length_bytes (s : String) : (bytes s).length = s.utf8ByteSize :=
  (length_encode s.toList).trans (size_toList s)

/-- A cut at a byte cuts the bytes there. -/
theorem encode_of_splitBytes? {n : Nat} {a b : List Char} (h : splitBytes? n cs = some (a, b)) :
    encode a = (encode cs).take n ∧ encode b = (encode cs).drop n := by
  have hn : (encode a).length = n := (length_encode a).trans (size_of_splitBytes? h)
  rw [← splitBytes?_append h, encode_append]
  exact ⟨(List.take_left' hn).symm, (List.drop_left' hn).symm⟩

theorem encode_of_slice? {i j : Nat} (h : slice? i j cs = some ds) :
    encode ds = ((encode cs).drop i).take (j - i) := by
  simp only [slice?, Option.bind_eq_bind, Option.bind_eq_some_iff, Option.pure_def,
    Option.some.injEq] at h
  obtain ⟨⟨a, b⟩, hab, ⟨part, rest⟩, hpart, rfl⟩ := h
  rw [(encode_of_splitBytes? hpart).1, (encode_of_splitBytes? hab).2]

theorem encode_of_splice? {i j : Nat} {new : List Char} (hij : i ≤ j)
    (h : splice? i j new cs = some ds) :
    encode ds = (encode cs).take i ++ encode new ++ (encode cs).drop j := by
  simp only [splice?, Option.bind_eq_bind, Option.bind_eq_some_iff, Option.pure_def,
    Option.some.injEq] at h
  obtain ⟨⟨a, b⟩, hab, ⟨part, rest⟩, hpart, rfl⟩ := h
  rw [encode_append, encode_append, (encode_of_splitBytes? hab).1, (encode_of_splitBytes? hpart).2,
    (encode_of_splitBytes? hab).2, List.drop_drop, Nat.add_sub_cancel' hij]

/-- The first character can be told from the bytes. -/
theorem eq_of_utf8EncodeChar_append {xs ys : List UInt8}
    (h : String.utf8EncodeChar c ++ xs = String.utf8EncodeChar d ++ ys) : c = d := by
  have hdecode : ∀ (c : Char) (xs : List UInt8),
      (String.utf8EncodeChar c ++ xs).toByteArray.utf8DecodeChar? 0 = some c := by
    intro c xs
    rw [List.toByteArray_append]
    exact ByteArray.utf8DecodeChar?_utf8EncodeChar_append
  have hc := hdecode c xs
  rw [h, hdecode d ys] at hc
  exact (Option.some.inj hc).symm

/-- Some characters start with others exactly if their bytes do. -/
theorem isPrefixOf_iff : ds.isPrefixOf cs = true ↔ encode ds <+: encode cs := by
  rw [List.isPrefixOf_iff_prefix]
  induction ds generalizing cs with
  | nil => simp [encode]
  | cons d ds ih =>
    cases cs with
    | nil => simp [encode, String.utf8EncodeChar_ne_nil]
    | cons c cs =>
      rw [List.cons_prefix_cons, ih, encode_cons, encode_cons]
      constructor
      · rintro ⟨rfl, h⟩
        exact (List.prefix_append_right_inj _).2 h
      · rintro ⟨xs, hxs⟩
        rw [List.append_assoc] at hxs
        obtain rfl := eq_of_utf8EncodeChar_append hxs
        exact ⟨rfl, xs, List.append_cancel_left hxs⟩

/-- No text is found inside a character: its first byte is told from the bytes that go on. -/
theorem not_prefix_inside {i : Nat} {xs : List UInt8} (hi : 0 < i) (hlt : i < c.utf8Size)
    (hds : ds ≠ []) : ¬ encode ds <+: (String.utf8EncodeChar c ++ xs).drop i := by
  obtain ⟨d, ds, rfl⟩ := List.exists_cons_of_ne_nil hds
  have hic : i < (String.utf8EncodeChar c).length := by rwa [String.length_utf8EncodeChar]
  have hd : 0 < (String.utf8EncodeChar d).length := by
    rw [String.length_utf8EncodeChar]
    exact d.utf8Size_pos
  rintro ⟨ys, hys⟩
  rw [encode_cons, List.drop_append_of_le_length (Nat.le_of_lt hic)] at hys
  have hbyte : (String.utf8EncodeChar d)[0] = (String.utf8EncodeChar c)[i] := by
    have hhead := congrArg (·[0]?) hys
    rw [List.drop_eq_getElem_cons hic] at hhead
    simpa only [List.append_assoc, List.getElem?_append_left hd, List.getElem?_eq_getElem hd,
      List.cons_append, List.getElem?_cons_zero, Option.some.injEq] using hhead
  have hfirst : ((String.utf8EncodeChar d)[0]).IsUTF8FirstByte :=
    UInt8.isUTF8FirstByte_getElem_utf8EncodeChar.2 rfl
  rw [hbyte] at hfirst
  exact Nat.ne_of_gt hi (UInt8.isUTF8FirstByte_getElem_utf8EncodeChar.1 hfirst)

/-- Texts are found where their bytes are. -/
theorem firstPlace_offsetOf? (ds cs : List Char) :
    FirstPlace (encode ds <+: ·) (encode cs) (offsetOf? ds cs) := by
  induction cs with
  | nil =>
    cases ds with
    | nil => exact .zero List.prefix_rfl
    | cons d ds =>
      rintro i - h
      simp [encode, String.utf8EncodeChar_ne_nil] at h
  | cons c cs ih =>
    rw [offsetOf?]
    split
    · rename_i h
      exact .zero (isPrefixOf_iff.1 h)
    · rename_i h
      rw [encode_cons, ← String.length_utf8EncodeChar]
      refine ih.append fun j hj => ?_
      rw [String.length_utf8EncodeChar] at hj
      rcases Nat.eq_zero_or_pos j with rfl | hpos
      · rw [List.drop_zero, ← encode_cons, ← isPrefixOf_iff]
        exact h
      · refine not_prefix_inside hpos hj ?_
        rintro rfl
        exact h rfl

end Utf8

/-! ## Operations on lists -/

/-- In what strings differ from the other sequences. -/
structure SequenceKind where
  /-- What is stored for a value, if it can be stored. -/
  stored : Value → Option Value
  /-- What is appended for a value. -/
  joined : Value → List Value
  /-- Whether a value is found at the start of the rest of a sequence. -/
  found : Value → List Value → Prop

/-- The result of an operation: values, the last on top, or a new sequence. -/
inductive Yield where
  | values (vs : List Value)
  | sequence (xs : List Value)

/-- What the functions do with the list `xs` of the elements: the operands that they take, the top
    first; the result; and the list of the elements afterwards. -/
inductive SequenceKind.Does (k : SequenceKind) (xs : List Value) :
    Function → List Value → Yield → List Value → Prop
  | size : Does k xs .size [] (.values [.nat xs.length]) xs
  | get {u v : Value} {n : Int64} {i : Nat} (hu : u.toInt = .ok n) (hn : n.toInt = i)
    (hv : xs[i]? = some v) : Does k xs .get [u] (.values [v]) xs
  | set {u v w : Value} {n : Int64} {i : Nat} (hu : u.toInt = .ok n) (hn : n.toInt = i)
    (hi : i < xs.length) (hw : k.stored v = some w) :
    Does k xs .set [u, v] (.values []) (xs.set i w)
  | contains {v : Value} {place? : Option Nat} (h : FirstPlace (k.found v) xs place?) :
    Does k xs .contains [v] (.values [.bool place?.isSome]) xs
  | indexOf {v : Value} {place? : Option Nat} (h : FirstPlace (k.found v) xs place?) :
    Does k xs .indexOf [v] (.values [place?.elim (.int (-1)) .nat]) xs
  | subRange {u v : Value} {start count : Int64} {i n : Nat} (hu : u.toInt = .ok count)
    (hv : v.toInt = .ok start) (hi : start.toInt = i) (hn : count.toInt = n)
    (hle : i + n ≤ xs.length) :
    Does k xs .subRange [u, v] (.sequence ((xs.drop i).take n)) xs
  | deconstruct : Does k xs .deconstruct [] (.values (xs ++ [.nat xs.length])) xs
  | append {v : Value} : Does k xs .append [v] (.values []) (xs ++ k.joined v)

/-! ## Elements of objects -/

namespace Obj

/-- The elements of an object: the bytes of a string, or the values. -/
def elements : Obj → List Value
  | text s => (Utf8.bytes s).map .char
  | array items _ | record _ _ items _ => items.toList

/-- The object without its elements. -/
def frame : Obj → Obj
  | text _ => text ""
  | x => x.setItems #[]

/-- An object that can be cut between any two elements: strings have to be ASCII. -/
def Plain : Obj → Prop
  | text s => AsciiText s
  | _ => True

/-- An array or a record, and the values that it holds. -/
inductive Holds : Obj → Array Value → Prop
  | array {items : Array Value} {v : Bool} : Holds (.array items v) items
  | record {t : TypeId} {d : Declaration} {items : Array Value} {v : Bool} :
    Holds (.record t d items v) items

theorem length_elements_text (s : String) : (text s).elements.length = s.utf8ByteSize := by
  rw [elements, List.length_map, Utf8.length_bytes]

theorem Holds.elements {x : Obj} {items : Array Value} (h : x.Holds items) :
    x.elements = items.toList := by
  cases h <;> rfl

theorem Holds.length {x : Obj} {items : Array Value} (h : x.Holds items) :
    x.elements.length = items.size := by
  rw [h.elements, Array.length_toList]

theorem Holds.setItems {x : Obj} {items : Array Value} (h : x.Holds items) (new : Array Value) :
    (x.setItems new).elements = new.toList ∧ (x.setItems new).frame = x.frame := by
  cases h <;> exact ⟨rfl, rfl⟩

end Obj

/-- The byte that a value stores in a string. -/
def storedByte? : Value → Option UInt8
  | .char c => if c < 128 then some c else none
  | .int n => if 0 ≤ n.toInt ∧ n.toInt < 128 then some (UInt8.ofNat n.toInt.toNat) else none
  | _ => none

theorem Utf8.utf8EncodeChar_ofNat {n : Nat} (h : n < 128) :
    String.utf8EncodeChar (Char.ofNat n) = [UInt8.ofNat n] := by
  have hv : n.isValidChar := .inl (by omega)
  rw [String.utf8EncodeChar_eq_singleton (utf8Size_eq_one_iff.2 (isAscii_ofNat h)), Char.ofNat,
    dif_pos hv]
  rfl

theorem storedChar_eq_ok {v : Value} {c : Char} (h : storedChar v = .ok c) :
    ∃ b, storedByte? v = some b ∧ String.utf8EncodeChar c = [b] := by
  cases v with
  | char b =>
    simp only [storedChar] at h
    split at h
    · rename_i hb
      cases h
      refine ⟨b, if_pos hb, ?_⟩
      rw [byteChar, Utf8.utf8EncodeChar_ofNat (UInt8.lt_iff_toNat_lt.1 hb), UInt8.ofNat_toNat]
    · cases h
  | int n =>
    simp only [storedChar] at h
    split at h
    · rename_i hn
      cases h
      exact ⟨_, if_pos hn, Utf8.utf8EncodeChar_ofNat (by omega)⟩
    · cases h
  | _ => cases h

theorem storedChar_of_some {v : Value} {b : UInt8} (h : storedByte? v = some b) :
    ∃ c, storedChar v = .ok c := by
  cases v with
  | char b =>
    simp only [storedByte?, Option.ite_none_right_eq_some] at h
    exact ⟨_, if_pos h.1⟩
  | int n =>
    simp only [storedByte?, Option.ite_none_right_eq_some] at h
    exact ⟨_, if_pos h.1⟩
  | _ => cases h

namespace Heap

/-- How strings keep their elements. -/
def byteKind (h : Heap) : SequenceKind where
  stored v := (storedByte? v).map .char
  joined v := (Utf8.bytes (h.display v)).map .char
  found v ys := ∃ t, h.needle v = .ok t ∧ (Utf8.bytes t).map .char <+: ys

/-- How arrays and records keep their elements. -/
def valueKind (h : Heap) : SequenceKind where
  stored := some
  joined v := [v]
  found v ys := ∃ e zs, ys = e :: zs ∧ h.sameContent e v = true

/-- How an object keeps its elements. -/
def sequenceKind (h : Heap) : Obj → SequenceKind
  | .text _ => h.byteKind
  | _ => h.valueKind

theorem sequenceKind_of_holds {x : Obj} {items : Array Value} (h : Heap) (hx : x.Holds items) :
    h.sequenceKind x = h.valueKind := by
  cases hx <;> rfl

/-- Where a text is found in a string. -/
theorem firstPlace_text {h : Heap} {v : Value} {t : String} (ht : h.needle v = .ok t) (s : String) :
    FirstPlace (h.byteKind.found v) (Obj.text s).elements (Utf8.offsetOf? t.toList s.toList) := by
  refine FirstPlace.map (fun ys => ?_) (Utf8.firstPlace_offsetOf? t.toList s.toList)
  have hchar : Function.Injective Value.char := fun _ _ h => Value.char.inj h
  constructor
  · rintro ⟨u, hu, hpre⟩
    cases ht.symm.trans hu
    exact (List.prefix_map_iff_of_injective hchar).1 hpre
  · exact fun hpre => ⟨t, ht, hpre.map _⟩

/-- Where a value is found among the values of an array or a record. -/
theorem firstPlace_values {x : Obj} {items : Array Value} (h : Heap) (hx : x.Holds items)
    (v : Value) : FirstPlace ((h.sequenceKind x).found v) x.elements
      (items.toList.findIdx? (h.sameContent · v)) := by
  rw [h.sequenceKind_of_holds hx, hx.elements]
  exact .findIdx? _ _

theorem setObject_self {h : Heap} {o : ObjId} {x : Obj} (hx : h.objects[o.index]? = some x) :
    h.setObject o x = h := by
  obtain ⟨ho, rfl⟩ := Array.getElem?_eq_some_iff.1 hx
  simp [setObject, Array.setIfInBounds, ho]

end Heap

/-! ## Functions that succeed -/

namespace Store

variable {address : UInt64} {o : ObjId} {x : Obj} {f : Function} {s s' : Store} {rest : List Value}

/-- What a function of the object `x` leaves behind in a store, below whose operands were `rest`:
    its result and the object with other elements, or a new object beside all the old ones. -/
def Leaves (o : ObjId) (x : Obj) (rest : List Value) (s : Store) :
    Yield → List Value → Store → Prop
  | .values vs, content, s' => ∃ y : Obj, y.elements = content ∧ y.frame = x.frame ∧
      s' = { s.withItems (vs.reverse ++ rest) with heap := s.heap.setObject o y }
  | .sequence zs, content, s' => content = x.elements ∧ ∃ z : Obj, z.elements = zs ∧
      z.type = x.type ∧
      s' = { s.withItems (.obj ⟨s.heap.objects.size⟩ :: rest) with
        heap := (s.heap.addObject z).2 }

/-- A function succeeds as an operation on the elements of its object. -/
def DoneAs (o : ObjId) (x : Obj) (f : Function) (s s' : Store) : Prop :=
  ∃ operands result content rest,
    (s.heap.sequenceKind x).Does x.elements f operands result content ∧
    s.data.items = operands ++ rest ∧ Leaves o x rest s result content s'

/-- Functions that only read the object. -/
theorem DoneAs.of_read {operands vs : List Value} (hx : s.heap.objects[o.index]? = some x)
    (hdoes : (s.heap.sequenceKind x).Does x.elements f operands (.values vs) x.elements)
    (hd : s.data.items = operands ++ rest) (hs' : s' = s.withItems (vs.reverse ++ rest)) :
    DoneAs o x f s s' :=
  ⟨operands, _, _, rest, hdoes, hd, x, rfl, rfl, by rw [hs', Heap.setObject_self hx]; rfl⟩

/-- Functions that change the object. -/
theorem DoneAs.of_replace {operands content : List Value} {y : Obj}
    (hs' : replace o y (s.withItems rest) = .ok () s')
    (hdoes : (s.heap.sequenceKind x).Does x.elements f operands (.values []) content)
    (hd : s.data.items = operands ++ rest) (hy : y.elements = content)
    (hframe : y.frame = x.frame) : DoneAs o x f s s' := by
  cases hs'
  exact ⟨operands, _, _, rest, hdoes, hd, y, hy, hframe, rfl⟩

/-- Functions that make an object. -/
theorem DoneAs.of_new {operands zs : List Value} {z : Obj}
    (hs' : pushNew z (s.withItems rest) = .ok () s')
    (hdoes : (s.heap.sequenceKind x).Does x.elements f operands (.sequence zs) x.elements)
    (hd : s.data.items = operands ++ rest) (hz : z.elements = zs) (htype : z.type = x.type) :
    DoneAs o x f s s' :=
  ⟨operands, _, _, rest, hdoes, hd, rfl, z, hz, htype, pushNew_eq_ok hs'⟩

theorem checkIndex_eq_ok {n : Int64} {length i : Nat} (h : checkIndex n length = .ok i) :
    n.toInt = i ∧ i < length := by
  unfold checkIndex at h
  split at h
  · cases h
    omega
  · cases h

theorem checkRange_eq_ok {start count : Int64} {length i j : Nat}
    (h : checkRange start count length = .ok (i, j)) :
    start.toInt = i ∧ count.toInt = (j - i : Nat) ∧ i ≤ j ∧ j ≤ length := by
  unfold checkRange at h
  split at h
  · cases h
  · split at h
    · cases h
    · cases h
      omega

theorem invokeText_doneAs {t : String} (hx : s.heap.objects[o.index]? = some (.text t))
    (hhash : f ≠ .hash) (himpl : f ≠ .implements) (h : invokeText o t f s = .ok () s') :
    DoneAs o (.text t) f s s' := by
  have hlen := Obj.length_elements_text t
  cases f with
  | size =>
    refine .of_read hx .size (List.nil_append _).symm ?_
    rw [hlen]
    exact push_eq_ok h
  | get =>
    obtain ⟨u, n, rest, hd, hu, h⟩ := of_popInt_bind_ok h
    obtain ⟨i, hcheck, h⟩ := of_lift_bind_ok h
    obtain ⟨hi, hlt⟩ := checkIndex_eq_ok hcheck
    have hlt : i < (Utf8.bytes t).length := by rwa [Utf8.length_bytes]
    refine .of_read hx (.get hu hi ?_) hd (push_eq_ok h)
    simp [Obj.elements, hlt]
  | set =>
    obtain ⟨u, n, rest₁, hd, hu, h⟩ := of_popInt_bind_ok h
    obtain ⟨v, rest, rfl, h⟩ := of_pop_bind_ok h
    obtain ⟨c, hc, h⟩ := of_lift_bind_ok h
    obtain ⟨i, hcheck, h⟩ := of_lift_bind_ok h
    obtain ⟨hi, hlt⟩ := checkIndex_eq_ok hcheck
    obtain ⟨b, hb, henc⟩ := storedChar_eq_ok hc
    cases hcs : Utf8.splice? i (i + 1) [c] t.toList with
    | none =>
      rw [hcs] at h
      cases h
    | some cs =>
      rw [hcs] at h
      refine .of_replace h (.set hu hi (hlen ▸ hlt) (congrArg (Option.map Value.char) hb)) hd ?_ rfl
      have hnew : Utf8.encode [c] = [b] := by rw [Utf8.encode, List.flatMap_singleton, henc]
      have hlt : i < (Utf8.encode t.toList).length := (Utf8.length_bytes t).symm ▸ hlt
      rw [Obj.elements, Utf8.bytes_ofList, Utf8.encode_of_splice? (Nat.le_succ i) hcs, hnew,
        List.append_assoc, List.singleton_append,
        ← (List.set_eq_take_append_cons_drop.trans (if_pos hlt) : _ = _), List.map_set]
      rfl
  | contains =>
    obtain ⟨v, rest, hd, h⟩ := of_pop_bind_ok h
    obtain ⟨needle, hneedle, h⟩ := of_lift_bind_ok (of_get_bind_ok h)
    exact .of_read hx (.contains (Heap.firstPlace_text hneedle t)) hd (push_eq_ok h)
  | indexOf =>
    obtain ⟨v, rest, hd, h⟩ := of_pop_bind_ok h
    obtain ⟨needle, hneedle, h⟩ := of_lift_bind_ok (of_get_bind_ok h)
    refine .of_read hx (.indexOf (Heap.firstPlace_text hneedle t)) hd ?_
    cases hi : Utf8.offsetOf? needle.toList t.toList with
    | none | some i =>
      rw [hi] at h
      exact push_eq_ok h
  | subRange =>
    obtain ⟨u, count, rest₁, hd, hu, h⟩ := of_popInt_bind_ok h
    obtain ⟨v, start, rest, rfl, hv, h⟩ := of_popInt_bind_ok h
    obtain ⟨⟨i, j⟩, hcheck, h⟩ := of_lift_bind_ok h
    obtain ⟨hstart, hcount, hij, hj⟩ := checkRange_eq_ok hcheck
    dsimp only at h
    cases hcs : Utf8.slice? i j t.toList with
    | none =>
      rw [hcs] at h
      cases h
    | some cs =>
      rw [hcs] at h
      refine .of_new h (.subRange hu hv hstart hcount (by omega)) hd ?_ rfl
      rw [Obj.elements, Utf8.bytes_ofList, Utf8.encode_of_slice? hcs, List.map_take, List.map_drop]
      rfl
  | deconstruct =>
    obtain ⟨_, s₁, hall, h⟩ := of_bind_ok h
    obtain rfl := pushAll_eq_ok hall
    refine .of_read hx .deconstruct (List.nil_append _).symm ?_
    rw [hlen, push_eq_ok h, List.reverse_append]
    rfl
  | append =>
    obtain ⟨v, rest, hd, h⟩ := of_pop_bind_ok h
    refine .of_replace (of_get_bind_ok h) .append hd ?_ rfl
    rw [Obj.elements, Utf8.bytes_append, List.map_append]
    rfl
  | hash => exact (hhash rfl).elim
  | implements => exact (himpl rfl).elim
  | close | read | readLine | readChar | eof => cases h

theorem invokeItems_doneAs {items : Array Value} (hx : s.heap.objects[o.index]? = some x)
    (hitems : x.Holds items) (hhash : f ≠ .hash) (himpl : f ≠ .implements)
    (h : invokeItems address o x items f s = .ok () s') : DoneAs o x f s s' := by
  have hlen := hitems.length
  have hkind := s.heap.sequenceKind_of_holds hitems
  cases f with
  | size =>
    refine .of_read hx .size (List.nil_append _).symm ?_
    rw [hlen]
    exact push_eq_ok h
  | get =>
    obtain ⟨u, n, rest, hd, hu, h⟩ := of_popInt_bind_ok h
    obtain ⟨i, hcheck, h⟩ := of_lift_bind_ok h
    obtain ⟨hi, hlt⟩ := checkIndex_eq_ok hcheck
    refine .of_read hx (.get hu hi ?_) hd (push_eq_ok h)
    simp [hitems.elements, hlt]
  | set =>
    obtain ⟨u, n, rest₁, hd, hu, h⟩ := of_popInt_bind_ok h
    obtain ⟨v, rest, rfl, h⟩ := of_pop_bind_ok h
    obtain ⟨i, hcheck, h⟩ := of_lift_bind_ok h
    obtain ⟨hi, hlt⟩ := checkIndex_eq_ok hcheck
    obtain ⟨helements, hframe⟩ := hitems.setItems (items.setIfInBounds i v)
    refine .of_replace h (.set (w := v) hu hi (hlen ▸ hlt) (by rw [hkind]; rfl)) hd ?_ hframe
    rw [helements, Array.toList_setIfInBounds, hitems.elements]
  | contains =>
    obtain ⟨v, rest, hd, h⟩ := of_pop_bind_ok h
    refine .of_read hx (.contains (s.heap.firstPlace_values hitems v)) hd ?_
    rw [List.findIdx?_isSome, Array.any_toList]
    exact push_eq_ok h
  | indexOf =>
    obtain ⟨v, rest, hd, h⟩ := of_pop_bind_ok h
    refine .of_read hx (.indexOf (s.heap.firstPlace_values hitems v)) hd ?_
    have h := of_get_bind_ok h
    dsimp only [withItems_heap] at h
    cases hi : items.toList.findIdx? (s.heap.sameContent · v) with
    | none | some i =>
      rw [hi] at h
      exact push_eq_ok h
  | deconstruct =>
    obtain ⟨_, s₁, hall, h⟩ := of_bind_ok h
    obtain rfl := pushAll_eq_ok hall
    refine .of_read hx .deconstruct (List.nil_append _).symm ?_
    rw [hlen, hitems.elements, push_eq_ok h, List.reverse_append]
    rfl
  | hash => exact (hhash rfl).elim
  | implements => exact (himpl rfl).elim
  | subRange | append | close | read | readLine | readChar | eof => cases h

theorem invokeArray_doneAs {items : Array Value} {v : Bool}
    (hx : s.heap.objects[o.index]? = some (.array items v)) (hhash : f ≠ .hash)
    (himpl : f ≠ .implements) (h : invokeArray address o (.array items v) items f s = .ok () s') :
    DoneAs o (.array items v) f s s' := by
  have hitems (h : invokeItems address o (.array items v) items f s = .ok () s') :
      DoneAs o (.array items v) f s s' := invokeItems_doneAs hx .array hhash himpl h
  cases f with
  | subRange =>
    obtain ⟨u, count, rest₁, hd, hu, h⟩ := of_popInt_bind_ok h
    obtain ⟨w, start, rest, rfl, hw, h⟩ := of_popInt_bind_ok h
    obtain ⟨⟨i, j⟩, hcheck, h⟩ := of_lift_bind_ok h
    obtain ⟨hstart, hcount, hij, hj⟩ := checkRange_eq_ok hcheck
    refine .of_new h (.subRange hu hw hstart hcount ?_) hd ?_ rfl
    · rw [Obj.Holds.array.length]
      omega
    · rw [Obj.ofItems, Obj.elements, Array.toList_extract, List.extract_eq_take_drop]
      rfl
  | append =>
    obtain ⟨w, rest, hd, h⟩ := of_pop_bind_ok h
    refine .of_replace h .append hd ?_ rfl
    exact Array.toList_push
  | _ => exact hitems h

theorem invoke_eq (hx : s.heap.objects[o.index]? = some x) :
    invoke address o f s = (match x with
      | .text t => invokeText o t f
      | .array items v => invokeArray address o (.array items v) items f
      | .record t d items v => invokeItems address o (.record t d items v) items f) s := by
  have hobject : s.heap.object o = x := by rw [Heap.object, hx, Option.getD_some]
  rw [← hobject]
  rfl

/-- **A function of an object that succeeds is an operation on the list of its elements.** -/
theorem invoke_doneAs (hx : s.heap.objects[o.index]? = some x) (hhash : f ≠ .hash)
    (himpl : f ≠ .implements) (h : invoke address o f s = .ok () s') : DoneAs o x f s s' := by
  rw [invoke_eq hx] at h
  cases x with
  | text t => exact invokeText_doneAs hx hhash himpl h
  | array items v => exact invokeArray_doneAs hx hhash himpl h
  | record t d items v => exact invokeItems_doneAs hx .record hhash himpl h

/-! ## When functions succeed -/

/-- The step succeeds. -/
def Succeeds (act : StoreM Unit) (s : Store) : Prop :=
  ∃ s', act s = .ok () s'

/-- The step fails with the error. -/
def Fails (act : StoreM Unit) (s : Store) (e : Error) : Prop :=
  ∃ s', act s = .error e s'

theorem Fails.not_succeeds {act : StoreM Unit} {e : Error} (h : Fails act s e) :
    ¬ Succeeds act s := by
  obtain ⟨s₁, h₁⟩ := h
  rintro ⟨s₂, h₂⟩
  rw [h₁] at h₂
  cases h₂

theorem succeeds_iff {act : StoreM Unit} {e : Error} {p : Prop} (h : p → Succeeds act s)
    (h' : ¬p → Fails act s e) : Succeeds act s ↔ p :=
  ⟨fun hs => Classical.not_not.1 fun hp => (h' hp).not_succeeds hs, h⟩

theorem checkRange_eq {start count : Int64} {length : Nat}
    (h : 0 ≤ start.toInt ∧ 0 ≤ count.toInt ∧ start.toInt + count.toInt ≤ length) :
    ∃ i j, checkRange start count length = .ok (i, j) ∧ i ≤ j ∧ j ≤ length := by
  refine ⟨start.toInt.toNat, (start.toInt + count.toInt).toNat, ?_, by omega, by omega⟩
  rw [checkRange, if_neg (by omega), if_neg (by omega)]

theorem checkRange_eq_error {start count : Int64} {length : Nat}
    (h : ¬(0 ≤ start.toInt ∧ 0 ≤ count.toInt ∧ start.toInt + count.toInt ≤ length)) :
    ∃ n, checkRange start count length = .error (.indexOutOfRange n length) := by
  by_cases hstart : 0 ≤ start.toInt ∧ start.toInt ≤ length
  · rw [checkRange, if_neg (Classical.not_not.2 hstart), if_pos (by omega)]
    exact ⟨_, rfl⟩
  · rw [checkRange, if_pos hstart]
    exact ⟨_, rfl⟩

theorem Succeeds.pushNew (z : Obj) (h : s.data.depth < s.data.capacity) :
    Succeeds (Store.pushNew z) s :=
  ⟨_, push_of_lt (s := { s with heap := (s.heap.addObject z).2 }) _ h⟩

/-- Getting an element checks the index first. -/
theorem get_eq {u : Value} {n : Int64} (hx : s.heap.objects[o.index]? = some x)
    (hd : s.data.items = u :: rest) (hu : u.toInt = .ok n) :
    ∃ v : Nat → Value, invoke address o .get s =
      (lift (checkIndex n x.elements.length) >>= fun i => push (v i)) (s.withItems rest) := by
  rw [invoke_eq hx]
  cases x with
  | text t =>
    rw [Obj.length_elements_text]
    exact ⟨_, popInt_bind hd hu⟩
  | array items | record _ _ items => exact ⟨_, popInt_bind hd hu⟩

/-- Setting an element checks the index before the object is touched. -/
theorem set_eq {u v w : Value} {n : Int64} (hx : s.heap.objects[o.index]? = some x)
    (hd : s.data.items = u :: v :: rest) (hu : u.toInt = .ok n)
    (hv : (s.heap.sequenceKind x).stored v = some w) :
    ∃ act : Nat → StoreM Unit, invoke address o .set s =
      (lift (checkIndex n x.elements.length) >>= act) (s.withItems rest) ∧
      (x.Plain → ∀ i, i < x.elements.length → Succeeds (act i) (s.withItems rest)) := by
  rw [invoke_eq hx]
  cases x with
  | text t =>
    obtain ⟨b, hb, -⟩ := Option.map_eq_some_iff.1 hv
    obtain ⟨c, hc⟩ := storedChar_of_some hb
    rw [Obj.length_elements_text]
    refine ⟨_, (popInt_bind hd hu).trans ((pop_bind rfl).trans (lift_bind hc)), ?_⟩
    intro hascii i hi
    have hle : i + 1 ≤ t.toList.length := by rwa [AsciiText.utf8ByteSize hascii] at hi
    rw [Utf8.splice?_ascii [c] hascii (Nat.le_succ i) hle]
    exact ⟨_, rfl⟩
  | array items | record _ _ items =>
    exact ⟨_, (popInt_bind hd hu).trans (pop_bind rfl), fun _ _ _ => ⟨_, rfl⟩⟩

/-- Cutting out a part checks the range before anything is made. -/
theorem subRange_eq {u v : Value} {start count : Int64} (hx : s.heap.objects[o.index]? = some x)
    (himpl : x.implements .subRange = true) (hd : s.data.items = u :: v :: rest)
    (hu : u.toInt = .ok count) (hv : v.toInt = .ok start) (hroom : rest.length < s.data.capacity) :
    ∃ act : Nat × Nat → StoreM Unit, invoke address o .subRange s =
      (lift (checkRange start count x.elements.length) >>= act) (s.withItems rest) ∧
      (x.Plain → ∀ i j, i ≤ j → j ≤ x.elements.length →
        Succeeds (act (i, j)) (s.withItems rest)) := by
  rw [invoke_eq hx]
  cases x with
  | text t =>
    rw [Obj.length_elements_text]
    refine ⟨_, (popInt_bind hd hu).trans (popInt_bind rfl hv), ?_⟩
    intro hascii i j hij hj
    rw [AsciiText.utf8ByteSize hascii] at hj
    dsimp only
    rw [Utf8.slice?_ascii hascii hij hj]
    exact .pushNew _ hroom
  | array items =>
    exact ⟨_, (popInt_bind hd hu).trans (popInt_bind rfl hv), fun _ _ _ _ _ => .pushNew _ hroom⟩
  | record t d items => cases himpl

theorem get_spec {u : Value} {n : Int64} (hx : s.heap.objects[o.index]? = some x)
    (hfits : s.data.Fits) (hd : s.data.items = u :: rest) (hu : u.toInt = .ok n) :
    (Succeeds (invoke address o .get) s ↔ 0 ≤ n.toInt ∧ n.toInt < x.elements.length) ∧
    (¬(0 ≤ n.toInt ∧ n.toInt < x.elements.length) →
      Fails (invoke address o .get) s (.indexOutOfRange n.toInt x.elements.length)) := by
  have hroom : rest.length < s.data.capacity := by
    rwa [Stack.Fits, Stack.depth, hd] at hfits
  obtain ⟨v, hget⟩ := get_eq hx hd hu
  have herror : ¬(0 ≤ n.toInt ∧ n.toInt < x.elements.length) →
      Fails (invoke address o .get) s (.indexOutOfRange n.toInt x.elements.length) := fun h =>
    ⟨_, hget.trans (lift_bind_error (if_neg h))⟩
  refine ⟨succeeds_iff (fun h => ?_) herror, herror⟩
  exact ⟨_, (hget.trans (lift_bind (if_pos h))).trans (push_of_lt _ hroom)⟩

theorem set_spec {u v w : Value} {n : Int64} (hx : s.heap.objects[o.index]? = some x)
    (hd : s.data.items = u :: v :: rest) (hu : u.toInt = .ok n)
    (hv : (s.heap.sequenceKind x).stored v = some w) :
    (x.Plain → (Succeeds (invoke address o .set) s ↔ 0 ≤ n.toInt ∧ n.toInt < x.elements.length)) ∧
    (¬(0 ≤ n.toInt ∧ n.toInt < x.elements.length) →
      Fails (invoke address o .set) s (.indexOutOfRange n.toInt x.elements.length)) := by
  obtain ⟨act, hset, hact⟩ := set_eq hx hd hu hv
  have herror : ¬(0 ≤ n.toInt ∧ n.toInt < x.elements.length) →
      Fails (invoke address o .set) s (.indexOutOfRange n.toInt x.elements.length) := fun h =>
    ⟨_, hset.trans (lift_bind_error (if_neg h))⟩
  refine ⟨fun hplain => succeeds_iff (fun h => ?_) herror, herror⟩
  obtain ⟨s', hs'⟩ := hact hplain n.toInt.toNat (by omega)
  exact ⟨s', (hset.trans (lift_bind (if_pos h))).trans hs'⟩

theorem subRange_spec {u v : Value} {start count : Int64}
    (hx : s.heap.objects[o.index]? = some x) (himpl : x.implements .subRange = true)
    (hfits : s.data.Fits) (hd : s.data.items = u :: v :: rest) (hu : u.toInt = .ok count)
    (hv : v.toInt = .ok start) :
    (x.Plain → (Succeeds (invoke address o .subRange) s ↔
      0 ≤ start.toInt ∧ 0 ≤ count.toInt ∧ start.toInt + count.toInt ≤ x.elements.length)) ∧
    (¬(0 ≤ start.toInt ∧ 0 ≤ count.toInt ∧ start.toInt + count.toInt ≤ x.elements.length) →
      ∃ n, Fails (invoke address o .subRange) s (.indexOutOfRange n x.elements.length)) := by
  have hroom : rest.length < s.data.capacity := by
    rw [Stack.Fits, Stack.depth, hd] at hfits
    exact Nat.lt_of_succ_lt hfits
  obtain ⟨act, hcut, hact⟩ := subRange_eq hx himpl hd hu hv hroom
  have herror : ¬(0 ≤ start.toInt ∧ 0 ≤ count.toInt ∧
      start.toInt + count.toInt ≤ x.elements.length) →
      ∃ n, Fails (invoke address o .subRange) s (.indexOutOfRange n x.elements.length) := fun h => by
    obtain ⟨n, hn⟩ := checkRange_eq_error h
    exact ⟨n, _, hcut.trans (lift_bind_error hn)⟩
  refine ⟨fun hplain => ⟨fun hs => ?_, fun h => ?_⟩, herror⟩
  · refine Classical.not_not.1 fun h => ?_
    obtain ⟨n, hn⟩ := herror h
    exact hn.not_succeeds hs
  · obtain ⟨i, j, hij, hle, hj⟩ := checkRange_eq h
    obtain ⟨s', hs'⟩ := hact hplain i j hle hj
    exact ⟨s', (hcut.trans (lift_bind hij)).trans hs'⟩

/-- With a start and a count on top of the stack, the part `ys` is cut out of the object. -/
def Cuts (address : UInt64) (o : ObjId) (x : Obj) (start count : Int64) (s : Store) (ys : List Value) : Prop :=
  ∀ u v rest, s.data.items = u :: v :: rest → u.toInt = .ok count → v.toInt = .ok start →
    ∃ s', invoke address o .subRange s = .ok () s' ∧ Leaves o x rest s (.sequence ys) x.elements s'

theorem cuts_of_le {start count : Int64} (hx : s.heap.objects[o.index]? = some x)
    (himpl : x.implements .subRange = true) (hplain : x.Plain) (hfits : s.data.Fits)
    (hstart : 0 ≤ start.toInt) (hcount : 0 ≤ count.toInt)
    (hle : start.toInt + count.toInt ≤ x.elements.length) :
    Cuts address o x start count s ((x.elements.drop start.toInt.toNat).take count.toInt.toNat) := by
  intro u v rest hd hu hv
  obtain ⟨s', hs'⟩ := ((subRange_spec hx himpl hfits hd hu hv).1 hplain).2 ⟨hstart, hcount, hle⟩
  refine ⟨s', hs', ?_⟩
  obtain ⟨operands, result, content, rest', hdoes, hd', hleaves⟩ :=
    invoke_doneAs hx (by decide) (by decide) hs'
  cases hdoes with
  | subRange hu' hv' hi hn _ =>
    rw [hd, List.cons_append, List.cons_append, List.nil_append, List.cons.injEq,
      List.cons.injEq] at hd'
    obtain ⟨rfl, rfl, rfl⟩ := hd'
    cases hu.symm.trans hu'
    cases hv.symm.trans hv'
    rw [hi, hn]
    exact hleaves

/-- Two parts that meet make up the whole. -/
theorem cuts_append {t : Store} {k c : Int64} (hx : s.heap.objects[o.index]? = some x)
    (hxt : t.heap.objects[o.index]? = some x) (himpl : x.implements .subRange = true)
    (hplain : x.Plain) (hfits : s.data.Fits) (hfitst : t.data.Fits) (hk : 0 ≤ k.toInt)
    (hc : 0 ≤ c.toInt) (hkc : k.toInt + c.toInt = x.elements.length) :
    ∃ ys zs, Cuts address o x 0 k s ys ∧ Cuts address o x k c t zs ∧ ys ++ zs = x.elements := by
  have hzero : (0 : Int64).toInt = 0 := rfl
  refine ⟨_, _, cuts_of_le hx himpl hplain hfits (Int.le_of_eq hzero.symm) hk (by omega),
    cuts_of_le hxt himpl hplain hfitst hk hc (by omega), ?_⟩
  have hrest : c.toInt.toNat = (x.elements.drop k.toInt.toNat).length := by
    rw [List.length_drop]
    omega
  rw [hzero, Int.toNat_zero, List.drop_zero, hrest, List.take_length, List.take_append_drop]

/-- What is not found has no place. -/
theorem indexOf_spec {s₁ s₂ : Store} (hx : s.heap.objects[o.index]? = some x)
    (hlen : x.elements.length ≤ Int64.maxValue.toInt) (hcontains : invoke address o .contains s = .ok () s₁)
    (hindex : invoke address o .indexOf s = .ok () s₂) :
    s₂.data.items.head? = some (.int (-1)) ↔ s₁.data.items.head? = some (.bool false) := by
  obtain ⟨_, _, _, _, hdoes₁, hd₁, hleaves₁⟩ := invoke_doneAs hx (by decide) (by decide) hcontains
  obtain ⟨_, _, _, _, hdoes₂, hd₂, hleaves₂⟩ := invoke_doneAs hx (by decide) (by decide) hindex
  cases hdoes₁ with
  | @contains v place? h₁ =>
    cases hdoes₂ with
    | indexOf h₂ =>
      obtain ⟨rfl, rfl⟩ := List.cons.inj (hd₁.symm.trans hd₂)
      obtain rfl := h₁.unique h₂
      obtain ⟨_, _, _, rfl⟩ := hleaves₁
      obtain ⟨_, _, _, rfl⟩ := hleaves₂
      cases place? with
      | none => exact ⟨fun _ => rfl, fun _ => rfl⟩
      | some i =>
        have hi : Int64.ofNat i ≠ -1 := by
          intro h
          have h := congrArg Int64.toInt h
          have hmax := Int64.toInt_maxValue
          rw [Int64.toInt_ofNat_of_lt (by have := h₁.1; omega)] at h
          have hneg : (-1 : Int64).toInt = -1 := rfl
          omega
        constructor
        · intro h
          exact (hi (Value.int.inj (Option.some.inj h))).elim
        · intro h
          cases h

/-- **Objects behave as sequences.**  A function that succeeds is an operation on the list of the
    elements of its object, and something is found exactly if it has a place.  Getting and setting
    an element succeed for the indices of the list, cutting out a part for the ranges of it, and
    else an index is out of range; the parts before and from a place on make up the whole.  A
    function that fails leaves the object as it was. -/
theorem sequences (address : UInt64) (hx : s.heap.objects[o.index]? = some x) :
    (∀ f s', f ≠ .hash → f ≠ .implements → invoke address o f s = .ok () s' → DoneAs o x f s s') ∧
    (∀ s₁ s₂, x.elements.length ≤ Int64.maxValue.toInt → invoke address o .contains s = .ok () s₁ →
      invoke address o .indexOf s = .ok () s₂ →
      (s₂.data.items.head? = some (.int (-1)) ↔ s₁.data.items.head? = some (.bool false))) ∧
    (∀ u n rest, s.data.Fits → s.data.items = u :: rest → u.toInt = .ok n →
      (Succeeds (invoke address o .get) s ↔ 0 ≤ n.toInt ∧ n.toInt < x.elements.length) ∧
      (¬(0 ≤ n.toInt ∧ n.toInt < x.elements.length) →
        Fails (invoke address o .get) s (.indexOutOfRange n.toInt x.elements.length))) ∧
    (∀ u v w n rest, s.data.items = u :: v :: rest → u.toInt = .ok n →
      (s.heap.sequenceKind x).stored v = some w →
      (x.Plain → (Succeeds (invoke address o .set) s ↔ 0 ≤ n.toInt ∧ n.toInt < x.elements.length)) ∧
      (¬(0 ≤ n.toInt ∧ n.toInt < x.elements.length) →
        Fails (invoke address o .set) s (.indexOutOfRange n.toInt x.elements.length))) ∧
    (∀ u v start count rest, x.implements .subRange = true → s.data.Fits →
      s.data.items = u :: v :: rest → u.toInt = .ok count → v.toInt = .ok start →
      (x.Plain → (Succeeds (invoke address o .subRange) s ↔
        0 ≤ start.toInt ∧ 0 ≤ count.toInt ∧ start.toInt + count.toInt ≤ x.elements.length)) ∧
      (¬(0 ≤ start.toInt ∧ 0 ≤ count.toInt ∧ start.toInt + count.toInt ≤ x.elements.length) →
        ∃ n, Fails (invoke address o .subRange) s (.indexOutOfRange n x.elements.length))) ∧
    (∀ t (k c : Int64), t.heap.objects[o.index]? = some x → x.implements .subRange = true →
      x.Plain → s.data.Fits → t.data.Fits → 0 ≤ k.toInt → 0 ≤ c.toInt →
      k.toInt + c.toInt = x.elements.length →
      ∃ ys zs, Cuts address o x 0 k s ys ∧ Cuts address o x k c t zs ∧ ys ++ zs = x.elements) ∧
    ∀ f e s', invoke address o f s = .error e s' → s'.heap.objects[o.index]? = some x := by
  refine ⟨fun f s' hhash himpl h => invoke_doneAs hx hhash himpl h,
    fun s₁ s₂ hlen h₁ h₂ => indexOf_spec hx hlen h₁ h₂,
    fun u n rest hfits hd hu => get_spec hx hfits hd hu,
    fun u v w n rest hd hu hv => set_spec hx hd hu hv,
    fun u v start count rest himpl hfits hd hu hv => subRange_spec hx himpl hfits hd hu hv,
    fun t k c hxt himpl hplain hfits hfitst hk hc hkc =>
      cuts_append hx hxt himpl hplain hfits hfitst hk hc hkc, fun f e s' h => ?_⟩
  obtain ⟨ho, -⟩ := Array.getElem?_eq_some_iff.1 hx
  rw [invoke_careful o f s e s' h o.index ho, hx]

/-- The last two of the three characters of a string. -/
theorem sequences_of_abc :
    let s : Store := ⟨{ objects := #[.text "abc"] }, ⟨.data, 2, [.int 2, .int 1]⟩⟩
    s.heap.objects[0]? = some (.text "abc") ∧ Succeeds (invoke 0 ⟨0⟩ .subRange) s := by
  intro s
  have hx : s.heap.objects[0]? = some (.text "abc") := rfl
  refine ⟨hx, ?_⟩
  have hcut := (sequences (s := s) (o := ⟨0⟩) 0 hx).2.2.2.2.1 (.int 2) (.int 1) 1 2 [] rfl
    (Nat.le_refl 2) rfl rfl rfl
  have hascii : AsciiText "abc" := by decide
  exact (hcut.1 hascii).2 (by decide)

end Store
end ThreadedForth
