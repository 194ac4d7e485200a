/-
  Definitions of structs.
-/
import ThreadedForth.Proofs.Definitions
import ThreadedForth.Proofs.LineReading
import ThreadedForth.Proofs.Operands
import ThreadedForth.Proofs.Registry

namespace ThreadedForth

/-! ## Tokens -/

namespace Line

/-- Every line has some tokens left. -/
theorem exists_yields (l : Line) : ∃ ts, l.Yields ts := by
  induction hn : l.rest.length using Nat.strongRecOn generalizing l with
  | ind n ih =>
    cases ht : l.advance.token? with
    | none => exact ⟨[], ht⟩
    | some t =>
      obtain ⟨ts, hts⟩ := ih _ (hn ▸ rest_advance_lt ht) l.advance rfl
      exact ⟨t :: ts, ht, hts⟩

/-- There is one way to read a line. -/
theorem Yields.unique {l : Line} {ts us : List String} (h : l.Yields ts) (h' : l.Yields us) :
    ts = us := by
  induction ts generalizing l us with
  | nil =>
    cases us with
    | nil => rfl
    | cons u us => cases h.symm.trans h'.1
  | cons t ts ih =>
    cases us with
    | nil => cases h.1.symm.trans h'
    | cons u us =>
      cases h.1.symm.trans h'.1
      rw [ih h.2 h'.2]

end Line

/-- The word that ends the fields of a struct. -/
def fieldsEnd : String := ";struct"

namespace ObjectWord

variable {m : Machine} {ts fields rest : List String}

theorem nextToken_eq (m : Machine) :
    M.nextToken m = .ok m.line.advance.token? (m.atLine m.line.advance) :=
  rfl

theorem nextFields_open (h : m.line.advance.token? = none) (n : Nat) :
    nextFields (n + 1) m = .ok none (m.atLine m.line.advance) := by
  rw [nextFields, M.bind_ok (nextToken_eq m), h]
  rfl

theorem nextFields_close (h : m.line.advance.token? = some fieldsEnd) (n : Nat) :
    nextFields (n + 1) m = .ok (some []) (m.atLine m.line.advance) := by
  rw [nextFields, M.bind_ok (nextToken_eq m), h]
  rfl

theorem nextFields_field {t : String} (h : m.line.advance.token? = some t) (ht : t ≠ fieldsEnd)
    (n : Nat) : nextFields (n + 1) m =
      (do pure ((← nextFields n).map (t :: ·)) : M (Option (List String)))
        (m.atLine m.line.advance) := by
  rw [nextFields, M.bind_ok (nextToken_eq m)]
  generalize m.line.advance.token? = token? at h
  split
  · cases h
  · cases h
    exact absurd rfl ht
  · cases h
    rfl

/-- A line without the end of the fields. -/
theorem nextFields_unended (hl : m.line.Yields ts) (hs : fieldsEnd ∉ ts) (n : Nat) :
    ∃ l, nextFields n m = .ok none (m.atLine l) := by
  induction ts generalizing m n with
  | nil =>
    cases n with
    | zero => exact ⟨m.line, rfl⟩
    | succ n => exact ⟨m.line.advance, nextFields_open hl n⟩
  | cons t ts ih =>
    cases n with
    | zero => exact ⟨m.line, rfl⟩
    | succ n =>
      obtain ⟨l, hr⟩ := ih (m := m.atLine m.line.advance) hl.2 (List.not_mem_of_not_mem_cons hs) n
      refine ⟨l, ?_⟩
      rw [nextFields_field hl.1 fun he => hs (he ▸ List.mem_cons_self), M.bind_ok hr]
      rfl

/-- The fields up to their end. -/
theorem nextFields_ended {n : Nat} (hl : m.line.Yields (fields ++ fieldsEnd :: rest))
    (hs : fieldsEnd ∉ fields) (hn : fields.length < n) :
    ∃ l, l.Yields rest ∧ nextFields n m = .ok (some fields) (m.atLine l) := by
  induction fields generalizing m n with
  | nil =>
    obtain ⟨n, rfl⟩ := Nat.exists_eq_add_one_of_ne_zero (Nat.ne_of_gt hn)
    exact ⟨m.line.advance, hl.2, nextFields_close hl.1 n⟩
  | cons t fields ih =>
    obtain ⟨n, rfl⟩ := Nat.exists_eq_add_one_of_ne_zero (Nat.ne_of_gt (Nat.zero_lt_of_lt hn))
    obtain ⟨l, hrest, hr⟩ := ih (m := m.atLine m.line.advance) hl.2
      (List.not_mem_of_not_mem_cons hs) (Nat.lt_of_succ_lt_succ hn)
    refine ⟨l, hrest, ?_⟩
    rw [nextFields_field hl.1 fun he => hs (he ▸ List.mem_cons_self), M.bind_ok hr]
    rfl

end ObjectWord

/-! ## Constants -/

/-- A visible word that pushes a value. -/
def Word.shownConstant (name : String) (v : Value) : Word :=
  { Word.constant name v with hidden := false }

namespace Machine

variable {m : Machine} {name : String} {v : Value} {cs : List (String × Value)}

/-- The machine with a constant defined, which is the word created last. -/
def withConstant (m : Machine) (c : String × Value) : Machine :=
  { m with
    heap := { m.heap with words := m.heap.words.push (.shownConstant c.1 c.2) }
    dictionary := m.dictionary.bind (.ofString c.1) ⟨m.heap.words.size⟩
    compiler := { m.compiler with last? := some ⟨m.heap.words.size⟩ } }

/-- The machine with constants defined one after the other. -/
def withConstants (m : Machine) (cs : List (String × Value)) : Machine :=
  cs.foldl withConstant m

theorem defineConstant_eq (m : Machine) (name : String) (v : Value) :
    M.defineConstant name v m = .ok ⟨m.heap.words.size⟩ (m.withConstant (name, v)) := by
  have hword : (m.heap.addWord (.constant name v)).2.word ⟨m.heap.words.size⟩ =
      .constant name v := by
    simp [Heap.word, Heap.addWord]
  have hinstall : m.install (.constant name v) = (⟨m.heap.words.size⟩, { m with
      heap := { m.heap with words := m.heap.words.push (.shownConstant name v) }
      dictionary := m.dictionary.bind (.ofString name) ⟨m.heap.words.size⟩ }) := by
    have hset : ((m.heap.addWord (.constant name v)).2.updateWord ⟨m.heap.words.size⟩ fun x =>
        { x with hidden := false }) =
          { m.heap with words := m.heap.words.push (.shownConstant name v) } := by
      rw [Heap.updateWord, hword]
      simp only [Heap.setWord, Heap.addWord, Word.shownConstant]
      congr 1
      apply Array.ext_getElem?
      intro i
      grind
    show (_, { m with heap := _, dictionary := _ }) = _
    rw [← hset]
    show (_, { m with
      heap := _
      dictionary := m.dictionary.bind
        ((m.heap.addWord (.constant name v)).2.word ⟨m.heap.words.size⟩).name _ }) = _
    rw [hword]
    rfl
  rw [M.defineConstant]
  show (M.setLast (m.install (.constant name v)).1 >>= fun _ =>
    pure (m.install (.constant name v)).1) (m.install (.constant name v)).2 = _
  rw [hinstall]
  rfl

/-- The words come to the end of the heap. -/
theorem words_withConstants (m : Machine) (cs : List (String × Value)) :
    (m.withConstants cs).heap.words =
      m.heap.words ++ (cs.map fun c => Word.shownConstant c.1 c.2).toArray := by
  induction cs generalizing m with
  | nil => simp [withConstants]
  | cons c cs ih =>
    rw [withConstants, List.foldl_cons, ← withConstants, ih]
    simp [withConstant]

theorem word_withConstants_of_has {w : WordId} (hw : m.heap.Has (.word w)) :
    (m.withConstants cs).heap.word w = m.heap.word w := by
  rw [Heap.word, words_withConstants, Array.getElem?_append_left hw, Heap.word]

theorem word_withConstants {i : Nat} (hc : cs[i]? = some (name, v)) :
    (m.withConstants cs).heap.word ⟨m.heap.words.size + i⟩ = .shownConstant name v := by
  rw [Heap.word, words_withConstants, Array.getElem?_append_right (Nat.le_add_right _ _)]
  simp [hc]

/-- Other names keep their bindings. -/
theorem lookup?_withConstants_of_not_mem {n : Name} (hn : n ∉ cs.map fun c => Name.ofString c.1) :
    (m.withConstants cs).dictionary.lookup? n = m.dictionary.lookup? n := by
  induction cs generalizing m with
  | nil => rfl
  | cons c cs ih =>
    rw [List.map_cons, List.mem_cons, not_or] at hn
    rw [withConstants, List.foldl_cons, ← withConstants, ih hn.2]
    exact (Dictionary.lookup?_bind _ _ _ _).trans (if_neg hn.1)

/-- Different names are bound to the different words. -/
theorem lookup?_withConstants {i : Nat} (hd : (cs.map fun c => Name.ofString c.1).Nodup)
    (hc : cs[i]? = some (name, v)) :
    (m.withConstants cs).dictionary.lookup? (.ofString name) = some ⟨m.heap.words.size + i⟩ := by
  induction cs generalizing m i with
  | nil => cases hc
  | cons b cs ih =>
    rw [List.map_cons, List.nodup_cons] at hd
    rw [withConstants, List.foldl_cons, ← withConstants]
    cases i with
    | zero =>
      cases hc
      rw [lookup?_withConstants_of_not_mem hd.1]
      exact (Dictionary.lookup?_bind _ _ _ _).trans (if_pos rfl)
    | succ i =>
      rw [ih hd.2 hc]
      simp [withConstant, Nat.add_assoc, Nat.add_comm 1]

/-- The last constant is the word created last. -/
theorem compiler_withConstants (m : Machine) (c : String × Value) (cs : List (String × Value)) :
    (m.withConstants (c :: cs)).compiler =
      { m.compiler with last? := some ⟨m.heap.words.size + cs.length⟩ } := by
  induction cs generalizing m c with
  | nil => rfl
  | cons b cs ih =>
    rw [withConstants, List.foldl_cons, ← withConstants, ih]
    simp [withConstant, Nat.add_assoc, Nat.add_comm 1]

/-- Nothing else changes. -/
theorem withConstants_eq (m : Machine) (cs : List (String × Value)) :
    m.withConstants cs = { m with
      heap := { m.heap with words := (m.withConstants cs).heap.words }
      dictionary := (m.withConstants cs).dictionary
      compiler := (m.withConstants cs).compiler } := by
  induction cs generalizing m with
  | nil => rfl
  | cons c cs ih =>
    rw [withConstants, List.foldl_cons, ← withConstants]
    exact ih (m.withConstant c)

/-- The name is bound to a word that pushes the value, wherever it runs. -/
def HasConstant (m : Machine) (name : String) (v : Value) : Prop :=
  ∃ w, m.find? name = some w ∧
    ∀ s : Machine, s.heap.word w = m.heap.word w → s.interrupt = false →
      s.data.items.length < s.data.capacity → ∀ fuel,
        s.execute (fuel + 2) w = some (.ok () (s.withItems (v :: s.data.items)))

theorem hasConstant_of_word {w : WordId} (hl : m.dictionary.lookup? (.ofString name) = some w)
    (hw : m.heap.word w = .shownConstant name v) : m.HasConstant name v := by
  refine ⟨w, ?_, fun s hs hi hroom fuel => ?_⟩
  · rw [find?, Dictionary.find?, hl, Option.filter_some, hw]
    rfl
  · rw [hw] at hs
    have hload : M.lift (((s.startRun w .outside).heap.word w).load 1) (s.startRun w .outside) =
        .ok v (s.startRun w .outside) := by
      rw [show (s.startRun w .outside).heap.word w = _ from hs]
      rfl
    have hrun : Primitive.pushConstant.run (s.startRun w .outside) = .ok .next
        ((s.startRun w .outside).withItems (v :: s.data.items)) := by
      show thenNext pushFirstSlot (s.startRun w .outside) = _
      have hfirst : pushFirstSlot (s.startRun w .outside) = .ok ()
          ((s.startRun w .outside).withItems (v :: s.data.items)) := by
        show (M.lift (((s.startRun w .outside).heap.word w).load 1) >>= M.push)
          (s.startRun w .outside) = _
        rw [M.bind_ok hload]
        exact push_withItems (m := s.startRun w .outside) v hroom
      rw [thenNext, M.bind_ok hfirst]
      rfl
    exact execute_native (by rw [hs]; rfl) hi hrun rfl rfl fuel

end Machine

/-! ## Structs -/

theorem foldCase_append (s t : String) : foldCase (s ++ t) = foldCase s ++ foldCase t := by
  simp [foldCase, String.toList_append, String.ofList_append]

namespace Declaration

/-- The name of the constant for a field. -/
def fieldName (d : Declaration) (field : String) : String :=
  d.name ++ "." ++ field

/-- The constants of a struct: its type, and the positions of its fields. -/
def constants (d : Declaration) (t : TypeId) : List (String × Value) :=
  (d.name, .type t) :: d.fields.mapIdx fun i field => (d.fieldName field, .nat i)

variable {d : Declaration} {t : TypeId} {field : String} {i : Nat}

theorem constants_zero (d : Declaration) (t : TypeId) :
    (d.constants t)[0]? = some (d.name, .type t) := rfl

theorem constants_succ (h : d.fields[i]? = some field) (t : TypeId) :
    (d.constants t)[i + 1]? = some (d.fieldName field, .nat i) := by
  rw [constants, List.getElem?_cons_succ, List.getElem?_mapIdx, h]
  rfl

theorem names_constants (d : Declaration) (t : TypeId) :
    (d.constants t).map (fun c => Name.ofString c.1) =
      .ofString d.name :: d.fields.map fun field => .ofString (d.fieldName field) := by
  refine congrArg (Name.ofString d.name :: ·) (List.ext_getElem? fun i => ?_)
  simp only [List.getElem?_map, List.getElem?_mapIdx, Option.map_map, Function.comp_def]

theorem ofString_fieldName_inj {field' : String}
    (h : Name.ofString (d.fieldName field) = .ofString (d.fieldName field')) :
    foldCase field = foldCase field' := by
  rw [Name.ofString_eq_iff, fieldName, fieldName, foldCase_append _ field,
    foldCase_append _ field'] at h
  exact (String.append_right_inj _).1 h

/-- The name of a field is longer than the one of the struct. -/
theorem ofString_fieldName_ne (d : Declaration) (field : String) :
    Name.ofString (d.fieldName field) ≠ .ofString d.name := by
  intro h
  rw [Name.ofString_eq_iff, fieldName, foldCase_append, foldCase_append] at h
  have h := congrArg String.length h
  have hdot : (foldCase ".").length = 1 := by decide
  simp only [String.length_append, hdot] at h
  omega

/-- If the names of the fields differ, so do those of the constants. -/
theorem nodup_constants (hd : (d.fields.map foldCase).Nodup) (t : TypeId) :
    ((d.constants t).map fun c => Name.ofString c.1).Nodup := by
  rw [names_constants, List.nodup_cons]
  constructor
  · rw [List.mem_map]
    rintro ⟨field, -, h⟩
    exact d.ofString_fieldName_ne field h
  · exact List.pairwise_map.2 ((List.pairwise_map.1 hd).imp fun hne h =>
      hne (ofString_fieldName_inj h))

end Declaration

namespace Machine

/-- The reasons for which a struct is refused, with the tokens that follow. -/
inductive RefusesStruct (m : Machine) : List String → Error → Prop
  | unnamed : RefusesStruct m [] (.missingName "struct:")
  | unended {name : String} {ts : List String} (hs : fieldsEnd ∉ ts) :
    RefusesStruct m (name :: ts) (.compileState (.structOpen name))
  | taken {name : String} {fields rest : List String} (hn : (m.types.find? name).isSome = true) :
    RefusesStruct m (name :: (fields ++ fieldsEnd :: rest)) (.typeRedefined name)
  | full {name : String} {fields rest : List String} (hn : m.types.find? name = none)
    (hk : ¬(m.types.entries .user).size < Types.Range.user.room) :
    RefusesStruct m (name :: (fields ++ fieldsEnd :: rest)) .typeSpaceExhausted

end Machine

namespace ObjectWord

variable {m : Machine} {ts fields rest : List String} {name : String}

theorem defineFields_eq (name : String) (i : Nat) (fields : List String) (m : Machine) :
    defineFields name i fields m = .ok () (m.withConstants
      (fields.mapIdx fun j field => (name ++ "." ++ field, .nat (i + j)))) := by
  induction fields generalizing i m with
  | nil => rfl
  | cons field fields ih =>
    rw [defineFields, M.bind_ok (m.defineConstant_eq _ _), ih, List.mapIdx_cons]
    simp only [Machine.withConstants, List.foldl_cons, Nat.add_zero, Nat.add_assoc, Nat.add_comm 1]

/-- The name of a struct is read. -/
theorem declare_named (hl : m.line.Yields (name :: ts)) :
    declare m = (nextFields (m.line.text.length + 1) >>= fun fields? => match fields? with
      | none => throw (.compileState (.structOpen name))
      | some fields => do
        let t ← M.onTypes fun types => types.addUser ⟨name, fields⟩
        let _ ← M.defineConstant name (.type t)
        defineFields name 0 fields) (m.atLine m.line.advance) := by
  have hname : M.nextName "struct:" m = .ok name (m.atLine m.line.advance) := by
    rw [M.nextName, M.bind_ok (nextToken_eq m), hl.1]
    rfl
  rw [declare, M.bind_ok hname, ← (Line.advance_token hl.1).2.2.1]
  rfl

/-- Once a struct has been read, everything hangs on the registration. -/
theorem declare_ended (hl : m.line.Yields (name :: (fields ++ fieldsEnd :: rest)))
    (hs : fieldsEnd ∉ fields) :
    ∃ l, l.Yields rest ∧ declare m = match m.types.addUser ⟨name, fields⟩ with
      | (.ok t, types) =>
        .ok () (({ m with line := l, types }).withConstants
          (Declaration.constants ⟨name, fields⟩ t))
      | (.error e, types) => .error e { m with line := l, types } := by
  have hfuel : fields.length < m.line.text.length + 1 := by
    have := hl.length_le
    simp only [List.length_cons, List.length_append] at this
    omega
  obtain ⟨l, hrest, hr⟩ := nextFields_ended (m := m.atLine m.line.advance) hl.2 hs hfuel
  refine ⟨l, hrest, ?_⟩
  rw [declare_named hl, M.bind_ok hr]
  show (M.onTypes _ >>= _) (m.atLine l) = _
  cases hq : m.types.addUser ⟨name, fields⟩ with
  | mk r types =>
    have htypes : M.onTypes (fun types => types.addUser ⟨name, fields⟩) (m.atLine l) =
        match (r, types) with
        | (.ok t, types) => .ok t { m with line := l, types }
        | (.error e, types) => .error e { m with line := l, types } := by
      simp only [M.onTypes, show (m.atLine l).types = m.types from rfl, hq]
      cases r <;> rfl
    cases r with
    | error e => exact M.bind_error htypes
    | ok t =>
      rw [M.bind_ok htypes, M.bind_ok (Machine.defineConstant_eq _ _ _), defineFields_eq]
      simp only [Machine.withConstants, Declaration.constants, List.foldl_cons, Nat.zero_add]
      rfl

/-- **The definition of a struct is all or nothing.**  Either only the line has been read on, for
    one of the four reasons, or a type has been registered and the constants have been defined. -/
theorem declare_outcome (hl : m.line.Yields ts) :
    (∃ e l, m.RefusesStruct ts e ∧ declare m = .error e (m.atLine l)) ∨
      ∃ d rest t types l, ts = d.name :: (d.fields ++ fieldsEnd :: rest) ∧ fieldsEnd ∉ d.fields ∧
        l.Yields rest ∧ m.types.Registers .user d.name (.user d none) t types ∧
        declare m = .ok () (({ m with line := l, types }).withConstants (d.constants t)) := by
  cases ts with
  | nil =>
    refine .inl ⟨_, m.line.advance, .unnamed, ?_⟩
    rw [declare, M.nextName]
    refine M.bind_error ?_
    rw [M.bind_ok (nextToken_eq m), show m.line.advance.token? = none from hl]
    rfl
  | cons name ts =>
    by_cases hs : fieldsEnd ∈ ts
    · obtain ⟨fields, rest, rfl, hfields⟩ := List.eq_append_cons_of_mem hs
      obtain ⟨l, hrest, hr⟩ := declare_ended hl hfields
      rw [Types.addUser_eq] at hr
      have hfst := m.types.register_fst .user name (.user ⟨name, fields⟩ none)
      cases hq : m.types.register .user name (.user ⟨name, fields⟩ none) with
      | mk r types =>
        rw [hq] at hr hfst
        cases r with
        | error e =>
          have herror : (m.types.register .user name (.user ⟨name, fields⟩ none)).1 = .error e := by
            rw [hq]
          have htypes := Types.register_error herror
          rw [hq] at htypes
          dsimp only at htypes
          subst htypes
          refine .inl ⟨e, l, ?_, hr⟩
          split at hfst
          · cases hfst
            exact .taken ‹_›
          · split at hfst
            · cases hfst
            · cases hfst
              exact .full (Option.not_isSome_iff_eq_none.1 ‹_›) ‹_›
        | ok t =>
          have hok : (m.types.register .user name (.user ⟨name, fields⟩ none)).1 = .ok t := by
            rw [hq]
          have hreg := Types.register_ok hok
          rw [hq] at hreg
          exact .inr ⟨⟨name, fields⟩, rest, t, types, l, rfl, hfields, hrest, hreg, hr⟩
    · obtain ⟨l, hr⟩ := nextFields_unended (m := m.atLine m.line.advance) hl.2 hs
        (m.line.text.length + 1)
      refine .inl ⟨_, l, .unended hs, ?_⟩
      rw [declare_named hl, M.bind_ok hr]
      rfl

end ObjectWord
end ThreadedForth
