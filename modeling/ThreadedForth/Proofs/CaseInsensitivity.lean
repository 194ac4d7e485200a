/-
  A session, and the same session entered in lower case.
-/
import ThreadedForth.Proofs.CountedLoops
import ThreadedForth.Proofs.Hygiene
import ThreadedForth.Proofs.LoweredRuns
import ThreadedForth.Proofs.Recovery

namespace ThreadedForth

/-! ## New machines -/

namespace Machine

variable {m : Machine} {p : Params} {w : WordId}

/-- The words of a new machine, in the order in which they are installed. -/
def stock : List Word :=
  Builtin.all.map (fun b => .ofPrimitive b.name b.word b.immediate) ++ initialConstants

theorem mem_supply {u : Word} (hu : u ∈ supply Builtin.all) : ∃ v ∈ stock, u = v.shown := by
  rw [← shownAll_delivery] at hu
  obtain ⟨v, hv, rfl⟩ := List.mem_map.1 hu
  exact ⟨v, hv, rfl⟩

/-- The words of a new machine. -/
theorem word_ofParams (p : Params) (w : WordId) :
    (∃ u ∈ stock, (ofParams p).heap.word w = u.shown) ∨ ((ofParams p).heap.word w).body = #[] := by
  rw [ofParams_eq_stocked, word_stocked]
  cases hu : (supply Builtin.all)[w.index]? with
  | none => exact .inr rfl
  | some u => exact .inl (mem_supply (List.mem_of_getElem? hu))

/-- A name of a new machine leads to a word of this name. -/
theorem name_ofParams {s : String} (hw : (ofParams p).dictionary.lookup? (.ofString s) = some w) :
    ∃ u ∈ stock, (ofParams p).heap.word w = u.shown ∧ u.name.text = foldCase s := by
  rw [ofParams_eq_stocked] at hw ⊢
  obtain ⟨u, hu, hn⟩ := (lookup?_stocked nodup_names_supply).1 hw
  obtain ⟨v, hv, rfl⟩ := mem_supply (List.mem_of_getElem? hu)
  rw [word_stocked, hu]
  exact ⟨v, hv, rfl, congrArg Name.text hn⟩

end Machine

/-- The words of a new machine that take no characters from the line, and those that are made
    later. -/
def Likeness.plain (p : Params) : Likeness where
  alike _ _ := True
  known w := ∀ q, .direct (.native q) ∈ ((Machine.ofParams p).heap.word w).body → q.Plain

namespace Machine

variable {m : Machine} {p : Params}

/-- The words of a new machine are primitives and constants. -/
theorem stock_cases {u : Word} (hu : u ∈ stock) :
    (∃ b ∈ Builtin.all, u = .ofPrimitive b.name b.word b.immediate) ∨
      ∃ name v, v.refs = [] ∧ u = .constant name v := by
  rcases List.mem_append.1 hu with hu | hu
  · obtain ⟨b, hb, rfl⟩ := List.mem_map.1 hu
    exact .inl ⟨b, hb, rfl⟩
  · rcases List.mem_append.1 hu with hu | hu
    · obtain ⟨t, -, rfl⟩ := List.mem_map.1 hu
      exact .inr ⟨_, _, rfl, rfl⟩
    · obtain ⟨op, -, rfl⟩ := List.mem_map.1 hu
      exact .inr ⟨_, _, rfl, rfl⟩

theorem refs_of_stock {u : Word} (hu : u ∈ stock) {e : Elem} (he : e ∈ u.body) : e.refs = [] := by
  rcases stock_cases hu with ⟨b, -, rfl⟩ | ⟨name, v, hv, rfl⟩
  · simp only [Word.ofPrimitive, List.mem_toArray, List.mem_singleton] at he
    rw [he]
    rfl
  · simp only [Word.constant, List.mem_toArray, List.mem_cons, List.not_mem_nil, or_false] at he
    rcases he with rfl | rfl
    · rfl
    · exact hv

theorem plain_of_stock {u : Word} (hu : u ∈ stock) (hn : u.name.text ∉ quotingNames) {q : Primitive}
    (hq : .direct (.native q) ∈ u.body) : q.Plain := by
  have hall : ∀ b ∈ Builtin.all, b.word.Plain ∨ foldCase b.name ∈ quotingNames := by decide +kernel
  rcases stock_cases hu with ⟨b, hb, rfl⟩ | ⟨name, v, -, rfl⟩
  · simp only [Word.ofPrimitive, List.mem_toArray, List.mem_singleton, Elem.direct.injEq,
      Code.native.injEq] at hq
    exact hq ▸ (hall b hb).resolve_right hn
  · simp only [Word.constant, List.mem_toArray, List.mem_cons, List.not_mem_nil, or_false,
      Elem.direct.injEq, Code.native.injEq, reduceCtorEq] at hq
    rw [hq]
    decide

theorem known_ofParams {s : String} {w : WordId}
    (hw : (ofParams p).dictionary.lookup? (.ofString s) = some w) (hs : foldCase s ∉ quotingNames) :
    (Likeness.plain p).known w := by
  obtain ⟨u, hu, hword, hn⟩ := name_ofParams hw
  intro q hq
  rw [hword] at hq
  exact plain_of_stock hu (hn ▸ hs) hq

/-- What a new machine refers to is known. -/
theorem calls_ofParams (p : Params) : (ofParams p).Calls (Likeness.plain p) := by
  have hwords : ∀ w, ∀ e ∈ ((ofParams p).heap.word w).body, e.refs = [] := by
    intro w e he
    rcases word_ofParams p w with ⟨u, hu, hword⟩ | hword
    · rw [hword] at he
      exact refs_of_stock hu he
    · rw [hword] at he
      cases Array.not_mem_empty _ he
  have hnames := fun s w => @known_ofParams p s w
  have hsize : ∀ w : WordId, (ofParams p).heap.words.size ≤ w.index →
      ((ofParams p).heap.word w).body = #[] := by
    intro w hw
    rw [Heap.word, Array.getElem?_eq_none hw]
    rfl
  have hplain : ∀ w, (Likeness.plain p).known w → ∀ e ∈ ((ofParams p).heap.word w).body,
      (Likeness.plain p).Admits e := by
    intro w hw e he
    refine ⟨fun v hv => ?_, fun q hq => hw q (hq ▸ he)⟩
    rw [hwords w e he] at hv
    cases hv
  have hfresh : ∀ w : WordId, (ofParams p).heap.words.size ≤ w.index →
      (Likeness.plain p).known w := by
    intro w hw q hq
    rw [hsize w hw] at hq
    cases Array.not_mem_empty _ hq
  rw [ofParams_eq_stocked] at hplain hfresh hnames ⊢
  generalize supply Builtin.all = ws at hplain hfresh hnames ⊢
  exact
    { data := fun _ hv => absurd hv List.not_mem_nil
      temp := fun _ hv => absurd hv List.not_mem_nil
      self := fun _ hv => absurd hv List.not_mem_nil
      frames := fun _ hf => absurd hf List.not_mem_nil
      runs := fun _ hr => absurd hr List.not_mem_nil
      types := by
        rintro w ⟨e, hmem, hw⟩
        have hmem : e ∈ initialTypes.values.toList ++ initialTypes.objects.toList ++
            initialTypes.users.toList := by
          simp only [List.mem_append, Array.mem_toList_iff]
          rcases hmem with h | h | h
          · exact .inl (.inl h)
          · exact .inl (.inr h)
          · exact .inr h
        rcases handler?_initialTypes e hmem with h | h <;> rw [h] at hw <;> cases hw
      items := fun _ _ hv => absurd hv (Array.not_mem_empty _)
      words := hplain
      fresh := hfresh
      building := by simp [stocked, empty]
      last := by simp [stocked, empty]
      names := fun s w hw hs => hnames s w hw hs }

theorem lowered_eq_self (hl : m.line.lowered = m.line) (hh : m.heap.lowered = m.heap)
    (ht : m.types.lowered = m.types) : m = m.lowered m.output := by
  rw [lowered, hl, hh, ht]

/-- A new machine is the same in lower case. -/
theorem lowered_ofParams (p : Params) : (Likeness.plain p).Lowered (ofParams p) (ofParams p) := by
  have hc := calls_ofParams p
  have htypes : initialTypes.lowered = initialTypes := by
    have hv : initialTypes.values.map TypeEntry.lowered = initialTypes.values := by decide +kernel
    have ho : initialTypes.objects.map TypeEntry.lowered = initialTypes.objects := by decide +kernel
    have hu : initialTypes.users.map TypeEntry.lowered = initialTypes.users := by decide +kernel
    unfold Types.lowered
    rw [hv, ho, hu]
  rw [ofParams_eq_stocked] at hc ⊢
  generalize supply Builtin.all = ws at hc ⊢
  have hheap : (stocked p ws).heap.lowered = (stocked p ws).heap := by
    simp [Heap.lowered, stocked]
  have hline : (stocked p ws).line.lowered = (stocked p ws).line := by
    simp [Line.lowered, stocked, empty]
  have hspeaks : (stocked p ws).line.Speaks Spoken := by
    intro t ht
    cases ht
  exact ⟨_, ⟨rfl, rfl⟩, lowered_eq_self hline hheap htypes, hc, hspeaks⟩

/-! ## What a line comes to -/

end Machine

/-- The registered types with their names. -/
def Types.listing (t : Types) : List (TypeId × String) :=
  [Range.value, .object, .user].flatMap fun k =>
    (t.entries k).toList.mapIdx fun i e => (place k.first i, e.name)

theorem Types.listing_lowered (t : Types) : t.lowered.listing = t.listing := by
  have he : ∀ k, t.lowered.entries k = (t.entries k).map TypeEntry.lowered := by
    intro k
    cases k <;> rfl
  unfold listing
  congr 1
  funext k
  rw [he, Array.toList_map]
  exact List.ext_getElem (by simp) fun i _ _ => by simp [TypeEntry.lowered]

/-- What a line comes to, up to case. -/
structure Outline where
  error? : Option Error
  depths : List Nat
  mode : Mode
  names : List String
  types : List (TypeId × String)
deriving DecidableEq

namespace Machine

variable {L : Likeness} {p : Params} {x y : Machine} {acts : List HostAct}

/-- The outline of a report. -/
def Report.outline (r : Report) : Outline where
  error? := r.error?.map Error.folded
  depths :=
    [r.common.data.depth, r.common.return.depth, r.common.temp.depth, r.common.self.depth]
  mode := r.mode
  names := r.dictionary.names r.heap
  types := r.common.types.listing

/-- The outlines of the lines that a host enters; `none` if the fuel does not suffice for one. -/
def outlines (fuel : Nat) (acts : List HostAct) (m : Machine) : Option (List Outline) :=
  (reports fuel acts m).map (List.map Report.outline)

theorem outlines_enter (fuel : Nat) (text : String) (acts : List HostAct) (m : Machine) :
    outlines fuel (.enter text :: acts) m = match runLine fuel text m with
      | none => none
      | some r => (outlines fuel acts (after r)).map ((report r).outline :: ·) := by
  unfold outlines
  rw [reports]
  cases runLine fuel text m with
  | none => rfl
  | some r =>
    simp only [Option.map_map]
    rfl

theorem outline_report {r s : EStateM.Result Error Machine Unit}
    (h : L.SameFolded (fun _ => True) r s) : (report s).outline = (report r).outline := by
  cases h with
  | ok _ _ h =>
    obtain ⟨o, rfl⟩ := h.eq
    simp only [report, Report.outline, after, common, types_lowered, Types.listing_lowered]
    rfl
  | error he h =>
    obtain ⟨o, rfl⟩ := h.eq
    simp only [report, Report.outline, after, common, types_lowered, Types.listing_lowered,
      Option.map_some, he]
    rfl

/-! ## Sessions -/

/-- What a host does, in lower case. -/
def HostAct.lowered : HostAct → HostAct
  | take => take
  | enter text => enter (foldCase text)

/-- No token that a host enters names a word that takes characters from the line. -/
def Unquoted (acts : List HostAct) : Prop :=
  ∀ text, .enter text ∈ acts → ∀ t ∈ tokensOf text.toList, Spoken t

/-- The machines that a session passes through in its words. -/
inductive SessionVisits : List HostAct → Machine → Machine → Prop
  /-- In a line. -/
  | line {acts : List HostAct} {text : String} {left? : Option Nat} {m m₁ z : Machine}
    (hf : fill text m = .ok () m₁) (hz : m₁.Visits (.word left?) z) :
    SessionVisits (.enter text :: acts) m z
  /-- After a line. -/
  | enter {acts : List HostAct} {text : String} {fuel : Nat} {m z : Machine}
    {r : EStateM.Result Error Machine Unit} (hr : runLine fuel text m = some r)
    (hz : SessionVisits acts (after r) z) : SessionVisits (.enter text :: acts) m z
  /-- After the output has been taken. -/
  | take {acts : List HostAct} {m z : Machine}
    (hz : SessionVisits acts { m with output := m.output.clear } z) :
    SessionVisits (.take :: acts) m z

/-- A line is put in, and run. -/
theorem runLine_lowered (h : L.Lowered x y) {text : String}
    (ht : ∀ t ∈ tokensOf text.toList, Spoken t)
    (hx : ∀ m left? z, fill text x = .ok () m → m.Visits (.word left?) z → z.CaseBlind)
    (fuel : Nat) :
    L.FoldedEnd (runLine fuel text x) (runLine fuel (foldCase text) y) := by
  obtain ⟨o, rfl⟩ := id h.eq
  simp only [runLine, Runner.andThen, Runner.ofM, fill, line_lowered, Line.fill_lowered]
  cases hf : x.line.fill text with
  | error e => exact .some (.error rfl h)
  | ok l =>
    have hfill : fill text x = .ok () { x with line := l } := by rw [fill, hf]
    exact (Likeness.IgnoresCase.setLine h fun _ => Line.speaks_of_fill ht hf).processLine
      (fun left? z hz => hx _ left? z hfill hz) fuel

theorem outlines_lowered (h : L.Lowered x y) (hu : Unquoted acts)
    (hx : ∀ z, SessionVisits acts x z → z.CaseBlind) (fuel : Nat) :
    outlines fuel (acts.map HostAct.lowered) y = outlines fuel acts x := by
  induction acts generalizing x y with
  | nil => rfl
  | cons act acts ih =>
    have hu' : Unquoted acts := fun text ht => hu text (List.mem_cons_of_mem _ ht)
    cases act with
    | take =>
      refine ih (x := { x with output := x.output.clear })
        (y := { y with output := y.output.clear }) ?_ hu' fun z hz => hx z (.take hz)
      obtain ⟨o, ho, rfl, -⟩ := id h
      exact Likeness.IgnoresCase.setOutput h ⟨ho.capacity, rfl⟩
    | enter text =>
      have hline := runLine_lowered h (hu text List.mem_cons_self)
        (fun m left? z hf hz => hx z (.line hf hz)) fuel
      rw [List.map_cons, HostAct.lowered, outlines_enter, outlines_enter]
      generalize hrx : runLine fuel text x = r at hline ⊢
      generalize runLine fuel (foldCase text) y = s at hline ⊢
      cases hline with
      | none => rfl
      | some hs =>
        simp only [outline_report hs, ih hs.lowered hu' fun z hz => hx z (.enter hrx hz)]

/-- **Text may be entered in any case.**  Every line comes to the same in lower case: it ends
    without an error or with the same error up to case, and it leaves stacks of the same depths, the
    same mode, and the same names and types.  No word may take characters from the line, no string
    may be made of a record, and no field of a struct may be `;struct` in other letters.  Both
    sessions are on machines with the same addresses, and make the same objects in the same order. -/
theorem case_insensitive (p : Params) (acts : List HostAct) (hu : Unquoted acts)
    (hx : ∀ z, SessionVisits acts (ofParams p) z → z.CaseBlind) (fuel : Nat) :
    outlines fuel (acts.map HostAct.lowered) (ofParams p) = outlines fuel acts (ofParams p) :=
  outlines_lowered (lowered_ofParams p) hu hx fuel

/-! ### Two structs -/

/-- A check of the next step: it makes strings of numbers only, and fields end in lower case. -/
def seesNoCase (_ : Phase) (m : Machine) : Bool :=
  m.primitive?.all fun p =>
    (p.converted m).all (fun v => v matches .int _) && (p != .object .struct || m.EndsFields)

theorem CaseBlind.of_check {ph : Phase} {m : Machine} (h : seesNoCase ph m = true) :
    m.CaseBlind := by
  unfold seesNoCase at h
  cases hp : m.primitive? with
  | none => exact ⟨fun p hq => by simp [hp] at hq, by simp [hp]⟩
  | some p =>
    simp only [hp, Option.all_some, Bool.and_eq_true, List.all_eq_true] at h
    refine ⟨fun q hq v hv hs => ?_, fun he => ?_⟩
    · cases hp.symm.trans hq
      have hint := h.1 v hv
      cases hs <;> cases hint
    · cases hp.symm.trans he
      simpa using h.2

theorem SessionVisits.of_all {P : Phase → Machine → Bool} {text : String} {m z : Machine} {k : Nat}
    (hz : SessionVisits [.enter text] m z)
    (h : allVisits P k (.line ((after (fill text m)).line.text.length + 2)) (after (fill text m)) =
      true) : ∃ ph, P ph z = true := by
  cases hz with
  | @line _ _ left? _ m₁ _ hf hz =>
    rw [hf] at h
    exact ⟨_, hz.of_all h⟩
  | enter _ hz => cases hz

/-- A struct in both cases. -/
def mixed : String := "STRUCT: Point X ;struct"

theorem case_insensitive_of_mixed :
    Unquoted [.enter mixed] ∧ (∀ z, SessionVisits [.enter mixed] (ofParams {}) z → z.CaseBlind) ∧
      outlines 64 [.enter (foldCase mixed)] (ofParams {}) =
        outlines 64 [.enter mixed] (ofParams {}) := by
  have hu : Unquoted [.enter mixed] := by
    intro text ht
    cases List.mem_singleton.1 ht
    decide +kernel
  have hall : allVisits seesNoCase 64
      (.line ((after (fill mixed (ofParams {}))).line.text.length + 2))
      (after (fill mixed (ofParams {}))) = true := by
    rw [ofParams_eq_stocked]
    decide +kernel
  have hx : ∀ z, SessionVisits [.enter mixed] (ofParams {}) z → z.CaseBlind := fun z hz =>
    have ⟨_, hc⟩ := hz.of_all hall
    .of_check hc
  exact ⟨hu, hx, case_insensitive {} _ hu hx 64⟩

/-- A struct that ends in lower case only. -/
def unended : String := "struct: p x ;STRUCT"

/-- The end of a struct is compared as it was typed.  So there are lines that fail, but would not
    fail in lower case. -/
theorem struct_end_keeps_case : ¬ ∀ (p : Params) (acts : List HostAct), Unquoted acts →
    (∀ z, SessionVisits acts (ofParams p) z → z.SparesRecords) → ∀ fuel,
      outlines fuel (acts.map HostAct.lowered) (ofParams p) = outlines fuel acts (ofParams p) := by
  intro h
  have hu : Unquoted [.enter unended] := by
    intro text ht
    cases List.mem_singleton.1 ht
    decide +kernel
  have hall : allVisits (fun _ m => m.primitive?.all fun p => (p.converted m).isEmpty) 64
      (.line ((after (fill unended (ofParams {}))).line.text.length + 2))
      (after (fill unended (ofParams {}))) = true := by
    rw [ofParams_eq_stocked]
    decide +kernel
  have hx : ∀ z, SessionVisits [.enter unended] (ofParams {}) z → z.SparesRecords := by
    intro z hz p hp v hv
    obtain ⟨_, hc⟩ := hz.of_all hall
    rw [hp, Option.all_some, List.isEmpty_iff] at hc
    rw [hc] at hv
    cases hv
  have herrors : (outlines 64 [.enter (foldCase unended)] (ofParams {})).map
      (List.map Outline.error?) = some [none] ∧
        (outlines 64 [.enter unended] (ofParams {})).map (List.map Outline.error?) =
          some [some (.compileState (.structOpen "p"))] := by
    rw [ofParams_eq_stocked]
    decide +kernel
  have := h {} _ hu hx 64
  rw [List.map_singleton, HostAct.lowered] at this
  rw [this, herrors.2] at herrors
  cases herrors.1

end Machine
end ThreadedForth
