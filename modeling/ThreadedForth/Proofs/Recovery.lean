/-
  What is left after an error, and what can be seen of it later.
-/
import ThreadedForth.Proofs.LikenessRuns
import ThreadedForth.Proofs.Locality
import ThreadedForth.Proofs.SharedBeginnings

namespace ThreadedForth

/-! ## Lines that fail -/

namespace Machine

/-- A machine with nothing transient: the stacks are empty, nothing is running, no definition or
    comment is open, and the line has been read. -/
structure Recovered (m : Machine) : Prop where
  data : m.data.items = []
  «return» : m.return.items = []
  temp : m.temp.items = []
  self : m.self.items = []
  frames : m.frames = []
  runBase : m.runBase = 0
  mode : m.compiler.mode = .interpreting
  building : m.compiler.building? = none
  comment : m.inComment = false
  line : m.line.rest = []

theorem Recovered.giveUpLine (m : Machine) : m.giveUpLine.Recovered :=
  ⟨rfl, rfl, rfl, rfl, rfl, rfl, rfl, rfl, rfl, List.drop_length⟩

theorem put_eq_error {piece : String} {m m' : Machine} {e : Error}
    (h : M.put piece m = .error e m') :
    e = .outputFull ∧ m' = m ∧
      m.output.capacity < m.output.text.utf8ByteSize + piece.utf8ByteSize := by
  unfold M.put Output.push at h
  by_cases hfit : m.output.text.utf8ByteSize + piece.utf8ByteSize ≤ m.output.capacity
  · rw [if_pos hfit] at h
    cases h
  · rw [if_neg hfit] at h
    cases h
    exact ⟨rfl, rfl, Nat.lt_of_not_le hfit⟩

/-- **Recovery from errors.**  When a line of a session fails, nothing is running any more.  If one of
    its tokens has failed, everything transient is gone.  Otherwise the tokens have succeeded, the
    prompt does not fit the output, and the machine is as the tokens have left it. -/
theorem failed_line_recovers {m m' : Machine} (h : Reached .rest m) {fuel : Nat} {e : Error}
    (hr : processLine fuel m = some (.error e m')) :
    m'.frames = [] ∧ m'.runBase = 0 ∧
      ((∃ m₁, interpret fuel (m.line.text.length + 2) m = some (.error e m₁) ∧ m'.Recovered) ∨
        interpret fuel (m.line.text.length + 2) m = some (.ok () m') ∧ e = .outputFull ∧
          m'.output.capacity < m'.output.text.utf8ByteSize + m'.prompt.utf8ByteSize) := by
  obtain ⟨hframes, hruns⟩ : m'.frames = [] ∧ m'.runs = [] := (h.processLine hr).running
  refine ⟨hframes, by rw [runBase, hruns], ?_⟩
  rw [processLine_eq] at hr
  cases hi : interpret fuel (m.line.text.length + 2) m with
  | none => simp [hi] at hr
  | some q =>
    simp only [hi, Option.map_some, Option.some.injEq] at hr
    cases q with
    | error e₁ m₁ =>
      cases hr
      exact .inl ⟨m₁, rfl, .giveUpLine m₁⟩
    | ok u m₁ =>
      obtain ⟨he, rfl, hfull⟩ := put_eq_error hr
      exact .inr ⟨rfl, he, hfull⟩

/-- Whether a run ends in an error, with the error and the machine passing a test. -/
def endsIn (test : Error → Machine → Bool) : Option (EStateM.Result Error Machine Unit) → Bool
  | some (.error e m) => test e m
  | _ => false

/-- A machine with a line whose second token is neither a word nor a number. -/
def misspelt : Machine :=
  after (fill "1 oops 2" (ofNames {} []))

/-- The second token fails: everything transient is gone. -/
theorem failed_line_recovers_of_misspelt :
    ∃ e m', processLine 8 misspelt = some (.error e m') ∧ m'.Recovered := by
  have hfails : endsIn (fun e _ => e != .outputFull) (processLine 8 misspelt) = true := by
    rw [misspelt, ofNames_nil]
    decide +kernel
  have hreached : Reached .rest misspelt :=
    (Reached.create {} (Builtin.all.filter fun b => [].contains b.name)).fill "1 oops 2"
  generalize misspelt = m at hfails hreached
  rcases hp : processLine 8 m with _ | _ | ⟨e, m'⟩
  · simp [hp, endsIn] at hfails
  · simp [hp, endsIn] at hfails
  · refine ⟨e, m', rfl, ?_⟩
    rw [hp] at hfails
    rcases (failed_line_recovers hreached hp).2.2 with ⟨-, -, h⟩ | ⟨-, rfl, -⟩
    · exact h
    · cases hfails

/-- A machine whose output holds less than a prompt, with a line of two numbers. -/
def cramped : Machine :=
  after (fill "1 2" (ofNames { outputBuffer := 2 } []))

/-- A prompt that does not fit is reported as an error of the line, and the stacks stay. -/
theorem failed_prompt_recovers_nothing :
    ¬ ∀ (m m' : Machine) (fuel : Nat) (e : Error), Reached .rest m →
      processLine fuel m = some (.error e m') → m'.Recovered := by
  intro h
  have hfails : endsIn (fun _ m' => m'.data.depth == 2) (processLine 8 cramped) = true := by
    rw [cramped, ofNames_nil]
    decide +kernel
  have hreached : Reached .rest cramped :=
    (Reached.create { outputBuffer := 2 } (Builtin.all.filter fun b => [].contains b.name)).fill
      "1 2"
  generalize cramped = m at hfails hreached
  rcases hp : processLine 8 m with _ | _ | ⟨e, m'⟩
  · simp [hp, endsIn] at hfails
  · simp [hp, endsIn] at hfails
  · rw [hp] at hfails
    have hempty := (h m m' 8 e hreached hp).data
    simp [endsIn, Stack.depth, hempty] at hfails

end Machine

/-! ## What a reset leaves behind -/

theorem Line.fill_eq {l l' : Line} (h : l.capacity = l'.capacity) (text : String) :
    l.fill text = l'.fill text := by
  cases l
  cases l'
  cases h
  rfl

namespace Machine

/-- The machine with another depth recorded for its definition. -/
def withDepth (m : Machine) (n : Nat) : Machine :=
  { m with compiler := { m.compiler with startDepth := n } }

theorem Idle.reset (m : Machine) : m.reset.Idle := ⟨rfl, .inl rfl⟩

/-- What a host does: it takes the output, or enters a line. -/
inductive HostAct where
  | take
  | enter (text : String)

/-- What a line has come to: its error, and the machine that it leaves, apart from the line and the
    depth recorded for a definition. -/
structure Report where
  error? : Option Error
  common : Common
  inComment : Bool
  heap : Heap
  dictionary : Dictionary
  mode : Mode
  building? : Option WordId
  last? : Option WordId

/-- The report on a result. -/
def report (r : EStateM.Result Error Machine Unit) : Report where
  error? :=
    match r with
    | .ok _ _ => none
    | .error e _ => some e
  common := (after r).common
  inComment := (after r).inComment
  heap := (after r).heap
  dictionary := (after r).dictionary
  mode := (after r).compiler.mode
  building? := (after r).compiler.building?
  last? := (after r).compiler.last?

/-- The reports on the lines that a host enters; `none` if the fuel does not suffice for one. -/
def reports (fuel : Nat) : List HostAct → Machine → Option (List Report)
  | [], _ => some []
  | .take :: acts, m => reports fuel acts { m with output := m.output.clear }
  | .enter text :: acts, m =>
    match runLine fuel text m with
    | none => none
    | some r => (reports fuel acts (after r)).map (report r :: ·)

/-! ## Any number of lines -/

/-- Machines that are related once a line has been put in. -/
structure AtRest (A : Machine → Machine → Prop) (x y : Machine) : Prop where
  capacity : x.line.capacity = y.line.capacity
  related : A x { y with line := x.line }

/-- A relation between machines that lines keep, and one between the reports on them. -/
structure Lasts (fuel : Nat) (A : Machine → Machine → Prop) (S : Report → Report → Prop) : Prop where
  line : ∀ {x y}, A x y → x.line = y.line
  setLine : ∀ {x y}, A x y → ∀ l, A { x with line := l } { y with line := l }
  take : ∀ {x y}, A x y → A { x with output := x.output.clear } { y with output := y.output.clear }
  refuse : ∀ {x y}, A x y → ∀ e, S (report (.error e x)) (report (.error e y))
  enter : ∀ {x y}, A x y → Option.Rel (fun r s => S (report r) (report s) ∧ A (after r) (after s))
    (processLine fuel x) (processLine fuel y)

/-- **What one line keeps, all lines keep.** -/
theorem Lasts.reports {fuel : Nat} {A : Machine → Machine → Prop} {S : Report → Report → Prop}
    (K : Lasts fuel A S) {x y : Machine} (h : AtRest A x y) (acts : List HostAct) :
    Option.Rel (List.Forall₂ S) (reports fuel acts x) (reports fuel acts y) := by
  have hmore : ∀ {r s}, S r s → ∀ {rs ss}, Option.Rel (List.Forall₂ S) rs ss →
      Option.Rel (List.Forall₂ S) (rs.map (r :: ·)) (ss.map (s :: ·)) := by
    intro r s hrs rs ss h
    cases h with
    | none => exact .none
    | some h => exact .some (.cons hrs h)
  induction acts generalizing x y with
  | nil => exact .some .nil
  | cons act acts ih =>
    cases act with
    | take => exact ih ⟨h.capacity, K.take h.related⟩
    | enter text =>
      have hfill : x.line.fill text = y.line.fill text := Line.fill_eq h.capacity text
      simp only [Machine.reports, runLine, Runner.andThen, Runner.ofM, fill, ← hfill]
      cases x.line.fill text with
      | error e =>
        -- A line that does not fit changes nothing.
        exact hmore (K.refuse h.related e) (ih h)
      | ok l =>
        have hend := K.enter (K.setLine h.related l)
        dsimp only at hend ⊢
        generalize processLine fuel { x with line := l } = r at hend ⊢
        generalize processLine fuel { y with line := l } = s at hend ⊢
        cases hend with
        | none => exact .none
        | some hs =>
          have hline := K.line hs.2
          exact hmore hs.1 (ih ⟨congrArg Line.capacity hline, by rw [hline]; exact hs.2⟩)

end Machine

/-! ## The depth recorded for a definition -/

namespace Likeness

/-- Machines that only differ in the depth recorded for a definition, and only if none is open. -/
def upToDepth : Likeness where
  alike x y := ∃ n, y = x.withDepth n ∧ (x.Idle ∨ n = x.compiler.startDepth)
  known _ := True

variable {x y : Machine}

theorem knows_upToDepth (v : Value) : upToDepth.Knows v := fun _ _ => trivial

theorem holds_upToDepth (c : Common) : upToDepth.Holds c :=
  ⟨fun v _ => knows_upToDepth v, fun v _ => knows_upToDepth v, fun v _ => knows_upToDepth v,
    fun _ _ => trivial, fun _ _ v _ => knows_upToDepth v, fun _ _ => trivial⟩

/-- Where a definition is open, the machines are equal. -/
theorem eq_of_upToDepth (h : upToDepth.alike x y) (hx : ¬ x.Idle) : x = y := by
  obtain ⟨n, rfl, hi | rfl⟩ := h
  · exact absurd hi hx
  · rfl

/-- A change that does not look at the recorded depth and opens no definition. -/
theorem alike_upToDepth (f : Machine → Machine) (h : upToDepth.alike x y)
    (hf : ∀ n, f (x.withDepth n) = (f x).withDepth n) (hi : x.Idle → (f x).Idle) :
    upToDepth.alike (f x) (f y) := by
  obtain ⟨n, rfl, hn⟩ := h
  by_cases hx : x.Idle
  · exact ⟨n, hf n, .inl (hi hx)⟩
  · obtain rfl := hn.resolve_left hx
    exact ⟨_, rfl, .inr rfl⟩

theorem basic_upToDepth : upToDepth.Basic where
  common := by
    rintro x _ ⟨n, rfl, -⟩
    rfl
  holds := fun _ => holds_upToDepth _
  share := fun {x y} h {c} _ => alike_upToDepth (·.share c) h (fun _ => rfl) fun hi => ⟨hi.1, hi.2⟩
  objects := by
    rintro x _ ⟨n, rfl, -⟩
    rfl
  items := fun _ _ _ v _ => knows_upToDepth v
  setObjects := fun {x y} h {os} _ =>
    alike_upToDepth (·.setObjects os) h (fun _ => rfl) fun hi => ⟨hi.1, hi.2⟩
  word := by
    rintro x _ ⟨n, rfl, -⟩ w -
    exact ⟨rfl, fun _ _ => trivial⟩
  setBody := fun {x y} h {w} _ {body} _ =>
    alike_upToDepth (·.setBody w body) h (fun _ => rfl) fun hi => ⟨hi.1, hi.2⟩

theorem building_upToDepth : upToDepth.Building where
  line := by
    rintro x _ ⟨n, rfl, -⟩
    rfl
  setLine := fun h l => alike_upToDepth ({ · with line := l }) h (fun _ => rfl) fun hi => ⟨hi.1, hi.2⟩
  comment := by
    rintro x _ ⟨n, rfl, -⟩
    rfl
  setComment := fun h b =>
    alike_upToDepth ({ · with inComment := b }) h (fun _ => rfl) fun hi => ⟨hi.1, hi.2⟩
  mode := by
    rintro x _ ⟨n, rfl, -⟩
    rfl
  building := by
    rintro x _ ⟨n, rfl, -⟩
    rfl
  known_building := fun _ _ _ => trivial
  known_last := fun _ _ _ => trivial
  depth := fun h hm => by rw [eq_of_upToDepth h (Pairing.not_idle_of_mode (.inl hm))]
  setMode := by
    intro x y h mode hmode
    by_cases hi : x.Idle
    · refine alike_upToDepth (fun m => { m with compiler := { m.compiler with mode } }) h
        (fun _ => rfl) fun _ => ⟨hi.building, ?_⟩
      -- Only modes outside of a definition are left to a machine without one.
      rcases hmode with hm | hm | hm | hm | hm
      · exact .inl hm
      · exact .inr hm
      · exact absurd hi (Pairing.not_idle_of_mode (.inl hm))
      · rcases hi.mode with h' | h' <;> rw [hm] at h' <;> cases h'
      · exact absurd hi.building hm
    · obtain rfl := eq_of_upToDepth h hi
      exact ⟨_, rfl, .inr rfl⟩
  start := by
    -- A definition that is opened records the depth anew.
    rintro x _ ⟨n, rfl, -⟩ name
    exact ⟨x.data.depth, rfl, .inr rfl⟩
  finish := fun h hm => by
    rw [eq_of_upToDepth h (Pairing.not_idle_of_mode (.inl hm))]
    exact ⟨_, rfl, .inr rfl⟩
  unhide := fun {x y} h {w} _ =>
    alike_upToDepth (fun m => { m with heap := m.heap.updateWord w fun u => { u with hidden := false } })
      h (fun _ => rfl) fun hi => ⟨hi.1, hi.2⟩
  setImmediate := fun {x y} h {w} _ =>
    alike_upToDepth (fun m => { m with heap := m.heap.updateWord w fun u => { u with immediate := true } })
      h (fun _ => rfl) fun hi => ⟨hi.1, hi.2⟩

theorem naming_upToDepth : upToDepth.Naming where
  find := by
    rintro x _ ⟨n, rfl, -⟩ name
    rfl
  known_find := fun _ _ _ _ => trivial
  names := by
    rintro x _ ⟨n, rfl, -⟩
    rfl
  define := by
    intro x y h w _ _
    have hw : (x.install w).1 = (y.install w).1 := by
      obtain ⟨n, rfl, -⟩ := h
      rfl
    exact ⟨hw, trivial, alike_upToDepth (·.defining w) h (fun _ => rfl) fun hi => ⟨hi.1, hi.2⟩⟩
  reveal := fun h _ _ hm => by
    rw [eq_of_upToDepth h (Pairing.not_idle_of_mode (.inl hm))]
    exact ⟨_, rfl, .inr rfl⟩
  forget := by
    rintro x _ ⟨n, rfl, hn⟩ name
    have hf : (x.withDepth n).dictionary.forget (x.withDepth n).heap name =
      x.dictionary.forget x.heap name := rfl
    rw [hf]
    cases x.dictionary.forget x.heap name with
    | error e => rfl
    | ok r => exact ⟨n, rfl, hn.imp_left fun hi => ⟨hi.1, hi.2⟩⟩

theorem full_upToDepth : upToDepth.Full where
  basic := basic_upToDepth
  building := building_upToDepth
  naming := naming_upToDepth
  latest := by
    rintro x _ ⟨n, rfl, -⟩
    rfl
  topCount := by
    rintro x _ ⟨n, rfl, -⟩
    rfl
  topAddress := by
    rintro x _ ⟨n, rfl, -⟩
    rfl
  reset := fun h => alike_upToDepth Machine.reset h (fun _ => rfl) fun _ => .reset _

/-- The report is the same on results that are alike. -/
theorem report_eq {r s : EStateM.Result Error Machine Unit} (h : upToDepth.Same (fun _ => True) r s) :
    Machine.report r = Machine.report s := by
  cases h with
  | ok _ _ h =>
    obtain ⟨n, rfl, -⟩ := h
    rfl
  | error e h =>
    obtain ⟨n, rfl, -⟩ := h
    rfl

/-- Lines keep machines that only differ in the recorded depth, and their reports are equal. -/
theorem lasts_upToDepth (fuel : Nat) : Machine.Lasts fuel upToDepth.alike Eq where
  line := building_upToDepth.line
  setLine := building_upToDepth.setLine
  take := fun h => by
    rw [← basic_upToDepth.output_eq h]
    exact basic_upToDepth.setOutput h _
  refuse := fun h e => report_eq (.error e h)
  enter := fun {x y} h => by
    have hend := full_upToDepth.processLine h fuel
    generalize Machine.processLine fuel x = r at hend ⊢
    generalize Machine.processLine fuel y = s at hend ⊢
    cases hend with
    | none => exact .none
    | some hs => exact .some ⟨report_eq hs, hs.alike⟩

end Likeness

/-! ## Other numbers for words and objects -/

namespace Pairing

variable {m m' : Machine} {P : Pairing m m'} {x y : Machine}

/-- What a reset keeps is the same on two machines, up to the numbers of words and objects: the names
    with their words, all that is alive, the word created last, the types, the cells and flags, the
    debugger, the interrupt flag, the output, what the host keeps, and how much fits the stacks and
    the line. -/
structure SameLasting (P : Pairing m m') : Prop where
  complete : P.Complete
  kept : P.SameKept

/-- Reports of the same outcome, up to the numbers of words and objects. -/
structure SameReport (P : Pairing m m') (r s : Machine.Report) : Prop where
  error : r.error? = s.error?
  output : r.common.output = s.common.output
  data : P.SameStack r.common.data s.common.data
  «return» : r.common.return = s.common.return
  temp : P.SameStack r.common.temp s.common.temp
  self : P.SameStack r.common.self s.common.self
  mode : r.mode = s.mode
  comment : r.inComment = s.inComment
  building : Option.Rel P.SameCallee r.building? s.building?
  names : ∀ n, Option.Rel P.word (r.dictionary.lookup? n) (s.dictionary.lookup? n)
  heap : P.SameHeap r.heap s.heap
  types : P.SameTypes r.common.types s.common.types
  debugger : P.SameDebugger r.common.debugger s.common.debugger
  frames : List.Forall₂ P.SameFrame r.common.frames s.common.frames
  runs : List.Forall₂ P.SameRun r.common.runs s.common.runs
  cells : r.common.cells = s.common.cells
  flags : r.common.flags = s.common.flags
  interrupt : r.common.interrupt = s.common.interrupt
  host : r.common.host = s.common.host

/-- The reports on results that stand for the same. -/
theorem SameResult.sameReport (hP : P.Complete) {r s : EStateM.Result Error Machine Unit}
    (h : P.SameResult Eq r s) : P.SameReport (Machine.report r) (Machine.report s) := by
  have hmachines : ∀ {e? : Option Error} {x y : Machine}, P.Alike x y →
      P.SameReport ⟨e?, x.common, x.inComment, x.heap, x.dictionary, x.compiler.mode,
          x.compiler.building?, x.compiler.last?⟩
        ⟨e?, y.common, y.inComment, y.heap, y.dictionary, y.compiler.mode, y.compiler.building?,
          y.compiler.last?⟩ := fun h =>
    ⟨rfl, h.output, h.data, h.return, h.temp, h.self, h.mode, h.comment, h.building, hP.lookup? h,
      h.heap, h.types, h.debugger, h.frames, h.runs, h.cells, h.flags, h.interrupt, h.host⟩
  cases h with
  | ok _ h => exact hmachines h
  | error e h => exact hmachines h

/-- Lines keep machines that hold the same, and so are their reports. -/
theorem Complete.lasts (hP : P.Complete) (fuel : Nat) : Machine.Lasts fuel P.Alike P.SameReport where
  line := Alike.line
  setLine := Alike.setLine
  take := fun {x y} h => by
    have hout : x.output = y.output := h.output
    rw [← hout]
    exact h.setOutput x.output.clear
  refuse := fun h e => (SameResult.error (α := Unit) e h).sameReport hP
  enter := fun {x y} h => by
    have hend := hP.processLine h fuel
    generalize Machine.processLine fuel x = r at hend ⊢
    generalize Machine.processLine fuel y = s at hend ⊢
    cases hend with
    | none => exact .none
    | some hs => exact .some ⟨hs.sameReport hP, hs.alike⟩

end Pairing

/-! ## Nothing transient leaks -/

namespace Machine

variable {x y : Machine}

/-- What a reset keeps is the very same on two machines. -/
structure EqualKept (x y : Machine) : Prop where
  heap : x.heap = y.heap
  dictionary : x.dictionary = y.dictionary
  last : x.compiler.last? = y.compiler.last?
  addresses : x.addresses = y.addresses
  types : x.types = y.types
  debugger : x.debugger = y.debugger
  cells : x.cells = y.cells
  flags : x.flags = y.flags
  interrupt : x.interrupt = y.interrupt
  output : x.output = y.output
  host : x.host = y.host
  data : x.data.clear = y.data.clear
  «return» : x.return.clear = y.return.clear
  temp : x.temp.clear = y.temp.clear
  self : x.self.clear = y.self.clear
  line : x.line.capacity = y.line.capacity

/-- Machines that keep the very same differ in the recorded depth. -/
theorem EqualKept.alike (h : x.reset.EqualKept y.reset) :
    AtRest Likeness.upToDepth.alike x.reset y.reset := by
  have hxy : x.EqualKept y :=
    ⟨h.heap, h.dictionary, h.last, h.addresses, h.types, h.debugger, h.cells, h.flags, h.interrupt,
      h.output, h.host, h.data, h.return, h.temp, h.self, h.line⟩
  refine ⟨h.line, y.compiler.startDepth, ?_, .inl (.reset x)⟩
  simp only [reset, Compiler.reset, withDepth, hxy.dictionary, hxy.heap, hxy.types, hxy.cells,
    hxy.flags, hxy.debugger, hxy.interrupt, hxy.output, hxy.host, hxy.last, hxy.addresses, hxy.data,
    hxy.return, hxy.temp, hxy.self]

/-- **Nothing transient leaks across a reset.**  After a reset, all that the lines to come lead to,
    errors, output, stacks and mode included, only depends on what the reset keeps: not on the
    stacks, the words that were running, the mode, the definition or the comment that were open, the
    depth recorded for a definition, or the line.

    This holds if the very same is kept, and also if words and objects that nothing refers to any
    more differ.  The others then may have other numbers on the two machines, but objects have to be
    at the same addresses. -/
theorem recovery_leaks_nothing (x y : Machine) (fuel : Nat) (acts : List HostAct) :
    (x.reset.EqualKept y.reset → reports fuel acts x.reset = reports fuel acts y.reset) ∧
    ∀ P : Pairing x.reset y.reset, P.SameLasting →
      Option.Rel (List.Forall₂ P.SameReport) (reports fuel acts x.reset)
        (reports fuel acts y.reset) := by
  constructor
  · intro h
    have hr := (Likeness.lasts_upToDepth fuel).reports h.alike acts
    rw [List.forall₂_eq_eq_eq] at hr
    generalize reports fuel acts x.reset = rs at hr ⊢
    generalize reports fuel acts y.reset = ss at hr ⊢
    cases hr with
    | none => rfl
    | some h => exact congrArg some h
  · intro P h
    exact (h.complete.lasts fuel).reports ⟨h.kept.line, h.kept.alike (.reset x) (.reset y) _⟩ acts

/-- What the tokens of a line come to, before a reset. -/
def interpretLine (text : String) (m : Machine) : Option (EStateM.Result Error Machine Unit) :=
  interpret 64 ((after (fill text m)).line.text.length + 2) (after (fill text m))

/-- The machine on which the tokens of a line have failed, before it is reset. -/
def failing (text : String) (m : Machine) : Machine :=
  let x := after ((interpretLine text m).getD (.ok () default))
  { x with line := x.line.skip }

/-- A line that fails leaves the machine that is reset. -/
theorem Leads.failing {ph : Phase} {m₀ m : Machine} {text : String} (h : Leads ph m₀ .rest m)
    (hf : endsIn (fun _ _ => true) (interpretLine text m) = true) :
    Leads ph m₀ .rest (Machine.failing text m).reset := by
  rcases hr : interpretLine text m with _ | _ | ⟨e, x⟩
  · rw [hr] at hf
    cases hf
  · rw [hr] at hf
    cases hf
  · have hx : (Machine.failing text m).reset = x.giveUpLine := by
      rw [Machine.failing, hr]
      rfl
    rw [hx]
    have hline : Machine.processLine 64 (after (fill text m)) = some (.error e x.giveUpLine) := by
      rw [processLine_eq]
      exact congrArg (Option.map closeLine) hr
    exact (h.tail (.fill text)).processLine hline

/-- A machine with few words, whose objects are at the given addresses. -/
def sparse (addresses : ObjId → UInt64) : Machine :=
  ofNames { addresses } [":", ";", "s\x22", "(literal)"]

theorem sparse_eq (addresses : ObjId → UInt64) : sparse addresses = stocked { addresses } (supply
    [⟨":", .defining .colon, false⟩, ⟨";", .defining .semicolon, true⟩,
      ⟨"s\x22", .defining .string, true⟩, ⟨"(literal)", .branch .inlineLiteral, false⟩]) :=
  ofNames_eq _ _ (by decide) (by decide)

/-- A machine on which a line has failed with a text on the stack and a definition open. -/
def interrupted : Machine :=
  failing "1 s\x22 a\x22 : w 5 oops" (sparse fun o => UInt64.ofNat (16 * o.index))

/-- A machine on which another line has failed.  It has made no text, and the next one will be where
    the next one of the other machine will be. -/
def quiet : Machine :=
  failing "oops" (sparse fun o => UInt64.ofNat (16 * (o.index + 1)))

/-- What the two machines come to. -/
theorem interrupted_and_quiet :
    (endsIn (fun _ _ => true) (interpretLine "1 s\x22 a\x22 : w 5 oops"
        (sparse fun o => UInt64.ofNat (16 * o.index))) = true ∧
      endsIn (fun _ _ => true) (interpretLine "oops"
        (sparse fun o => UInt64.ofNat (16 * (o.index + 1)))) = true) ∧
    (interrupted.compiler.building? ≠ none ∧ interrupted.data.depth = 2 ∧
      interrupted.compiler.startDepth = 2 ∧ quiet.compiler.building? = none ∧ quiet.data.depth = 0) ∧
    (interrupted.reset.heap.objects.size = 1 ∧ quiet.reset.heap.objects.size = 0) ∧
    Coincide 20 0 interrupted.reset quiet.reset ∧ OnlyAlive 20 0 interrupted.reset quiet.reset := by
  rw [interrupted, quiet, sparse_eq, sparse_eq]
  decide +kernel

/-- Two sessions in which a line has failed: with a text on the stack and a definition open at depth
    two, and with nothing. -/
theorem recovery_leaks_nothing_of_interrupted :
    (Leads .rest (sparse fun o => UInt64.ofNat (16 * o.index)) .rest interrupted.reset ∧
      Leads .rest (sparse fun o => UInt64.ofNat (16 * (o.index + 1))) .rest quiet.reset) ∧
    (interrupted.compiler.building? ≠ none ∧ interrupted.data.depth = 2 ∧
      interrupted.compiler.startDepth = 2 ∧ quiet.compiler.building? = none ∧ quiet.data.depth = 0) ∧
    ∃ P : Pairing interrupted.reset quiet.reset, Option.Rel (List.Forall₂ P.SameReport)
      (reports 64 [.enter ": v s\x22 b\x22", .take, .enter "; v"] interrupted.reset)
      (reports 64 [.enter ": v s\x22 b\x22", .take, .enter "; v"] quiet.reset) := by
  obtain ⟨⟨h₁, h₂⟩, hspec, hsize, hc, ho⟩ := interrupted_and_quiet
  have hleft : Leads .rest (sparse fun o => UInt64.ofNat (16 * o.index)) .rest interrupted.reset :=
    (Leads.refl _ _).failing h₁
  have hright : Leads .rest (sparse fun o => UInt64.ofNat (16 * (o.index + 1))) .rest quiet.reset :=
    (Leads.refl _ _).failing h₂
  clear h₁ h₂
  generalize interrupted = x at *
  generalize quiet = y at *
  refine ⟨⟨hleft, hright⟩, hspec, hc.pairing,
    (recovery_leaks_nothing x y 64 _).2 _ ⟨hc.complete ho fun {o p} hij => ?_, hc.sameKept⟩⟩
  rw [hleft.addresses, hright.addresses, sparse_eq, sparse_eq]
  have hp : Paired 0 x.reset.heap.objects.size y.reset.heap.objects.size o.index p.index := hij
  have hi : o.index = p.index + 1 := by
    unfold Paired at hp
    omega
  show UInt64.ofNat (16 * o.index) = UInt64.ofNat (16 * (p.index + 1))
  rw [hi]

end Machine
end ThreadedForth
