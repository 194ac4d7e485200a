/-
  Tokens that are interpreted, and the same tokens compiled to a word.
-/
import ThreadedForth.Proofs.Bystanders
import ThreadedForth.Proofs.CodeSteps
import ThreadedForth.Proofs.EarlyBinding
import ThreadedForth.Proofs.Locality

namespace ThreadedForth
namespace Machine

/-! ## Definitions made of numbers and names -/

/-- A token that is a number, or the name of a word that does not run while a definition is
    open. -/
def Ordinary (m : Machine) (t : String) : Prop :=
  match m.find? t with
  | some v => (m.heap.word v).immediate = false
  | none => (Literal.number? t).isSome = true

instance (m : Machine) (t : String) : Decidable (m.Ordinary t) := by
  unfold Ordinary
  split <;> infer_instance

/-- What such a token is compiled to; `l` is the word that pushes literals. -/
def codeOf (m : Machine) (l : WordId) (t : String) : List Elem :=
  match m.find? t with
  | some v => [.call v]
  | none =>
    match Literal.number? t with
    | some n => [.call l, .lit n.toValue]
    | none => []

variable {m : Machine} {l : WordId} {name : String} {es : List Elem} {vs : List Value} {t : String}

/-- A token of a definition. -/
theorem interpretToken_compiles (hm : m.compiler.mode = .compiling)
    (hb : m.compiler.building? = some ⟨m.heap.words.size⟩) (hl : m.find? "(literal)" = some l)
    (ht : m.Ordinary t) (fuel : Nat) :
    interpretToken fuel t (m.drafting name es vs) =
      some (.ok () (m.drafting name (es ++ m.codeOf l t) vs)) := by
  have hmode : (m.drafting name es vs).compiler.mode = .compiling := hm
  unfold Ordinary at ht
  rw [interpretToken, find?_drafting, codeOf]
  cases hf : m.find? t with
  | some v =>
    rw [hf] at ht
    have hi : ((m.drafting name es vs).heap.word v).immediate = false := by
      rw [word_drafting_of_ne (ne_of_find? hf)]
      exact ht
    simp only [interpretWord, hmode, hi]
    exact congrArg some (compileWord_drafting hb v)
  | none =>
    rw [hf] at ht
    obtain ⟨n, hn⟩ := Option.isSome_iff_exists.1 ht
    have hget : M.mode (m.drafting name es vs) = .ok .compiling (m.drafting name es vs) := by
      show EStateM.Result.ok (m.drafting name es vs).compiler.mode _ = _
      rw [hmode]
    simp only [interpretNumber, hn]
    rw [M.bind_ok hget]
    exact congrArg some (compileValue_drafting hb hl _)

/-- The tokens of a definition, one after the other. -/
theorem interpret_drafting (hm : m.compiler.mode = .compiling)
    (hb : m.compiler.building? = some ⟨m.heap.words.size⟩) (hl : m.find? "(literal)" = some l)
    (hq : m.interrupt = false) (hc : m.inComment = false) {ts us : List String}
    (hts : ∀ t ∈ ts, m.Ordinary t) {line : Line} (hline : line.Yields (ts ++ us)) :
    ∃ line', line'.Yields us ∧ ∀ fuel n,
      interpret fuel (ts.length + n) ((m.atLine line).drafting name es vs) =
        interpret fuel n ((m.atLine line').drafting name (es ++ ts.flatMap (m.codeOf l)) vs) := by
  induction ts generalizing line es with
  | nil => exact ⟨line, hline, by simp⟩
  | cons t ts ih =>
    obtain ⟨line', hline', heq⟩ := @ih (es ++ m.codeOf l t)
      (fun u hu => hts u (List.mem_cons_of_mem _ hu)) _ hline.2
    refine ⟨line', hline', fun fuel n => ?_⟩
    have ht := @interpretToken_compiles (m.atLine line.advance) l name es vs t hm hb hl
      (hts t List.mem_cons_self) fuel
    have hn : (t :: ts).length + n = ts.length + n + 1 := by
      rw [List.length_cons]
      omega
    rw [hn, interpret_token (m := (m.atLine line).drafting name es vs) hq hc hline.1 ht,
      List.flatMap_cons, ← List.append_assoc]
    exact heq fuel n

/-- **A definition made of numbers and names** is compiled token by token. -/
theorem interpret_compiles (h : m.CanOpen) (hl : m.find? "(literal)" = some l) {ts : List String}
    (hts : ∀ t ∈ ts, m.Ordinary t) (hline : m.line.Yields (":" :: name :: (ts ++ [";"]))) :
    ∃ line, ∀ fuel, interpret (fuel + 2) (m.line.text.length + 2) m =
      some (.ok () ((m.opening line).defined name (ts.flatMap (m.codeOf l)))) := by
  have hlen := hline.length_le
  simp only [List.length_cons, List.length_append, List.length_nil] at hlen
  obtain ⟨hcolon, hname, hrest⟩ := hline
  obtain ⟨w, hw, hcode⟩ := h.colon
  obtain ⟨u, hu, hi, hclose⟩ := h.semicolon
  have hne : name.toList ≠ [] := (Line.advance_token hname).2.2.2
  obtain ⟨line, hend, heq⟩ := @interpret_drafting (m.opening m.line.advance.advance) l name []
    m.data.items rfl rfl hl h.quiet h.comment _ _ hts _ hrest
  simp only [opening_atLine] at heq
  refine ⟨line.advance.advance, fun fuel => ?_⟩
  -- The definition is opened, the tokens are compiled, and it is closed.
  have hopen := interpretToken_opens hw hcode h.mode h.quiet hname fuel
  obtain ⟨n, hn⟩ : ∃ n, m.line.text.length + 2 = ts.length + (n + 2) + 1 :=
    ⟨m.line.text.length - ts.length - 1, by omega⟩
  rw [hn, interpret_token h.quiet h.comment hcolon hopen]
  refine (heq (fuel + 2) (n + 2)).trans ?_
  have hcodes : (m.opening m.line.advance.advance).codeOf l = m.codeOf l := rfl
  rw [hcodes, List.nil_append]
  generalize ts.flatMap (m.codeOf l) = es
  have hclosed : interpretToken (fuel + 2) ";" ((m.opening line.advance).drafting name es m.data.items) =
      some (.ok () ((m.opening line.advance).defined name es)) := by
    rw [← closing_drafting]
    have hfind : ((m.opening line.advance).drafting name es m.data.items).find? ";" = some u :=
      (find?_drafting _).trans hu
    refine interpretToken_closes hfind ?_ ?_ rfl h.quiet rfl ?_ ?_ fuel
    · rw [word_drafting_of_ne (ne_of_find? (m := m.opening line.advance) hu)]
      exact hi
    · rw [word_drafting_of_ne (ne_of_find? (m := m.opening line.advance) hu)]
      exact hclose
    · have hword : ((m.opening line.advance).drafting name es m.data.items).heap.word
          ⟨m.heap.words.size⟩ = .drafted name es := word_drafting (m := m.opening line.advance)
      rw [hword]
      exact isAnonymous_drafted hne es
    · intro z hz hzc
      refine checkBalance_ok ?_
      rw [hz, hzc]
      rfl
  rw [interpret_token (m := (m.opening line).drafting name es m.data.items) h.quiet h.comment hend.1
    hclosed]
  exact interpret_end (m := (m.opening line.advance).defined name es) h.quiet h.comment hend.2 n

/-! ## Words that keep to themselves -/

end Machine

/-- A composed word, or a word whose action is a part of one. -/
def Heap.Composed (h : Heap) (v : WordId) : Prop :=
  (h.word v).code = .ok .docol ∨
    ∃ body entry, (h.word v).code = .ok (.indirect body entry) ∧ (h.word body).code = .ok .docol

theorem Heap.Composed.tame {h : Heap} {v : WordId} (hv : h.Composed v) : h.Tame v := by
  rcases hv with hd | ⟨body, entry, hi, hd⟩
  · exact .of_call (.inl hd)
  · refine .of_closed (T := fun u => u = v ∨ u = body) (.inl rfl) ?_
    rintro u (rfl | rfl)
    · exact .inr (.inr ⟨body, entry, hi, .inr rfl⟩)
    · exact .inl hd

namespace Machine

variable {m Z₀ D Z : Machine} {f : ObjId → UInt64} {line : Line} {l v w : WordId} {name t : String}
  {es : List Elem} {ip : Nat}

/-- What the primitives of a run have to keep to, so that the word does the same when it is called
    from a body: they use neither the line nor the compiler nor the dictionary, they read reference
    counts only while no word is under construction, they take the hash of an array or a record
    only at the address that `f` gives, and unless the word is a composed one, they act on callers
    only inside of the run. -/
def Apart (f : ObjId → UInt64) (m : Machine) (v : WordId) : Prop :=
  ∀ n x p, Goes n (m.startRun v .outside) x → x.primitive? = some p →
    p.usesSource x = false ∧ (p = .object .refcount → m.compiler.building? = none) ∧
      (p = .object (.invoke .hash) → x.topAddress = (x.located f).topAddress) ∧
      (p.actsOnCaller = true → m.heap.Composed v ∨ 2 ≤ x.frames.length)

theorem within_nil (hf : m.frames = []) (hr : m.runs = []) :
    m.within ⟨[], [], m.debugger⟩ = m := by
  cases m
  cases hf
  cases hr
  rfl

/-- A run that starts without callers. -/
theorem startRun_atop (hf : m.frames = []) (hr : m.runs = []) (v : WordId) :
    m.startRun v .outside =
      (({ m with frames := [], runs := [] } : Machine).startRun v .outside).atop
        ⟨[], [], m.debugger⟩ := by
  have h := within_startRun m v ⟨[], [], m.debugger⟩
  rwa [within_nil hf hr] at h

/-- In the run of a word that keeps to itself, a primitive that acts on its caller finds it. -/
theorem Apart.caller (h : m.Apart f v) (hf : m.frames = []) (hr : m.runs = []) {n : Nat} {x : Machine}
    {p : Primitive} (hg : Goes n (m.startRun v .outside) x) (hp : x.primitive? = some p)
    (ha : p.actsOnCaller = true) : 2 ≤ x.frames.length := by
  rcases (h n x p hg hp).2.2.2 ha with hc | hlen
  · rw [startRun_atop hf hr] at hg
    obtain ⟨z, g, rfl, hz⟩ := (Guarded.start hc.tame).goes
      (c := ⟨[], [], m.debugger⟩) (g := m.debugger) hg
    rw [length_atop]
    exact Nat.le_add_right_of_le (hz.caller hp ha)
  · exact hlen

/-- A run in which `does>` does not act leaves the codes of words alone. -/
theorem code_of_steps {y : Machine}
    (hy : ∀ n x, Goes n y x → x.primitive? ≠ some (.memory .doesRuntime)) {fuel : Nat}
    {r : EStateM.Result Error Machine Unit} (hr : steps fuel y = some r) {u : WordId} {c : Code}
    (hc : (y.heap.word u).code = .ok c) : ((after r).heap.word u).code = .ok c := by
  induction fuel generalizing y with
  | zero => cases hr
  | succ fuel ih =>
    have hstep : (y.step.machine.heap.word u).code = .ok c := by
      rcases y.code_of_step hc with hc' | ⟨_, _, _, _, hp, _⟩
      · exact hc'
      · exact absurd hp (hy 0 y (.refl y))
    rw [steps] at hr
    cases hs : y.step with
    | running y' =>
      rw [hs] at hr hstep
      exact ih (fun n x hg => hy (n + 1) x (.step hs hg)) hr hstep
    | ended y' =>
      rw [hs] at hr hstep
      cases hr
      exact hstep
    | failed e y' =>
      rw [hs] at hr hstep
      cases hr
      exact hstep

theorem Apart.code (h : m.Apart f v) {fuel : Nat} {r : EStateM.Result Error Machine Unit}
    (hr : m.execute fuel v = some r) {u : WordId} {c : Code} (hc : (m.heap.word u).code = .ok c) :
    ((after r).heap.word u).code = .ok c := by
  refine code_of_steps (fun n x hg hp => ?_) hr hc
  have hu := (h n x _ hg hp).1
  cases hu

/-! ## One token -/

/-- A machine `D` between two tokens, and a machine `Z` on which the compiled word may stand between
    two instructions.  They have gone on in the same way from `m` and from `Z₀`, apart from the line
    on which the tokens are, and nothing is running. -/
structure InStep (m Z₀ : Machine) (line : Line) (D Z : Machine) : Prop where
  overlay : Overlay (m.atLine line) Z₀ D Z
  codes : ∀ u c, (m.heap.word u).code = .ok c → (D.heap.word u).code = .ok c
  frames : D.frames = []
  runs : D.runs = []

namespace InStep

theorem frames' (h : InStep m Z₀ line D Z) : Z.frames = [] :=
  (congrArg Common.frames h.overlay.common).symm.trans h.frames

theorem runs' (h : InStep m Z₀ line D Z) : Z.runs = [] :=
  (congrArg Common.runs h.overlay.common).symm.trans h.runs

theorem interrupt (h : InStep m Z₀ line D Z) : D.interrupt = Z.interrupt :=
  congrArg Common.interrupt h.overlay.common

theorem atLine (h : InStep m Z₀ line D Z) (line' : Line) : InStep m Z₀ line' (D.atLine line') Z :=
  ⟨{ h.overlay with
      left := ⟨h.overlay.left.dictionary, h.overlay.left.compiler, rfl, h.overlay.left.addresses,
        h.overlay.left.comment,
        h.overlay.left.size, h.overlay.left.flags, h.overlay.left.beyond⟩ },
    h.codes, h.frames, h.runs⟩

theorem line_eq (h : InStep m Z₀ line D Z) : D.line = line := h.overlay.left.line

/-- The same words are found as before. -/
theorem find?_eq (h : InStep m Z₀ line D Z) (t : String) : D.find? t = m.find? t := by
  have hd : D.dictionary = m.dictionary := h.overlay.left.dictionary
  have hh : ∀ v, (D.heap.word v).hidden = (m.heap.word v).hidden := by
    intro v
    have hw := congrArg Word.hidden (h.overlay.left.flags v)
    exact hw
  simp only [find?, Dictionary.find?, hd, hh]

end InStep

/-- The word `w` of the machine `Z₀` is made of the elements `es`, which are code for tokens of the
    machine `m`; `l` is the word that pushes literals. -/
structure Compiled (m Z₀ : Machine) (l w : WordId) (es : List Elem) : Prop where
  mode : m.compiler.mode = .interpreting
  literal : (m.heap.word l).code = .ok (.native (.branch .inlineLiteral))
  size : m.heap.words.size ≤ Z₀.heap.words.size
  new : m.heap.words.size ≤ w.index
  body : (Z₀.heap.word w).body.toList = es
  code : (Z₀.heap.word w).code = .ok .docol
  attended : m.compiler.building? = none → m.Attended Z₀

/-- A word that can be found is on the heap. -/
theorem has_of_find? (h : m.find? t = some v) : v.index < m.heap.words.size := by
  refine Nat.lt_of_not_le fun hv => ?_
  have hh := (Option.filter_eq_some_iff.1 h).2
  simp [Heap.word, hv, Word.blank, default] at hh

theorem Compiled.has_literal (S : Compiled m Z₀ l w es) : l.index < m.heap.words.size := by
  refine Nat.lt_of_not_le fun hl => ?_
  have hc := S.literal
  simp [Heap.word, hl, default, Word.blank, Word.code] at hc

theorem Compiled.carries (S : Compiled m Z₀ l w es) (h : InStep m Z₀ line D Z) (hq : Z.interrupt = false) :
    Carries w es Z := by
  have hw : Z.heap.word w = Z₀.heap.word w := h.overlay.right.beyond w S.new
  exact ⟨by rw [hw, S.body], by rw [hw, S.code], hq⟩

theorem Attended.atLine (h : m.Attended Z₀) (line : Line) : (m.atLine line).Attended Z₀ :=
  ⟨h.size, h.beyond, h.kept, h.added, h.left, h.right⟩

/-- What the compiled word does from a position, next to a result of the tokens: it comes to another
    position, or fails with the same error. -/
def Mirrors (m Z₀ : Machine) (line : Line) (w : WordId) (C : Machine) (ip : Nat) :
    EStateM.Result Error Machine Unit → Prop
  | .ok _ D => ∃ n Z d, Goes n C (Z.inside w ip d) ∧ InStep m Z₀ line D Z
  | .error e D =>
    ∃ n Z d, steps n C = some (.error e { Z with debugger := d }) ∧ InStep m Z₀ line D Z

/-- Only the words of the callers matter to a reference count. -/
theorem topCount_atop (z : Machine) (fs : List Frame) (g g' : Debugger) :
    ((z.atop ⟨[], [], g⟩).onTop fs).topCount = (z.atop ⟨fs, [], g'⟩).topCount := by
  have hlift : ∀ k, (z.runs.map (Run.lift k)).flatMap (fun r => pendingRefs r.pending) =
      z.runs.flatMap fun r => pendingRefs r.pending := by
    intro k
    rw [List.flatMap_map]
    rfl
  have hroots : ((z.atop ⟨[], [], g⟩).onTop fs).roots = (z.atop ⟨fs, [], g'⟩).roots := by
    simp only [roots, onTop, atop, within, List.append_nil, hlift]
  show (z.data.peek? 0).bind (z.heap.liveCount? _) = (z.data.peek? 0).bind (z.heap.liveCount? _)
  rw [hroots]

/-! ## A word, and a call of it -/

section Alone

variable (hframes : Z.frames = []) (hruns : Z.runs = [])
  (hcont : Contained ⟨[], [], Z.debugger⟩ (Z.startRun v .outside))
include hframes hruns hcont

/-- A word that does not act on its callers does not leave the one that calls it. -/
theorem staysCalm_of_contained
    (hind : Indifferent ⟨[], [], Z.debugger⟩ ⟨[⟨w, ip⟩], [], Z.debugger⟩ (Z.startRun v .outside)) :
    StaysCalm (Z.frames.length + 1) Z.runs ((Z.calling w ip).startRun v .outside) := by
  have hZ : Z.calling w ip = Z.within ⟨[⟨w, ip⟩], [], Z.debugger⟩ := by
    rw [calling, hframes, ← hruns]
    rfl
  rw [startRun_atop hframes hruns] at hcont hind
  rw [hZ, within_startRun, hframes, hruns]
  intro j x hg hi hlast hlen ⟨f, rest, p, y, hf, hcode, hrun⟩
  obtain ⟨z, k, k', hown, hgo, rfl⟩ := OwnRun.goes (.start Z v) hcont hind hg
  -- The word that would be left is the caller, so the primitive is alone in its run.
  have hone : z.frames.length = 1 := by
    rw [length_atop] at hlen
    exact Nat.succ.inj hlen
  obtain ⟨f', hz⟩ := List.length_eq_one_iff.1 hone
  have hff : f' = f := by
    have : [f'] ++ [(⟨w, ip⟩ : Frame)] = f :: rest := hz ▸ hf
    exact (List.cons.inj this).1
  subst hff
  have hacts : p.actsOnCaller = true := p.run_flow _ _ _ hrun
  obtain ⟨Q, hzr, -⟩ := hown.runs
  have hQ : Q = [] := by
    have hlen : (z.runs.map (Run.lift 1) ++ []).length = 1 := hlast
    rw [hzr] at hlen
    simpa using hlen
  have hp : (z.atop ⟨[], [], Z.debugger⟩).primitive? = some p := by
    have hruns₁ : (z.atop ⟨[], [], Z.debugger⟩).runs = [⟨0, .outside⟩] := by
      show z.runs.map (Run.lift 0) ++ [] = _
      rw [hzr, hQ]
      rfl
    have hframes₁ : (z.atop ⟨[], [], Z.debugger⟩).frames = [f'] := by
      show z.frames ++ [] = _
      rw [hz]
      rfl
    refine primitive?_eq hruns₁ hframes₁ ?_ hi hcode
    rw [hframes₁]
    exact Nat.one_pos
  have := hcont j z k p hgo hp hacts
  omega

/-- The word without callers, and under its caller. -/
theorem execute_calling
    (hind : Indifferent ⟨[], [], Z.debugger⟩ ⟨[⟨w, ip⟩], [], Z.debugger⟩ (Z.startRun v .outside))
    (fuel : Nat) :
    SameResult ⟨[], [], Z.debugger⟩ ⟨[⟨w, ip⟩], [], Z.debugger⟩ (Z.execute fuel v)
      ((Z.calling w ip).execute fuel v) := by
  have hcalling : Z.within ⟨[⟨w, ip⟩], [], Z.debugger⟩ = Z.calling w ip := by
    rw [calling, hframes, ← hruns]
    rfl
  have hsame := execute_within Z v (c := ⟨[], [], Z.debugger⟩) (d := ⟨[⟨w, ip⟩], [], Z.debugger⟩)
    (by rw [within_nil hframes hruns]; exact hcont)
    (by rw [within_nil hframes hruns]; exact hind) fuel
  rwa [within_nil hframes hruns, hcalling] at hsame

variable (hind : Indifferent ⟨[], [], Z.debugger⟩ ⟨[⟨w, ip + 1⟩], [], Z.debugger⟩
    (Z.startRun v .outside)) (hcar : Carries w es Z) (hget : es[ip]? = some (.call v))
include hind hcar hget

/-- **A call does what the word does on its own**: it comes back, or fails with the same error. -/
theorem call_as_alone {fuel : Nat} {r : EStateM.Result Error Machine Unit}
    (hr : Z.execute fuel v = some r) (d : Debugger) :
    match r with
    | .ok _ y => ∃ n d', Goes n (Z.inside w ip d) (y.inside w (ip + 1) d')
    | .error e y => ∃ n d', steps n (Z.inside w ip d) = some (.error e { y with debugger := d' }) := by
  have hstays := staysCalm_of_contained hframes hruns hcont hind
  have hsame := execute_calling hframes hruns hcont hind fuel
  rw [hr] at hsame
  cases hC : (Z.calling w (ip + 1)).execute fuel v with
  | none =>
    rw [hC] at hsame
    cases hsame
  | some q =>
    rw [hC] at hsame
    obtain ⟨r', g, g', rfl, rfl⟩ := hsame
    cases r' with
    | ok _ q =>
      have hframes' : (q.within ⟨[⟨w, ip + 1⟩], [], g'⟩).frames = ⟨w, ip + 1⟩ :: Z.frames := by
        rw [hframes]
        rfl
      exact call_goes hcar hget hstays hC hframes' d
    | error e q => exact call_fails hcar hget hstays hC d

/-- A call of a word that comes to an end: the word also does so on its own. -/
theorem call_ends_alone {n : Nat} {d : Debugger} {s : EStateM.Result Error Machine Unit}
    (hs : steps n (Z.inside w ip d) = some s) : ∃ fuel r, Z.execute fuel v = some r := by
  obtain ⟨fuel, q, hC⟩ :=
    Machine.call_ends hcar hget (staysCalm_of_contained hframes hruns hcont hind) hs
  have hsame := execute_calling hframes hruns hcont hind fuel
  rw [hC] at hsame
  cases hZ : Z.execute fuel v with
  | none =>
    rw [hZ] at hsame
    cases hsame
  | some z => exact ⟨fuel, z, hZ⟩

end Alone

namespace InStep

section Call

variable (S : Compiled m Z₀ l w es) (h : InStep m Z₀ line D Z) (hv : v.index < m.heap.words.size)
  (ha : D.Apart Z₀.addresses v)
include S h hv ha

omit hv in
theorem allowsRun : (Likeness.overlay (m.atLine line) Z₀).AllowsRun (D.startRun v .outside)
    (Z.startRun v .outside) := by
  intro n x y p hx _ hxy hp
  obtain ⟨hu, hc, haddr, -⟩ := ha n x p hx hp
  refine .of_detached hu (fun hr => ?_) fun hh => (haddr hh).trans hxy.topAddress_eq
  have hb : m.compiler.building? = none := by
    rw [← hc hr, h.overlay.left.compiler]
    rfl
  have hnone : ∀ f ∈ ([] : List Frame), (m.atLine line).heap.words.size ≤ f.word.index := nofun
  simpa [onTop] using hxy.topCount_eq ((S.attended hb).atLine _) hnone

/-- Each state of the run on the second machine has one next to it on the first. -/
theorem beside {n : Nat} {y : Machine} (hg : Goes n (Z.startRun v .outside) y) :
    ∃ x, Goes n (D.startRun v .outside) x ∧ Overlay (m.atLine line) Z₀ x y := by
  have B := Likeness.Basic.overlay (m.atLine line) Z₀ S.size
  exact B.goes (B.startRun h.overlay hv (by simp [Pending.values])) (allowsRun S h ha) hg

/-- No primitive of the run acts on something outside of it. -/
theorem contained : Contained ⟨[], [], Z.debugger⟩ (Z.startRun v .outside) := by
  intro n z g p hg hp hacts
  have B := Likeness.Basic.overlay (m.atLine line) Z₀ S.size
  obtain ⟨x, hx, hxy⟩ := beside S h hv ha hg
  have hlen := ha.caller h.frames h.runs hx ((B.primitive?_eq hxy).trans hp) hacts
  have hframes : x.frames = z.frames ++ [] := B.frames_eq hxy
  rwa [hframes, List.append_nil] at hlen

/-- The frame of the compiled word makes no difference to the answers that primitives get. -/
theorem indifferent (ip : Nat) :
    Indifferent ⟨[], [], Z.debugger⟩ ⟨[⟨w, ip⟩], [], Z.debugger⟩ (Z.startRun v .outside) := by
  intro n z g p hg hp
  have B := Likeness.Basic.overlay (m.atLine line) Z₀ S.size
  obtain ⟨x, hx, hxy⟩ := beside S h hv ha hg
  obtain ⟨hu, hc, -⟩ := ha n x p hx ((B.primitive?_eq hxy).trans hp)
  refine ⟨fun hl => ?_, fun hr => ?_, fun _ => rfl⟩
  · have := Primitive.usesSource_of_asksLast (m := x) hl
    rw [hu] at this
    cases this
  · have hb : m.compiler.building? = none := by
      rw [← hc hr, h.overlay.left.compiler]
      rfl
    have hcount : ∀ fs : List Frame, (∀ f ∈ fs, m.heap.words.size ≤ f.word.index) →
        x.topCount = (z.atop ⟨fs, [], Z.debugger⟩).topCount := fun fs hfs =>
      (hxy.topCount_eq ((S.attended hb).atLine _) hfs).trans (topCount_atop z fs g _)
    have hnew : ∀ f ∈ [(⟨w, ip⟩ : Frame)], m.heap.words.size ≤ f.word.index := by
      intro f hf
      cases List.mem_singleton.1 hf
      exact S.new
    exact (hcount [] nofun).symm.trans (hcount _ hnew)

/-- **A word, and a call of it.** -/
theorem call (hget : es[ip]? = some (.call v)) (hq : Z.interrupt = false) {fuel : Nat}
    {r : EStateM.Result Error Machine Unit} (hr : D.execute fuel v = some r) (d : Debugger) :
    Mirrors m Z₀ line w (Z.inside w ip d) (ip + 1) r := by
  have B := Likeness.Basic.overlay (m.atLine line) Z₀ S.size
  have hend := B.execute h.overlay hv (allowsRun S h ha) fuel
  have hcodes : ∀ u c, (m.heap.word u).code = .ok c → ((after r).heap.word u).code = .ok c :=
    fun u c hc => ha.code hr (h.codes u c hc)
  have hback := execute_restores hr
  have hframes : (after r).frames = [] := hback.eq_nil h.frames
  have hruns : (after r).runs = [] := hback.runs.trans h.runs
  rw [hr] at hend
  cases hZ : Z.execute fuel v with
  | none =>
    rw [hZ] at hend
    cases hend
  | some s =>
    have hcall := call_as_alone h.frames' h.runs' (contained S h hv ha)
      (indifferent S h hv ha (ip + 1)) (S.carries h hq) hget hZ d
    rw [hZ] at hend
    cases hend with
    | some hs =>
      cases hs with
      | ok _ _ halike =>
        obtain ⟨n, d', hg⟩ := hcall
        exact ⟨n, _, d', hg, halike, hcodes, hframes, hruns⟩
      | error e halike =>
        obtain ⟨n, d', hs⟩ := hcall
        exact ⟨n, _, d', hs, halike, hcodes, hframes, hruns⟩

/-- A call of a word that comes to an end also does so on its own. -/
theorem call_ends (hget : es[ip]? = some (.call v)) (hq : Z.interrupt = false) {n : Nat}
    {d : Debugger} {s : EStateM.Result Error Machine Unit}
    (hs : steps n (Z.inside w ip d) = some s) : ∃ fuel r, D.execute fuel v = some r := by
  have B := Likeness.Basic.overlay (m.atLine line) Z₀ S.size
  obtain ⟨fuel, z, hZ⟩ := call_ends_alone h.frames' h.runs' (contained S h hv ha)
    (indifferent S h hv ha (ip + 1)) (S.carries h hq) hget hs
  have hend := B.execute h.overlay hv (allowsRun S h ha) fuel
  rw [hZ] at hend
  cases hD : D.execute fuel v with
  | none =>
    rw [hD] at hend
    cases hend
  | some r => exact ⟨fuel, r, hD⟩

end Call

/-- A number, and a literal. -/
theorem number (S : Compiled m Z₀ l w es) (h : InStep m Z₀ line D Z) {u : Value} (hu : u.refs = [])
    (hat : CodeAt es ip [.call l, .lit u]) (hq : Z.interrupt = false) (d : Debugger) :
    Mirrors m Z₀ line w (Z.inside w ip d) (ip + 2) (M.push u D) := by
  have B := Likeness.Basic.overlay (m.atLine line) Z₀ S.size
  have hl : l.index < m.heap.words.size := S.has_literal
  have hcode : (Z.heap.word l).code = .ok (.native (.branch .inlineLiteral)) := by
    rw [← B.code_eq h.overlay hl]
    exact h.codes _ _ S.literal
  have hlit := literal_goes (S.carries h hq) hcode hat d
  have hpush := B.pushPlain hu D Z h.overlay
  have hctx := (M.push_blind u).context_eq D
  have hheap : (after (M.push u D)).heap = D.heap := by
    unfold M.push
    cases D.data.push u <;> rfl
  generalize M.push u D = r at hpush hctx hheap
  generalize M.push u Z = s at hpush hlit
  have hcodes : ∀ u c, (m.heap.word u).code = .ok c → ((after r).heap.word u).code = .ok c := by
    rw [hheap]
    exact h.codes
  have hframes : (after r).frames = [] := (congrArg Context.frames hctx).trans h.frames
  have hruns : (after r).runs = [] := (congrArg Context.runs hctx).trans h.runs
  cases hpush with
  | ok _ _ halike =>
    obtain ⟨d', hg⟩ := hlit
    exact ⟨2, _, d', hg, halike, hcodes, hframes, hruns⟩
  | error e halike =>
    obtain ⟨d', hs⟩ := hlit
    exact ⟨2, _, d', hs, halike, hcodes, hframes, hruns⟩

theorem mode (S : Compiled m Z₀ l w es) (h : InStep m Z₀ line D Z) :
    D.compiler.mode = .interpreting := by
  rw [h.overlay.left.compiler]
  exact S.mode

/-- **A token, and its code.** -/
theorem token (S : Compiled m Z₀ l w es) (h : InStep m Z₀ line D Z) (ht : m.Ordinary t)
    (ha : ∀ v, m.find? t = some v → D.Apart Z₀.addresses v) (hat : CodeAt es ip (m.codeOf l t))
    (hq : D.interrupt = false) {fuel : Nat} {r : EStateM.Result Error Machine Unit}
    (hr : interpretToken fuel t D = some r) (d : Debugger) :
    Mirrors m Z₀ line w (Z.inside w ip d) (ip + (m.codeOf l t).length) r := by
  have hq' : Z.interrupt = false := h.interrupt.symm.trans hq
  rw [Ordinary] at ht
  rw [interpretToken, h.find?_eq] at hr
  cases hf : m.find? t with
  | some v =>
    have hcode : m.codeOf l t = [.call v] := by simp only [codeOf, hf]
    rw [hf] at hr
    simp only [interpretWord, h.mode S] at hr
    rw [hcode] at hat ⊢
    exact call S h (has_of_find? hf) (ha v hf) hat.get hq' hr d
  | none =>
    rw [hf] at ht hr
    obtain ⟨n, hn⟩ := Option.isSome_iff_exists.1 ht
    have hcode : m.codeOf l t = [.call l, .lit n.toValue] := by simp only [codeOf, hf, hn]
    have hpush : interpretNumber t D = M.push n.toValue D := by
      have hmode : M.mode D = .ok .interpreting D := by
        show EStateM.Result.ok D.compiler.mode D = _
        rw [h.mode S]
      simp only [interpretNumber, hn]
      rw [M.bind_ok hmode]
    rw [hcode] at hat ⊢
    rw [← Option.some.inj hr, hpush]
    exact number S h (by cases n <;> rfl) hat hq' d

/-- A token whose code comes to an end. -/
theorem token_ends (S : Compiled m Z₀ l w es) (h : InStep m Z₀ line D Z)
    (ha : ∀ v, m.find? t = some v → D.Apart Z₀.addresses v) (hat : CodeAt es ip (m.codeOf l t))
    (hq : D.interrupt = false) {n : Nat} {d : Debugger} {s : EStateM.Result Error Machine Unit}
    (hs : steps n (Z.inside w ip d) = some s) : ∃ fuel r, interpretToken fuel t D = some r := by
  simp only [interpretToken, h.find?_eq]
  cases hf : m.find? t with
  | some v =>
    have hcode : m.codeOf l t = [.call v] := by simp only [codeOf, hf]
    rw [hcode] at hat
    simp only [interpretWord, h.mode S]
    exact call_ends S h (has_of_find? hf) (ha v hf) hat.get (h.interrupt.symm.trans hq) hs
  | none => exact ⟨0, _, rfl⟩

/-- An interrupt that is due. -/
theorem interrupted (S : Compiled m Z₀ l w es) (h : InStep m Z₀ line D Z) :
    InStep m Z₀ line { D with interrupt := false } { Z with interrupt := false } := by
  have B := Likeness.Basic.overlay (m.atLine line) Z₀ S.size
  exact ⟨B.change h.overlay (fun c => { c with interrupt := false }) { B.holds h.overlay with },
    h.codes, h.frames, h.runs⟩

end InStep

/-! ## All tokens -/

/-- The tokens of a line, interpreted one after the other, run words that meet a condition. -/
def Detached (K : Machine → WordId → Prop) : List String → Machine → Prop
  | [], _ => True
  | t :: ts, m =>
    (∀ v, m.find? t = some v → K (m.atLine m.line.advance) v) ∧
      ∀ fuel m', interpretToken fuel t (m.atLine m.line.advance) = some (.ok () m') →
        Detached K ts m'

/-- Two results are the same, apart from the debugger. -/
inductive SameOutcome (m Z₀ : Machine) : EStateM.Result Error Machine Unit →
    EStateM.Result Error Machine Unit → Prop
  | ok {line : Line} {D Z : Machine} (d : Debugger) (h : InStep m Z₀ line D Z)
    (hq : D.interrupt = false) : SameOutcome m Z₀ (.ok () D) (.ok () { Z with debugger := d })
  | error {line : Line} {D Z : Machine} (e : Error) (d : Debugger) (h : InStep m Z₀ line D Z) :
    SameOutcome m Z₀ (.error e D) (.error e { Z with debugger := d })

/-- An interrupt, before the next token is read. -/
theorem interpret_interrupted (hi : m.interrupt = true) (fuel n : Nat) :
    interpret fuel (n + 1) m = some (.error .interrupted { m with interrupt := false }) := by
  have hcheck : checkInterrupt m = .error .interrupted { m with interrupt := false } := by
    rw [checkInterrupt, hi]
    rfl
  rw [interpret_succ, nextSourceToken, M.bind_error hcheck]

/-- An interrupt, before the next instruction of the compiled word. -/
theorem step_inside_interrupted (hi : Z.interrupt = true) (w : WordId) (ip : Nat) (d : Debugger) :
    (Z.inside w ip d).step =
      .failed .interrupted { ({ Z with interrupt := false } : Machine) with debugger := d } := by
  have hf : ((({ Z with interrupt := false } : Machine).inside w ip d).truncateFrames
      Z.frames.length).frames = Z.frames :=
    truncateFrames_frames (show _ = [⟨w, ip⟩] ++ Z.frames from rfl)
  rw [step_of_interrupt (m := Z.inside w ip d) (r := ⟨Z.frames.length, .outside⟩) rfl
    (Nat.lt_succ_self _) hi]
  show Progress.failed _ { Z with
    interrupt := false
    frames := ((({ Z with interrupt := false } : Machine).inside w ip d).truncateFrames
      Z.frames.length).frames
    debugger := d } = _
  rw [hf]

namespace InStep

/-- An interrupt stops both in the same way. -/
theorem stopped (S : Compiled m Z₀ l w es) (h : InStep m Z₀ line D Z) (hi : D.interrupt = true)
    {fuel n : Nat} {r : EStateM.Result Error Machine Unit} (hr : interpret fuel (n + 1) D = some r)
    (d : Debugger) : ∃ k s, steps k (Z.inside w ip d) = some s ∧ SameOutcome m Z₀ r s := by
  rw [interpret_interrupted hi] at hr
  cases hr
  refine ⟨1, _, ?_, .error _ d (h.interrupted S)⟩
  rw [steps, step_inside_interrupted (h.interrupt.symm.trans hi)]

/-- **The tokens, and the compiled word.** -/
theorem tokens (S : Compiled m Z₀ l w es) (hc : m.inComment = false) {ts : List String}
    (hts : ∀ t ∈ ts, m.Ordinary t) (h : InStep m Z₀ line D Z) (hdet : Detached (Apart Z₀.addresses) ts D)
    (hline : line.Yields ts) (hat : CodeAt es ip (ts.flatMap (m.codeOf l)))
    (hlen : ip + (ts.flatMap (m.codeOf l)).length = es.length) {fuel n : Nat}
    {r : EStateM.Result Error Machine Unit} (hr : interpret fuel (ts.length + n + 1) D = some r)
    (d : Debugger) :
    ∃ k s, steps k (Z.inside w ip d) = some s ∧ SameOutcome m Z₀ r s := by
  have hcomment : ∀ {D Z : Machine} {line : Line}, InStep m Z₀ line D Z → D.inComment = false :=
    fun h => h.overlay.left.comment.trans hc
  induction ts generalizing D Z line ip d with
  | nil =>
    cases hi : D.interrupt with
    | true => exact stopped S h hi hr d
    | false =>
      rw [interpret_end hi (hcomment h) (h.line_eq ▸ hline)] at hr
      cases hr
      obtain rfl : ip = es.length := by simpa using hlen
      have hend := step_end (S.carries h (h.interrupt.symm.trans hi)) d
      refine ⟨2, _, ?_, .ok d (h.atLine _) hi⟩
      rw [steps_succ_of_running hend, steps, step_back]
  | cons t ts ih =>
    cases hi : D.interrupt with
    | true => exact stopped S h hi hr d
    | false =>
      obtain ⟨htok, hrest⟩ := hline
      rw [← h.line_eq] at htok hrest
      have hadv := h.atLine D.line.advance
      have hn : (t :: ts).length + n + 1 = ts.length + n + 1 + 1 := by
        rw [List.length_cons]
        omega
      rw [hn] at hr
      rw [List.flatMap_cons] at hat hlen
      cases hq : interpretToken fuel t (D.atLine D.line.advance) with
      | none =>
        rw [interpret_succ, nextSourceToken_quiet hi (hcomment h), htok] at hr
        simp [hq] at hr
      | some q =>
        rw [interpret_token hi (hcomment h) htok hq] at hr
        have hapart : ∀ v, m.find? t = some v → (D.atLine D.line.advance).Apart Z₀.addresses v :=
          fun v hv => hdet.1 v ((h.find?_eq t).trans hv)
        have hmirrors := token S hadv (hts t List.mem_cons_self) hapart hat.left hi hq d
        cases q with
        | ok _ D₁ =>
          obtain ⟨k, Z₁, d₁, hg, h₁⟩ := hmirrors
          obtain ⟨k', s, hs, hout⟩ := ih (fun u hu => hts u (List.mem_cons_of_mem _ hu)) h₁
            (hdet.2 fuel D₁ hq) hrest hat.right (by rw [← hlen, List.length_append]; omega) hr d₁
          exact ⟨k + k', s, by rw [steps_of_goes hg, hs], hout⟩
        | error e D₁ =>
          cases hr
          obtain ⟨k, Z₁, d₁, hs, h₁⟩ := hmirrors
          exact ⟨k, _, hs, .error e d₁ h₁⟩

/-- A compiled word that comes to an end: so do the tokens. -/
theorem tokens_end (S : Compiled m Z₀ l w es) (hc : m.inComment = false) {ts : List String}
    (hts : ∀ t ∈ ts, m.Ordinary t) (h : InStep m Z₀ line D Z) (hdet : Detached (Apart Z₀.addresses) ts D)
    (hline : line.Yields ts) (hat : CodeAt es ip (ts.flatMap (m.codeOf l))) (n : Nat) {k : Nat}
    {d : Debugger} {s : EStateM.Result Error Machine Unit}
    (hs : steps k (Z.inside w ip d) = some s) :
    ∃ fuel r, interpret fuel (ts.length + n + 1) D = some r := by
  have hcomment : ∀ {D Z : Machine} {line : Line}, InStep m Z₀ line D Z → D.inComment = false :=
    fun h => h.overlay.left.comment.trans hc
  induction ts generalizing D Z line ip d k with
  | nil =>
    cases hi : D.interrupt with
    | true => exact ⟨0, _, interpret_interrupted hi 0 _⟩
    | false => exact ⟨0, _, interpret_end hi (hcomment h) (h.line_eq ▸ hline) _⟩
  | cons t ts ih =>
    cases hi : D.interrupt with
    | true => exact ⟨0, _, interpret_interrupted hi 0 _⟩
    | false =>
      obtain ⟨htok, hrest⟩ := hline
      rw [← h.line_eq] at htok hrest
      have hadv := h.atLine D.line.advance
      have hn : (t :: ts).length + n + 1 = ts.length + n + 1 + 1 := by
        rw [List.length_cons]
        omega
      rw [hn]
      rw [List.flatMap_cons] at hat
      have hapart : ∀ v, m.find? t = some v → (D.atLine D.line.advance).Apart Z₀.addresses v :=
        fun v hv => hdet.1 v ((h.find?_eq t).trans hv)
      obtain ⟨fuel, q, hq⟩ := token_ends S hadv hapart hat.left hi hs
      have hmirrors := token S hadv (hts t List.mem_cons_self) hapart hat.left hi hq d
      cases q with
      | error e D₁ => exact ⟨fuel, _, interpret_token hi (hcomment h) htok hq _⟩
      | ok _ D₁ =>
        obtain ⟨j, Z₁, d₁, hg, h₁⟩ := hmirrors
        obtain ⟨left, -, hleft⟩ := hg.cut hs
        obtain ⟨fuel', r, hr⟩ := ih (fun u hu => hts u (List.mem_cons_of_mem _ hu)) h₁
          (hdet.2 fuel D₁ hq) hrest hat.right hleft
        refine ⟨max fuel fuel', r, ?_⟩
        have hq' := interpretToken_mono hq (Nat.le_max_left fuel fuel')
        rw [interpret_token hi (hcomment h) htok hq']
        exact interpret_mono hr (Nat.le_max_right fuel fuel')

end InStep

/-! ## Definitions and the words that they define -/

/-- A machine on which the tokens `ts` can be compiled to a word with the name `name`. -/
structure CanCompile (m : Machine) (name : String) (ts : List String) : Prop where
  opens : m.CanOpen
  literal : ∃ l, m.find? "(literal)" = some l ∧
    (m.heap.word l).code = .ok (.native (.branch .inlineLiteral))
  fresh : m.dictionary.lookup? (.ofString name) = none
  tokens : ∀ t ∈ ts, m.Ordinary t

/-- What two machines have in common after the same things have been done to `m`: everything but the
    line, the dictionary, the compiler, the debugger and words that `m` does not have. -/
structure SameState (m x y : Machine) : Prop where
  common : { x.common with debugger := y.debugger } = y.common
  objects : x.heap.objects = y.heap.objects
  words : ∀ w, m.heap.Has (.word w) → x.heap.word w = y.heap.word w

/-- Two results are the same: both end, or both fail with the same error, and the machines are in
    the same state. -/
inductive SameEffect (m : Machine) : EStateM.Result Error Machine Unit →
    EStateM.Result Error Machine Unit → Prop
  | ok {x y : Machine} (h : SameState m x y) : SameEffect m (.ok () x) (.ok () y)
  | error {x y : Machine} (e : Error) (h : SameState m x y) : SameEffect m (.error e x) (.error e y)

/-- The tokens of the line `direct`, and the word that the line `definition` defines and the line
    `call` calls: the definition is accepted, and the call of the word does what the tokens do.  Both
    end in the same way, or neither ends.  What the definition has allocated may take the place of
    objects to come, so that the addresses are then those that `f` gives. -/
def RoundTrips (m : Machine) (f : ObjId → UInt64) (direct definition call : Line) : Prop :=
  ∃ x, (∀ fuel, 2 ≤ fuel →
      interpret fuel (definition.text.length + 2) (m.atLine definition) = some (.ok () x)) ∧
    (∀ fuel r, interpret fuel (direct.text.length + 2) (m.atLine direct) = some r →
      ∃ fuel' s, interpret fuel' (call.text.length + 2) ((x.located f).atLine call) = some s ∧
        SameEffect m r s) ∧
    ∀ fuel s, interpret fuel (call.text.length + 2) ((x.located f).atLine call) = some s →
      ∃ fuel' r, interpret fuel' (direct.text.length + 2) (m.atLine direct) = some r ∧
        SameEffect m r s

section Defined

variable {ts : List String} {line₀ : Line}

theorem mem_entries_of_find? (h : m.find? t = some v) : ∃ e ∈ m.dictionary.entries, e.2 = v := by
  obtain ⟨e, he, rfl⟩ := Option.map_eq_some_iff.1 (Option.filter_eq_some_iff.1 h).1
  exact ⟨e, List.mem_of_find?_eq_some he, rfl⟩

/-- The code of tokens refers to words that have names. -/
theorem refs_codeOf (hl : m.find? "(literal)" = some l) {r : Ref}
    (hr : r ∈ (m.codeOf l t).flatMap Elem.refs) :
    ∃ e ∈ m.dictionary.entries, r = .word e.2 := by
  have hcall : ∀ {u : String} {v : WordId}, m.find? u = some v → r ∈ (Elem.call v).refs →
      ∃ e ∈ m.dictionary.entries, r = .word e.2 := by
    intro u v hu hr
    obtain ⟨e, he, rfl⟩ := mem_entries_of_find? hu
    exact ⟨e, he, List.mem_singleton.1 hr⟩
  unfold codeOf at hr
  cases hf : m.find? t with
  | some v =>
    simp only [hf, List.flatMap_cons, List.flatMap_nil, List.append_nil] at hr
    exact hcall hf hr
  | none =>
    cases hn : Literal.number? t with
    | none => simp [hf, hn] at hr
    | some n =>
      simp only [hf, hn, List.flatMap_cons, List.flatMap_nil, List.append_nil,
        List.mem_append] at hr
      rcases hr with hr | hr
      · exact hcall hl hr
      · cases n <;> cases hr

/-- The word of a definition changes no reference count. -/
theorem attended_defined (hl : m.find? "(literal)" = some l)
    (hfresh : m.dictionary.lookup? (.ofString name) = none)
    (hb : m.compiler.building? = none) (line' : Line) :
    m.Attended
      ((((m.opening line₀).defined name (ts.flatMap (m.codeOf l))).located f).atLine line') where
  size := by
    show _ ≤ (m.heap.addWord _).2.words.size
    simp [Heap.addWord]
  beyond := by
    intro u hu r hr
    by_cases hw : u = ⟨m.heap.words.size⟩
    · rw [hw] at hr
      have hr : r ∈ (((m.opening line₀).defined name (ts.flatMap (m.codeOf l))).heap.word
          ⟨(m.opening line₀).heap.words.size⟩).refs := hr
      rw [Word.refs, body_defined, List.flatMap_cons, List.flatMap_assoc] at hr
      obtain ⟨t, -, ht⟩ := List.mem_flatMap.1 hr
      exact refs_codeOf hl ht
    · have hne : ((m.opening line₀).defined name (ts.flatMap (m.codeOf l))).heap.word u =
          m.heap.word u := word_defined_of_ne (m := m.opening line₀) hw _
      have hr : r ∈ (((m.opening line₀).defined name (ts.flatMap (m.codeOf l))).heap.word u).refs := hr
      rw [hne] at hr
      simp [Heap.word, hu, default, Word.blank, Word.refs] at hr
  kept := by
    intro e he
    refine List.mem_cons_of_mem _ (List.mem_filter.2 ⟨he, ?_⟩)
    have hnone := List.find?_eq_none.1 (Option.map_eq_none_iff.1 hfresh) e he
    simpa using hnone
  added := by
    intro e he
    rcases List.mem_cons.1 he with rfl | he
    · exact .inr (Nat.le_refl _)
    · exact .inl (List.mem_filter.1 he).1
  left := hb
  right := rfl

theorem enriched_defined (es : List Elem) (line' : Line) :
    m.Enriched ((((m.opening line₀).defined name es).located f).atLine line') := by
  refine ⟨rfl, rfl, ?_, fun u hu => ?_⟩
  · show _ ≤ (m.heap.addWord _).2.words.size
    simp [Heap.addWord]
  · have hne : u ≠ ⟨m.heap.words.size⟩ := by
      rintro rfl
      exact Nat.lt_irrefl _ hu
    exact (congrArg Word.shown (word_defined_of_ne (m := m.opening line₀) hne es)).symm

/-- The word of a definition is code for its tokens. -/
theorem compiled_defined (hm : m.compiler.mode = .interpreting)
    (hl : m.find? "(literal)" = some l)
    (hlit : (m.heap.word l).code = .ok (.native (.branch .inlineLiteral)))
    (hfresh : m.dictionary.lookup? (.ofString name) = none) (line' : Line) :
    Compiled m ((((m.opening line₀).defined name (ts.flatMap (m.codeOf l))).located f).atLine line') l
      ⟨m.heap.words.size⟩ (.direct .docol :: ts.flatMap (m.codeOf l)) where
  mode := hm
  literal := hlit
  size := (enriched_defined _ line').size
  new := Nat.le_refl _
  body := body_defined (m := m.opening line₀) _
  code := by
    have hw := @word_defined (m.opening line₀) name (ts.flatMap (m.codeOf l))
    show (((m.opening line₀).defined name _).heap.word ⟨(m.opening line₀).heap.words.size⟩).code = _
    rw [hw]
    rfl
  attended := fun hb => attended_defined hl hfresh hb line'

/-- The tokens and the word start in step. -/
theorem inStep_defined (hm : Reached .rest m) (es : List Elem) (line line' : Line) :
    InStep m ((((m.opening line₀).defined name es).located f).atLine line') line (m.atLine line)
      ((((m.opening line₀).defined name es).located f).atLine line') := by
  obtain ⟨hframes, hruns⟩ : m.frames = [] ∧ m.runs = [] := hm.running
  have hstart : InStep m ((((m.opening line₀).defined name es).located f).atLine line') m.line m
      ((((m.opening line₀).defined name es).located f).atLine line') :=
    ⟨(enriched_defined es line').overlay hm.sound, fun _ _ h => h, hframes, hruns⟩
  exact hstart.atLine line

end Defined

theorem eq_of_shown {u v : Word} (hs : u.shown = v.shown) (hh : u.hidden = v.hidden) : u = v := by
  cases u
  cases v
  simp only [Word.shown, Word.mk.injEq] at hs hh ⊢
  exact ⟨hs.1, hh, hs.2.2⟩

theorem InStep.sameState (h : InStep m Z₀ line D Z)
    (hold : ∀ u, m.heap.Has (.word u) → Z₀.heap.word u = m.heap.word u) (d : Debugger)
    (line' : Line) : SameState m D (({ Z with debugger := d } : Machine).atLine line') where
  common := congrArg (fun c : Common => { c with debugger := d }) h.overlay.common
  objects := h.overlay.objects
  words := by
    intro u hu
    have hD := congrArg Word.hidden (h.overlay.left.flags u)
    have hZ := congrArg Word.hidden (h.overlay.right.flags u)
    simp only [hold u hu] at hZ
    exact eq_of_shown (h.overlay.word u hu).1 (hD.trans hZ.symm)

/-- A line with the name of a word: the word is executed, and the line is over. -/
theorem interpret_call (hq : m.interrupt = false) (hc : m.inComment = false)
    (hm : m.compiler.mode = .interpreting) (hw : m.find? name = some w)
    (hline : line.Yields [name]) (fuel n : Nat) :
    interpret fuel (n + 1) (m.atLine line) =
      match (m.atLine line.advance).execute fuel w with
      | none => none
      | some (.ok _ m') => interpret fuel n m'
      | some (.error e m') => some (.error e m') := by
  have hw' : (m.atLine line.advance).find? name = some w := hw
  have hm' : (m.atLine line.advance).compiler.mode = .interpreting := hm
  have htoken : interpretToken fuel name (m.atLine line.advance) =
      (m.atLine line.advance).execute fuel w := by
    rw [interpretToken, hw']
    simp only [interpretWord, hm']
  rw [interpret_succ, nextSourceToken_quiet (m := m.atLine line) hq hc]
  simp only [show (m.atLine line).line.advance.token? = some name from hline.1]
  exact congrArg (fun r? : Option (EStateM.Result Error Machine Unit) => match r? with
    | none => none
    | some (.ok _ m') => interpret fuel n m'
    | some (.error e m') => some (.error e m')) htoken

/-- The line with the name of the word comes to what the word comes to. -/
theorem SameOutcome.sameEffect {x : Machine} {r s : EStateM.Result Error Machine Unit}
    (h : SameOutcome m (x.atLine line.advance) r s)
    (hold : ∀ u, m.heap.Has (.word u) → x.heap.word u = m.heap.word u) (hq : x.interrupt = false)
    (hc : x.inComment = false) (hm : x.compiler.mode = .interpreting)
    (hw : x.find? name = some w) (hline : line.Yields [name]) {fuel : Nat}
    (hs : (x.atLine line.advance).execute fuel w = some s) (n : Nat) :
    ∃ s', interpret fuel (n + 2) (x.atLine line) = some s' ∧ SameEffect m r s' := by
  rw [interpret_call hq hc hm hw hline fuel (n + 1), hs]
  cases h with
  | error e d h => exact ⟨_, rfl, .error e (h.sameState hold d _)⟩
  | @ok line' D Z d h hi =>
    have htoken : Z.line.advance.token? = none := by
      rw [h.overlay.right.line]
      exact hline.2
    exact ⟨_, interpret_end (m := { Z with debugger := d }) (h.interrupt.symm.trans hi)
      (h.overlay.right.comment.trans hc) htoken n, .ok (h.sameState hold d _)⟩

/-- **Tokens do the same when they are compiled.**  A list of numbers and of names of words that are
    not immediate is compiled to a word under a fresh name, and the word then does what the tokens
    do if they are interpreted: both end, or both fail with the same error, or neither ends; and the
    machines are in the same state, apart from the line, the dictionary, the compiler, the debugger
    and the new word.  The words that the tokens stand for have to keep to themselves. -/
theorem compiled_tokens_alike (hm : Reached .rest m) {ts : List String}
    (hready : m.CanCompile name ts) {direct definition call : Line} (hd : direct.Yields ts)
    (hdef : definition.Yields (":" :: name :: (ts ++ [";"]))) (hcall : call.Yields [name])
    {f : ObjId → UInt64} (hdet : Detached (Apart f) ts (m.atLine direct)) :
    RoundTrips m f direct definition call := by
  obtain ⟨ho, ⟨l, hl, hlit⟩, hfresh, hts⟩ := hready
  obtain ⟨line, hx⟩ := interpret_compiles (m := m.atLine definition) (l := l)
    ⟨ho.mode, ho.quiet, ho.comment, ho.colon, ho.semicolon⟩ hl hts hdef
  have hcodes : (m.atLine definition).codeOf l = m.codeOf l := rfl
  have hopening : (m.atLine definition).opening line = m.opening line := rfl
  rw [hcodes, hopening] at hx
  refine ⟨(m.opening line).defined name (ts.flatMap (m.codeOf l)), fun fuel hf => ?_, ?_⟩
  · obtain ⟨f, rfl⟩ : ∃ f, fuel = f + 2 := ⟨fuel - 2, by omega⟩
    exact hx f
  -- The tokens and the body of the word, from their beginnings.
  have S := @compiled_defined m f l name ts line ho.mode hl hlit hfresh call.advance
  have h := @inStep_defined m f name line hm (ts.flatMap (m.codeOf l)) direct call.advance
  have hat : CodeAt (.direct .docol :: ts.flatMap (m.codeOf l)) 1 (ts.flatMap (m.codeOf l)) :=
    ⟨[.direct .docol], [], by simp, rfl⟩
  have hsize : 1 + (ts.flatMap (m.codeOf l)).length =
      (Elem.direct .docol :: ts.flatMap (m.codeOf l)).length := Nat.add_comm _ _
  have hlen := hd.length_le
  obtain ⟨n, hn⟩ : ∃ n, direct.text.length + 2 = ts.length + n + 1 :=
    ⟨direct.text.length - ts.length + 1, by omega⟩
  have hold : ∀ u, m.heap.Has (.word u) → (((m.opening line).defined name
      (ts.flatMap (m.codeOf l))).located f).heap.word u = m.heap.word u := by
    intro u hu
    refine word_defined_of_ne (m := m.opening line) (fun hw => ?_) _
    rw [hw] at hu
    exact Nat.lt_irrefl _ hu
  have hfind : (((m.opening line).defined name (ts.flatMap (m.codeOf l))).located f).find? name =
      some ⟨m.heap.words.size⟩ := find?_defined (m := m.opening line) _
  have hf : (((m.opening line).defined name (ts.flatMap (m.codeOf l))).located f).addresses = f := rfl
  generalize hx : ((m.opening line).defined name (ts.flatMap (m.codeOf l))).located f = x
    at S h hold hfind hf ⊢
  rw [← hf] at hdet
  have hq : x.interrupt = false := hx ▸ ho.quiet
  have hc : x.inComment = false := hx ▸ ho.comment
  have hmode : x.compiler.mode = .interpreting := hx ▸ rfl
  have hexec : ∀ fuel, (x.atLine call.advance).execute fuel ⟨m.heap.words.size⟩ =
      steps fuel ((x.atLine call.advance).inside ⟨m.heap.words.size⟩ 1 x.debugger) := fun _ => rfl
  constructor
  · intro fuel r hr
    rw [hn] at hr
    obtain ⟨k, s, hs, hout⟩ := h.tokens S ho.comment hts hdet hd hat hsize hr x.debugger
    obtain ⟨s', hs', heffect⟩ := hout.sameEffect hold hq hc hmode hfind hcall ((hexec k).trans hs)
      call.text.length
    exact ⟨k, s', hs', heffect⟩
  · intro fuel s hs
    cases hz : (x.atLine call.advance).execute fuel ⟨m.heap.words.size⟩ with
    | none =>
      rw [interpret_call hq hc hmode hfind hcall fuel (call.text.length + 1), hz] at hs
      cases hs
    | some z =>
      have hz' := (hexec fuel).symm.trans hz
      obtain ⟨fuel', r, hr⟩ := h.tokens_end S ho.comment hts hdet hd hat n hz'
      obtain ⟨k, z', hk, hout⟩ := h.tokens S ho.comment hts hdet hd hat hsize hr x.debugger
      obtain rfl := steps_unique hk hz'
      obtain ⟨s', hs', heffect⟩ := hout.sameEffect hold hq hc hmode hfind hcall hz call.text.length
      obtain rfl : s' = s := Option.some.inj (hs'.symm.trans hs)
      exact ⟨fuel', r, hn ▸ hr, heffect⟩

/-! ## Some lines -/

/-- Whether the primitives of a run meet a condition. -/
def runMeets (c : Machine → Primitive → Bool) (m : Machine) (v : WordId) : Bool :=
  meets (fun x _ => c x) 16 (m.startRun v .outside) (m.startRun v .outside)

theorem of_runMeets {c : Machine → Primitive → Bool} (h : m.runMeets c v = true) {n : Nat}
    {x : Machine} {p : Primitive} (hg : Goes n (m.startRun v .outside) x)
    (hp : x.primitive? = some p) : c x p = true :=
  of_meets h hg hg hp

/-- Whether the words that tokens run meet a condition, within the fuel. -/
def detaches (k : Machine → WordId → Bool) (fuel : Nat) : List String → Machine → Bool
  | [], _ => true
  | t :: ts, m =>
    (m.find? t).all (k (m.atLine m.line.advance)) &&
      match interpretToken fuel t (m.atLine m.line.advance) with
      | some (.ok _ m') => detaches k fuel ts m'
      | some (.error _ _) => true
      | none => false

theorem of_detaches {K : Machine → WordId → Prop} {k : Machine → WordId → Bool}
    (hK : ∀ m v, k m v = true → K m v) {fuel : Nat} {ts : List String}
    (h : detaches k fuel ts m = true) : Detached K ts m := by
  induction ts generalizing m with
  | nil => trivial
  | cons t ts ih =>
    simp only [detaches, Bool.and_eq_true] at h
    obtain ⟨hrun, hrest⟩ := h
    refine ⟨fun v hv => hK _ _ ?_, fun fuel' m' hm' => ?_⟩
    · rw [hv] at hrun
      exact hrun
    · cases hq : interpretToken fuel t (m.atLine m.line.advance) with
      | none => simp [hq] at hrest
      | some q =>
        have hsame : some q = some (.ok () m') := by
          rw [← interpretToken_mono hq (Nat.le_max_left fuel fuel'),
            interpretToken_mono hm' (Nat.le_max_right fuel fuel')]
        cases hsame
        rw [hq] at hrest
        exact ih hrest

/-- The code of the word that a name stands for. -/
def codeNamed? (m : Machine) (t : String) : Option Code :=
  (m.find? t).bind fun w => (m.heap.word w).code.toOption

theorem of_codeNamed? {c : Code} (h : m.codeNamed? t = some c) :
    ∃ w, m.find? t = some w ∧ (m.heap.word w).code = .ok c := by
  obtain ⟨w, hw, hc⟩ := Option.bind_eq_some_iff.1 h
  refine ⟨w, hw, ?_⟩
  cases hcode : (m.heap.word w).code with
  | error e => simp [hcode, Except.toOption] at hc
  | ok c' =>
    rw [hcode] at hc
    cases hc
    rfl

/-- Whether the tokens `ts` can be compiled to a word with the name `name`. -/
def canCompile (m : Machine) (name : String) (ts : List String) : Bool :=
  m.compiler.mode == .interpreting && !m.interrupt && !m.inComment &&
    m.codeNamed? ":" == some (.native (.defining .colon)) &&
    m.codeNamed? ";" == some (.native (.defining .semicolon)) &&
    (m.find? ";").all (fun w => (m.heap.word w).immediate) &&
    m.codeNamed? "(literal)" == some (.native (.branch .inlineLiteral)) &&
    (m.dictionary.lookup? (.ofString name)).isNone && ts.all fun t => decide (m.Ordinary t)

theorem CanCompile.of_eq_true {ts : List String} (h : m.canCompile name ts = true) :
    m.CanCompile name ts := by
  simp only [canCompile, Bool.and_eq_true, Bool.not_eq_true', beq_iff_eq, Option.isNone_iff_eq_none,
    List.all_eq_true, decide_eq_true_eq] at h
  obtain ⟨⟨⟨⟨⟨⟨⟨⟨hmode, hquiet⟩, hcomment⟩, hcolon⟩, hsemi⟩, hi⟩, hlit⟩, hfresh⟩, hts⟩ := h
  obtain ⟨w, hw, hc⟩ := of_codeNamed? hsemi
  rw [hw] at hi
  exact ⟨⟨hmode, hquiet, hcomment, of_codeNamed? hcolon, ⟨w, hw, hi, hc⟩⟩, of_codeNamed? hlit,
    hfresh, hts⟩

/-- A line of text. -/
def lineOf (text : String) : Line := (after (fill text (ofNames {} []))).line

theorem lineOf_eq (text : String) :
    lineOf text = (after (fill text (stocked {} (supply [])))).line := by
  rw [lineOf, ofNames_nil]

/-- A machine for definitions with numbers. -/
def plain : Machine := ofNames {} [":", ";", "dup", "(literal)"]

/-- The tokens `7 dup`, and a word for them that runs where all objects are at one address. -/
theorem compiled_tokens_alike_of_dup :
    ∃ (m : Machine) (direct definition call : Line), direct.Yields ["7", "dup"] ∧
      definition.Yields [":", "w", "7", "dup", ";"] ∧ call.Yields ["w"] ∧
      RoundTrips m (fun _ => 64) direct definition call := by
  obtain ⟨hready, hdet, hd, hdef, hcall⟩ : plain.canCompile "w" ["7", "dup"] = true ∧
      detaches (runMeets fun x p => !p.usesSource x && p != .object .refcount &&
          p != .object (.invoke .hash) && !p.actsOnCaller) 8
        ["7", "dup"] (plain.atLine (lineOf "7 dup")) = true ∧
      (lineOf "7 dup").Yields ["7", "dup"] ∧
      (lineOf ": w 7 dup ;").Yields [":", "w", "7", "dup", ";"] ∧ (lineOf "w").Yields ["w"] := by
    simp only [lineOf_eq]
    rw [plain, ofNames_chained]
    decide +kernel
  have hm : Reached .rest (ofNames {} [":", ";", "dup", "(literal)"]) := .create _ _
  rw [← plain] at hm
  generalize plain = m at *
  generalize lineOf "7 dup" = direct at *
  refine ⟨m, direct, _, _, hd, hdef, hcall,
    compiled_tokens_alike hm (.of_eq_true hready) hd hdef hcall ?_⟩
  refine of_detaches (fun m v h n x p hg hp => ?_) hdet
  have hc := of_runMeets h hg hp
  simp only [Bool.and_eq_true, Bool.not_eq_true', bne_iff_ne] at hc
  exact ⟨hc.1.1.1, fun hr => absurd hr hc.1.1.2, fun hh => absurd hh hc.1.2,
    fun ha => by simp [hc.2] at ha⟩

/-- A line, with enough fuel for short ones. -/
def onLine (m : Machine) (line : Line) : Option (EStateM.Result Error Machine Unit) :=
  interpret 64 (line.text.length + 2) (m.atLine line)

/-- The data stack after a line. -/
def dataAfter? (m : Machine) (line : Line) : Option (List Value) :=
  (m.onLine line).map fun r => (after r).data.items

theorem SameEffect.data_eq {r s : EStateM.Result Error Machine Unit} (h : SameEffect m r s) :
    (after r).data.items = (after s).data.items := by
  cases h with
  | ok h => exact congrArg (fun c : Common => c.data.items) h.common
  | error e h => exact congrArg (fun c : Common => c.data.items) h.common

/-- The tokens and the word leave different data stacks. -/
theorem not_roundTrips {direct definition call : Line} {us vs : List Value}
    (hus : m.dataAfter? direct = some us)
    (hvs : ((m.onLine definition).bind fun r =>
      ((after r).located m.addresses).dataAfter? call) = some vs)
    (hne : us ≠ vs) : ¬ RoundTrips m m.addresses direct definition call := by
  rintro ⟨x, hdef, hcall, -⟩
  rw [onLine, hdef 64 (by decide)] at hvs
  obtain ⟨r, hr, rfl⟩ := Option.map_eq_some_iff.1 hus
  obtain ⟨s, hs, rfl⟩ := Option.map_eq_some_iff.1 hvs
  obtain ⟨fuel', s', hs', heffect⟩ := hcall 64 r hr
  have hsame : s = s' := by
    have h₁ := interpret_mono hs (Nat.le_max_left 64 fuel')
    have h₂ := interpret_mono hs' (Nat.le_max_right 64 fuel')
    exact Option.some.inj (h₁.symm.trans h₂)
  exact hne (hsame ▸ heffect.data_eq)

/-- A machine with the word `exit` on its stack. -/
def leaving : Machine :=
  afterLine "' exit" (ofNames {} [":", ";", "'", "execute", "exit", "(literal)"])

theorem ofNames_leaving : ofNames {} [":", ";", "'", "execute", "exit", "(literal)"] =
    stocked {} (supply [⟨":", .defining .colon, false⟩, ⟨";", .defining .semicolon, true⟩,
      ⟨"'", .defining .tick, false⟩, ⟨"execute", .defining .execute, false⟩,
      ⟨"exit", .branch .exit, false⟩, ⟨"(literal)", .branch .inlineLiteral, false⟩]) :=
  ofNames_eq _ _ (by decide) (by decide)

theorem reached_leaving : Reached .rest leaving := by
  have hnew : Reached .rest (ofNames {} [":", ";", "'", "execute", "exit", "(literal)"]) :=
    .create _ _
  refine hnew.afterLine ?_
  rw [ofNames_leaving]
  decide +kernel

/-- A machine with a string on its stack, to which also a definition refers that has been left
    open. -/
def suspended : Machine :=
  afterLine ": a [ s\" abc\" dup ] literal ["
    (ofNames {} [":", ";", "[", "]", "s\"", "dup", "literal", "refcount", "(literal)"])

theorem ofNames_suspended :
    ofNames {} [":", ";", "[", "]", "s\"", "dup", "literal", "refcount", "(literal)"] =
      stocked {} (supply [⟨"dup", .stack .dup, false⟩, ⟨":", .defining .colon, false⟩,
        ⟨";", .defining .semicolon, true⟩, ⟨"[", .defining .leftBracket, true⟩,
        ⟨"]", .defining .rightBracket, false⟩, ⟨"literal", .defining .literal, true⟩,
        ⟨"s\"", .defining .string, true⟩, ⟨"refcount", .object .refcount, false⟩,
        ⟨"(literal)", .branch .inlineLiteral, false⟩]) :=
  ofNames_eq _ _ (by decide) (by decide)

theorem reached_suspended : Reached .rest suspended := by
  have hnew : Reached .rest (ofNames {}
      [":", ";", "[", "]", "s\"", "dup", "literal", "refcount", "(literal)"]) := .create _ _
  refine hnew.afterLine ?_
  rw [ofNames_suspended]
  decide +kernel

/-- The conditions are needed.  The primitive `execute` does not act on its caller, and yet it ends
    the compiled word if it finds `exit` on the stack.  And `refcount` counts the references of a
    definition that has been left open, which the definition of a word gives up. -/
theorem compiled_tokens_can_differ :
    (¬ ∀ (m : Machine) (name : String) (ts : List String) (direct definition call : Line),
      Reached .rest m → m.CanCompile name ts → direct.Yields ts →
      definition.Yields (":" :: name :: (ts ++ [";"])) → call.Yields [name] →
      Detached (fun m v => (∀ n x p, Goes n (m.startRun v .outside) x → x.primitive? = some p →
          p.usesSource x = false ∧ p ≠ .object .refcount) ∧
        (m.heap.Composed v ∨ ∃ p, (m.heap.word v).code = .ok (.native p) ∧ p.actsOnCaller = false))
        ts (m.atLine direct) →
      RoundTrips m m.addresses direct definition call) ∧
    ¬ ∀ (m : Machine) (name : String) (ts : List String) (direct definition call : Line),
      Reached .rest m → m.CanCompile name ts → direct.Yields ts →
      definition.Yields (":" :: name :: (ts ++ [";"])) → call.Yields [name] →
      Detached (fun m v => ∀ n x p, Goes n (m.startRun v .outside) x → x.primitive? = some p →
          p.usesSource x = false ∧ p.actsOnCaller = false) ts (m.atLine direct) →
      RoundTrips m m.addresses direct definition call := by
  constructor
  · intro h
    obtain ⟨hready, hdet, hd, hdef, hcall, hus, hvs⟩ :
        leaving.canCompile "w" ["execute", "5"] = true ∧
        detaches (fun m v => runMeets (fun x p => !p.usesSource x && p != .object .refcount) m v &&
            (m.heap.word v).code == .ok (.native (.defining .execute))) 16
          ["execute", "5"] (leaving.atLine (lineOf "execute 5")) = true ∧
        (lineOf "execute 5").Yields ["execute", "5"] ∧
        (lineOf ": w execute 5 ;").Yields [":", "w", "execute", "5", ";"] ∧
        (lineOf "w").Yields ["w"] ∧ leaving.dataAfter? (lineOf "execute 5") = some [.int 5] ∧
        ((leaving.onLine (lineOf ": w execute 5 ;")).bind fun r =>
          ((after r).located leaving.addresses).dataAfter? (lineOf "w")) = some [] := by
      simp only [lineOf_eq]
      rw [leaving, ofNames_leaving]
      decide +kernel
    refine not_roundTrips hus hvs (by simp) (h _ _ _ _ _ _ reached_leaving (.of_eq_true hready) hd
      hdef hcall (of_detaches (fun m v hk => ?_) hdet))
    rw [Bool.and_eq_true, beq_iff_eq] at hk
    refine ⟨fun n x p hg hp => ?_, .inr ⟨_, hk.2, rfl⟩⟩
    simpa using of_runMeets hk.1 hg hp
  · intro h
    obtain ⟨hready, hdet, hd, hdef, hcall, hus, hvs⟩ :
        suspended.canCompile "w" ["refcount"] = true ∧
        detaches (runMeets fun x p => !p.usesSource x && !p.actsOnCaller) 16
          ["refcount"] (suspended.atLine (lineOf "refcount")) = true ∧
        (lineOf "refcount").Yields ["refcount"] ∧
        (lineOf ": w refcount ;").Yields [":", "w", "refcount", ";"] ∧
        (lineOf "w").Yields ["w"] ∧
        (suspended.dataAfter? (lineOf "refcount")).bind List.head? = some (.int 2) ∧
        ((suspended.onLine (lineOf ": w refcount ;")).bind fun r =>
          ((after r).located suspended.addresses).dataAfter? (lineOf "w")).bind List.head? =
            some (.int 1) := by
      simp only [lineOf_eq]
      rw [suspended, ofNames_suspended]
      decide +kernel
    obtain ⟨us, hus, htwo⟩ := Option.bind_eq_some_iff.1 hus
    obtain ⟨vs, hvs, hone⟩ := Option.bind_eq_some_iff.1 hvs
    have hne : us ≠ vs := by
      rintro rfl
      rw [hone] at htwo
      cases htwo
    refine not_roundTrips hus hvs hne (h _ _ _ _ _ _ reached_suspended (.of_eq_true hready) hd hdef
      hcall (of_detaches (fun m v hk n x p hg hp => ?_) hdet))
    simpa using of_runMeets hk hg hp

end Machine
end ThreadedForth
