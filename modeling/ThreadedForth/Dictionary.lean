/-
  The dictionary.

  It binds names to words.  A new binding takes the place of an older one of
  the same name, which never comes back.  A word that is hidden cannot be
  found.
-/
import ThreadedForth.Heap

namespace ThreadedForth

/-- The bindings, each name once. -/
structure Dictionary where
  /-- The names with their words. -/
  entries : List (Name × WordId) := []
deriving DecidableEq, Inhabited

namespace Dictionary

/-- The word bound to a name, hidden or not. -/
def lookup? (d : Dictionary) (n : Name) : Option WordId :=
  (d.entries.find? fun e => n.same e.1).map (·.2)

/-- The dictionary in which the name is bound to the word. -/
def bind (d : Dictionary) (n : Name) (w : WordId) : Dictionary :=
  ⟨(n, w) :: d.entries.filter fun e => !n.same e.1⟩

/-- The dictionary without a binding of the name. -/
def unbind (d : Dictionary) (n : Name) : Dictionary :=
  ⟨d.entries.filter fun e => !n.same e.1⟩

/-- The visible word of a name. -/
def find? (d : Dictionary) (h : Heap) (name : String) : Option WordId :=
  (d.lookup? (.ofString name)).filter fun w => !(h.word w).hidden

/-- Binds a word under its own name and makes it visible.  The binding that it replaces comes
    first. -/
def add (d : Dictionary) (h : Heap) (w : WordId) : Option WordId × Dictionary × Heap :=
  let n := (h.word w).name
  (d.lookup? n, d.bind n w, h.updateWord w fun x => { x with hidden := false })

/-- Takes a word out of the dictionary and hides it.  Words that came with the machine stay. -/
def forget (d : Dictionary) (h : Heap) (name : String) :
    Except Error (WordId × Dictionary × Heap) :=
  match d.lookup? (.ofString name) with
  | none => .error (.unknownWord name)
  | some w =>
    if (h.word w).builtin then .error (.cantForgetBuiltin name)
    else .ok (w, d.unbind (.ofString name), h.updateWord w fun x => { x with hidden := true })

/-- The names of the visible words, in the order of their characters. -/
def names (d : Dictionary) (h : Heap) : List String :=
  (d.entries.filterMap fun e =>
    if (h.word e.2).hidden then none else some (h.word e.2).name.text).mergeSort
      fun a b => !decide (b < a)

/-- How many names are bound. -/
def size (d : Dictionary) : Nat :=
  d.entries.length

theorem lookup?_bind (d : Dictionary) (n k : Name) (w : WordId) :
    (d.bind n w).lookup? k = if k = n then some w else d.lookup? k := by
  by_cases h : k = n
  · simp [bind, lookup?, h]
  · have hk : k.same n = false := by simpa using mt Name.same_iff.1 h
    simp only [lookup?, bind, List.find?_cons, hk, h, if_false, List.find?_filter]
    congr 2
    funext e
    by_cases he : k.same e.1
    · have : n.same e.1 = false := by
        have := Name.same_iff.1 he
        subst this
        simpa using mt Name.same_iff.1 (Ne.symm h)
      simp [he, this]
    · simp [he]

theorem lookup?_unbind (d : Dictionary) (n k : Name) :
    (d.unbind n).lookup? k = if k = n then none else d.lookup? k := by
  by_cases h : k = n
  · subst h
    simp [unbind, lookup?, List.find?_filter]
  · simp only [lookup?, unbind, h, if_false, List.find?_filter]
    congr 2
    funext e
    by_cases he : k.same e.1
    · have : n.same e.1 = false := by
        have := Name.same_iff.1 he
        subst this
        simpa using mt Name.same_iff.1 (Ne.symm h)
      simp [he, this]
    · simp [he]

end Dictionary
end ThreadedForth
