/-
  An index from names to values.

  A search tree ordered by `Name.precedes`.  Names are never taken out.

  * `NameIndex.find?_insert`: after an insertion the inserted name has the new
    value, and every other name the value it had.
-/
import ThreadedForth.Name

namespace ThreadedForth

/-- A search tree of names. -/
inductive NameIndex (α : Type) where
  /-- No names. -/
  | empty
  /-- A name with its value, between the names before and after it. -/
  | node (before : NameIndex α) (name : Name) (value : α) (after : NameIndex α)
deriving DecidableEq

namespace NameIndex

variable {α : Type}

instance : Inhabited (NameIndex α) := ⟨empty⟩

/-- The value of a name. -/
def find? (n : Name) : NameIndex α → Option α
  | empty => none
  | node l m v r =>
    if n.same m then some v
    else if n.precedes m then find? n l
    else find? n r

/-- The index in which the name has the value `v`. -/
def insert (n : Name) (v : α) : NameIndex α → NameIndex α
  | empty => node empty n v empty
  | node l m w r =>
    if n.same m then node l n v r
    else if n.precedes m then node (insert n v l) m w r
    else node l m w (insert n v r)

theorem find?_insert (n k : Name) (v : α) (t : NameIndex α) :
    (t.insert n v).find? k = if k = n then some v else t.find? k := by
  induction t with
  | empty =>
    by_cases h : k = n
    · simp [insert, find?, h]
    · have : k.same n = false := by simpa using mt Name.same_iff.1 h
      simp [insert, find?, h, this]
  | node l m w r ihl ihr =>
    by_cases hm : n.same m
    · obtain rfl := Name.same_iff.1 hm
      by_cases h : k = n
      · simp [insert, find?, h]
      · have : k.same n = false := by simpa using mt Name.same_iff.1 h
        simp [insert, find?, h, this]
    · by_cases hp : n.precedes m
      · by_cases h : k = n
        · subst h; simp [insert, find?, hm, hp, ihl]
        · simp [insert, find?, hm, hp, ihl, h]
      · by_cases h : k = n
        · subst h; simp [insert, find?, hm, hp, ihr]
        · simp [insert, find?, hm, hp, ihr, h]

end NameIndex
end ThreadedForth
