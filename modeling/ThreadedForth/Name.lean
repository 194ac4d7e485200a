/-
  Names of words and types.

  A name is a text with its case folded, together with a key of 32 bits made
  of its length and its hash.  Two names are compared by their keys first, and
  by their texts only if the keys agree, so a collision of keys is harmless.

  * `Name.ofString`: the name that a text denotes;
  * `Name.same_iff`: the comparison says exactly whether the texts agree.
-/
import ThreadedForth.Hash
import ThreadedForth.Text.Ascii
import ThreadedForth.Text.Utf8

namespace ThreadedForth

/-- The key of a folded text: its length in bytes, at most 255, in the high byte, and the low 24
    bits of its hash. -/
def nameKey (text : String) : UInt32 :=
  let bs := Utf8.bytes text
  (UInt32.ofNat (min bs.length 255) <<< 24) ||| (hashBytes bs &&& 0x00ffffff)

/-- A name with its key. -/
structure Name where
  /-- The text of the name, its case folded. -/
  text : String
  /-- The key of the text. -/
  key : UInt32
  /-- The key belongs to the text. -/
  key_eq : key = nameKey text
deriving DecidableEq

namespace Name

/-- The name that a text denotes. -/
def ofString (s : String) : Name :=
  ⟨foldCase s, nameKey (foldCase s), rfl⟩

instance : Inhabited Name := ⟨ofString ""⟩

/-- Whether the name is the empty text, which anonymous words have. -/
def isEmpty (n : Name) : Bool :=
  n.text.isEmpty

/-- The length that the key holds. -/
def keyLength (n : Name) : Nat :=
  (n.key >>> 24).toNat

/-- The comparison of names: keys first, then texts. -/
def same (a b : Name) : Bool :=
  a.key == b.key && a.text == b.text

/-- The order in which an index keeps names: by key, and by text under one key. -/
def precedes (a b : Name) : Bool :=
  a.key < b.key || (a.key == b.key && a.text < b.text)

theorem same_iff {a b : Name} : a.same b = true ↔ a = b := by
  obtain ⟨s, k, rfl⟩ := a
  obtain ⟨t, l, rfl⟩ := b
  simp only [same, Bool.and_eq_true, beq_iff_eq, Name.mk.injEq]
  constructor
  · rintro ⟨h, rfl⟩; exact ⟨rfl, rfl⟩
  · rintro ⟨rfl, h⟩; exact ⟨h, rfl⟩

@[simp] theorem same_self (a : Name) : a.same a = true :=
  same_iff.2 rfl

@[simp] theorem text_ofString (s : String) : (ofString s).text = foldCase s := rfl

theorem ofString_eq_iff {s t : String} : ofString s = ofString t ↔ foldCase s = foldCase t := by
  constructor
  · intro h; exact congrArg Name.text h
  · intro h; simp [ofString, h]

end Name
end ThreadedForth
