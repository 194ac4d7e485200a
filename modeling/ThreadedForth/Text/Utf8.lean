/-
  Texts measured and cut in UTF-8 bytes.

  A string object is indexed by the bytes of its UTF-8 form, while its
  content is always whole characters.  A cut that falls inside a character is
  refused (`none`).

  * `splitBytes?`: the characters before and after a byte offset;
  * `slice?`: the characters between two byte offsets;
  * `offsetOf?`: the byte offset of the first occurrence of a text;
  * `splitBytes?_append`: the two parts of a cut make up the text.
-/
namespace ThreadedForth.Utf8

/-- The number of bytes that the characters take up. -/
def size (cs : List Char) : Nat :=
  cs.foldr (fun c n => c.utf8Size + n) 0

/-- The bytes of a text. -/
def bytes (s : String) : List UInt8 :=
  s.toList.flatMap String.utf8EncodeChar

/-- The text that the bytes encode, if they are well formed. -/
def ofBytes? (bs : List UInt8) : Option String :=
  String.fromUTF8? (ByteArray.mk bs.toArray)

/-- The characters in the first `n` bytes and the characters after them.  There is no answer when
    the text is shorter, or when the cut falls inside a character. -/
def splitBytes? : Nat → List Char → Option (List Char × List Char)
  | 0, cs => some ([], cs)
  | _ + 1, [] => none
  | n + 1, c :: cs =>
    if c.utf8Size ≤ n + 1 then
      (splitBytes? (n + 1 - c.utf8Size) cs).map fun (a, b) => (c :: a, b)
    else none

/-- The characters between the byte offsets `start` and `stop`. -/
def slice? (start stop : Nat) (cs : List Char) : Option (List Char) := do
  let (_, rest) ← splitBytes? start cs
  let (part, _) ← splitBytes? (stop - start) rest
  pure part

/-- The characters with those between the byte offsets `start` and `stop` replaced by `new`. -/
def splice? (start stop : Nat) (new cs : List Char) : Option (List Char) := do
  let (before, rest) ← splitBytes? start cs
  let (_, after) ← splitBytes? (stop - start) rest
  pure (before ++ new ++ after)

/-- The byte offset of the first occurrence of `needle`. -/
def offsetOf? (needle : List Char) : List Char → Option Nat
  | [] => if needle.isEmpty then some 0 else none
  | c :: cs =>
    if needle.isPrefixOf (c :: cs) then some 0
    else (offsetOf? needle cs).map (c.utf8Size + ·)

theorem splitBytes?_append {n : Nat} {cs a b : List Char} (h : splitBytes? n cs = some (a, b)) :
    a ++ b = cs := by
  fun_induction splitBytes? n cs generalizing a with
  | case1 => simp_all
  | case2 => simp at h
  | case3 n c cs _ ih =>
    obtain ⟨⟨a', b'⟩, hs, he⟩ := Option.map_eq_some_iff.1 h
    simp only [Prod.mk.injEq] at he
    obtain ⟨rfl, rfl⟩ := he
    simp [ih hs]
  | case4 => simp at h

theorem size_of_splitBytes? {n : Nat} {cs a b : List Char} (h : splitBytes? n cs = some (a, b)) :
    size a = n := by
  fun_induction splitBytes? n cs generalizing a with
  | case1 => simp_all [size]
  | case2 => simp at h
  | case3 n c cs hle ih =>
    obtain ⟨⟨a', b'⟩, hs, he⟩ := Option.map_eq_some_iff.1 h
    simp only [Prod.mk.injEq] at he
    obtain ⟨rfl, rfl⟩ := he
    have := ih hs
    simp only [size, List.foldr_cons] at this ⊢
    omega
  | case4 => simp at h

end ThreadedForth.Utf8
