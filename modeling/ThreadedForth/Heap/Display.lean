/-
  The text of values.

  `Heap.walk` writes a value piece by piece to a sink that may refuse a piece.
  Arrays and records are written with what they hold, shared parts in full
  each time.  While the walk is inside an object the object's mark is set, and
  an object met with its mark set is abbreviated, so that the walk ends on
  structures that hold themselves.  The mark is cleared when the walk leaves
  the object, also after a refusal.

  * `Heap.display`: the text of a value;
  * `Heap.describe`: the text of a value with its kind;
  * `Heap.listing`: the elements of a word, one to a line.
-/
import ThreadedForth.Heap
import ThreadedForth.Number.FloatText
import ThreadedForth.Text.Quoted

namespace ThreadedForth

/-- The character with a code from 0 to 255. -/
def byteChar (c : UInt8) : Char :=
  Char.ofNat c.toNat

/-- The text of a truth value. -/
def boolText (b : Bool) : String :=
  if b then "true" else "false"

/-- The pieces of the text of a value that is not an object. -/
def Heap.leaf (h : Heap) : Value → List String
  | .char c => [String.singleton (byteChar c)]
  | .int n => [toString n.toInt]
  | .float x => FloatText.shown x
  | .bool b => [boolText b]
  | .type t => ["<type " ++ toString t.base.toNat ++ ">"]
  | .xt w => ["<xt " ++ (h.word w).label ++ ">"]
  | .ptr p => ["<ptr " ++ (h.word p.target).label ++ "+" ++ toString p.index ++ ">"]
  | .obj _ => []
  | .binop op => [op.symbol]

/-- The text of a word with its flags and its size. -/
def Word.describe (w : Word) : String :=
  "Word \x7b name: " ++ Quoted.text w.label ++ ", hidden: " ++ boolText w.hidden ++
    ", immediate: " ++ boolText w.immediate ++ ", len: " ++ toString w.size ++ " \x7d"

namespace Obj

/-- The text before what an object holds; a string is nothing but this text. -/
def opening : Obj → String
  | text s => s
  | array _ _ => "["
  | record _ d _ _ => d.name ++ "\x7b"

/-- The text after what an object holds. -/
def closing : Obj → String
  | text _ => ""
  | array _ _ => "]"
  | record _ _ _ _ => "\x7d"

/-- The text for an object inside itself. -/
def abbreviation : Obj → String
  | text s => s
  | array _ _ => "[...]"
  | record _ d _ _ => d.name ++ "\x7b...\x7d"

/-- What an object holds, each value with the text in front of it. -/
def entries : Obj → List (String × Value)
  | text _ => []
  | array items _ => items.toList.mapIdx fun i v => (if i = 0 then "" else " ", v)
  | record _ d items _ =>
    (d.fields.zip items.toList).mapIdx fun i (name, v) =>
      ((if i = 0 then "" else ", ") ++ name ++ ": ", v)

end Obj

namespace Heap

variable {σ : Type}

/-- The sink after a list of pieces, and whether it took all of them. -/
def putAll (put : σ → String → σ × Bool) : List String → σ → σ × Bool
  | [], s => (s, true)
  | p :: ps, s =>
    match put s p with
    | (s, true) => putAll put ps s
    | (s, false) => (s, false)

/-- The walk over the values that an object holds, by a walk over one value. -/
def walkEntries (put : σ → String → σ × Bool) (visit : Value → Heap → σ → Heap × σ × Bool) :
    List (String × Value) → Heap → σ → Heap × σ × Bool
  | [], h, s => (h, s, true)
  | (t, v) :: rest, h, s =>
    match put s t with
    | (s, false) => (h, s, false)
    | (s, true) =>
      match visit v h s with
      | (h, s, false) => (h, s, false)
      | (h, s, true) => walkEntries put visit rest h s

/-- The walk over an object whose mark is set: the text before what it holds, what it holds, and
    the text after it. -/
def walkObject (put : σ → String → σ × Bool) (visit : Value → Heap → σ → Heap × σ × Bool)
    (x : Obj) (h : Heap) (s : σ) : Heap × σ × Bool :=
  match put s x.opening with
  | (s, false) => (h, s, false)
  | (s, true) =>
    match walkEntries put visit x.entries h s with
    | (h, s, false) => (h, s, false)
    | (h, s, true) => (h, put s x.closing)

/-- The heap with the mark of an object set or cleared. -/
def mark (h : Heap) (o : ObjId) (v : Bool) : Heap :=
  h.setObject o ((h.object o).setVisiting v)

/-- The heap and the sink after a value has been written, and whether the sink took all of it.
    The number bounds how many objects can be inside each other. -/
def walk (put : σ → String → σ × Bool) : Nat → Value → Heap → σ → Heap × σ × Bool
  | fuel, .obj o, h, s =>
    match (h.object o).visiting? with
    | none => (h, put s (h.object o).opening)
    | some true => (h, put s (h.object o).abbreviation)
    | some false =>
      match fuel with
      | 0 => (h, s, true)
      | fuel + 1 =>
        let (h, r) := walkObject put (walk put fuel) (h.object o) (h.mark o true) s
        (h.mark o false, r)
  | _, v, h, s => (h, putAll put (h.leaf v) s)

/-- The text of a value.  Objects can be inside each other only as deep as there are objects. -/
def display (h : Heap) (v : Value) : String :=
  (walk (fun s p => (s ++ p, true)) h.objects.size v h "").2.1

/-- The text of a value with its kind. -/
def describe (h : Heap) : Value → String
  | .char c => "Char(" ++ Quoted.char (byteChar c) ++ ")"
  | .int n => "Int(" ++ toString n.toInt ++ ")"
  | .float x => "Float(" ++ String.join (FloatText.plain x) ++ ")"
  | .bool b => "Bool(" ++ boolText b ++ ")"
  | .type t => "Type(" ++ t.describe ++ ")"
  | .xt w => "Xt(" ++ Quoted.text (h.word w).name.text ++ ")"
  | .ptr p => "Ptr(" ++ Quoted.text (h.word p.target).name.text ++ "+" ++ toString p.index ++ ")"
  | .obj o => "Obj(" ++ (h.object o).type.describe ++ ")"
  | .binop op => "BinOp(" ++ op.symbol ++ ")"

/-- The text of the code of a word. -/
def codeText (h : Heap) : Code → String
  | .native _ => "native"
  | .docol => "docol"
  | .indirect body entry => "[docol] " ++ (h.word body).label ++ "+" ++ toString entry

/-- The text of an element. -/
def elemText (h : Heap) : Elem → String
  | .direct c => h.codeText c
  | .call w => "call " ++ (h.word w).label
  | .lit (.obj o) => "lit \x22" ++ h.display (.obj o) ++ "\x22"
  | .lit v => "lit " ++ h.display v
  | .recurse => "recurse"

/-- The elements of a word, one to a line, each with its position. -/
def listing (h : Heap) (w : WordId) : String :=
  String.join ((h.word w).body.toList.mapIdx fun i e => toString i ++ ": " ++ h.elemText e ++ "\n")

end Heap
end ThreadedForth
