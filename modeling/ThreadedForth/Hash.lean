/-
  A 32-bit hash of bytes.

  Each byte is folded in by an exclusive or and a multiplication (the FNV-1a
  scheme).  It gives the `hash` of strings and the keys of names.
-/
namespace ThreadedForth

/-- The hash of no bytes. -/
def hashBasis : UInt32 := 0x811c9dc5

/-- The hash of bytes that follow bytes of the hash `h`. -/
def hashFrom (h : UInt32) (bs : List UInt8) : UInt32 :=
  bs.foldl (fun h b => (h ^^^ b.toUInt32) * 0x01000193) h

/-- The hash of a list of bytes. -/
def hashBytes (bs : List UInt8) : UInt32 :=
  hashFrom hashBasis bs

end ThreadedForth
