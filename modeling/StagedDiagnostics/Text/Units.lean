/-!
# Text/Units — lengths in UTF-16 code units

A client counts columns in UTF-16 code units, where a character above the basic plane takes two.
-/

namespace StagedDiagnostics.Utf16

/-- The code units one character takes. -/
def units (c : Char) : Nat := if c.toNat < 0x10000 then 1 else 2

/-- The length of a text in code units. -/
def length : List Char → Nat
  | [] => 0
  | c :: cs => units c + length cs

@[simp] theorem length_nil : length [] = 0 := rfl

@[simp] theorem length_cons (c : Char) (cs : List Char) : length (c :: cs) = units c + length cs :=
  rfl

/-- The number of characters to pass until `n` code units are behind, the last one possibly cut in
two. -/
def charactersWithin : Nat → List Char → Nat
  | 0, _ => 0
  | _ + 1, [] => 0
  | n + 1, c :: cs => charactersWithin (n + 1 - units c) cs + 1

end StagedDiagnostics.Utf16
