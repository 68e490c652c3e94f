/-!
# Scan/Glyph — what a scanner sees in a byte or a character

Only ten code points matter to the scanner, all of them ASCII; every other one is `plain`.  A byte
of a longer character is never anything else, so the scanner may walk over bytes
(`Glyph.ofCode_eq_plain`).
-/

namespace StagedDiagnostics

/-- The three kinds of brackets. -/
inductive Delimiter
  | round
  | square
  | curly
  deriving DecidableEq, Repr

namespace Delimiter

/-- The opening bracket of a kind. -/
def opening : Delimiter → Char
  | round => '('
  | square => '['
  | curly => '\x7b'

/-- The closing bracket of a kind. -/
def closing : Delimiter → Char
  | round => ')'
  | square => ']'
  | curly => '\x7d'

end Delimiter

/-- What a byte or a character is to the scanner. -/
inductive Glyph
  | newline
  | quote
  | hash
  | backslash
  | opening (d : Delimiter)
  | closing (d : Delimiter)
  | plain
  deriving DecidableEq, Repr

namespace Glyph

/-- The glyph of a code point. -/
def ofCode (n : Nat) : Glyph :=
  if n = 0x0A then newline
  else if n = 0x22 then quote
  else if n = 0x23 then hash
  else if n = 0x28 then opening .round
  else if n = 0x29 then closing .round
  else if n = 0x5B then opening .square
  else if n = 0x5C then backslash
  else if n = 0x5D then closing .square
  else if n = 0x7B then opening .curly
  else if n = 0x7D then closing .curly
  else plain

/-- The glyph of a byte. -/
def ofByte (b : UInt8) : Glyph := ofCode b.toNat

/-- The glyph of a character. -/
def ofChar (c : Char) : Glyph := ofCode c.toNat

/-- **Outside ASCII everything is plain.** -/
theorem ofCode_eq_plain {n : Nat} (h : 0x80 ≤ n) : ofCode n = plain := by
  unfold ofCode
  iterate 10 rw [if_neg (by omega)]

end Glyph

end StagedDiagnostics
