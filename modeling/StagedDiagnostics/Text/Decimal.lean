/-!
# Text/Decimal — reading and showing a whole number

A number may stand between blanks and carry a sign; its digits may come from any script, and single
underscores may separate them.  Numbers of more than `maxDigits` digits are neither read nor shown.
-/

namespace StagedDiagnostics.Decimal

/-- The code points of the zeros: the digits of a script follow its zero in order. -/
def zeros : List Nat := [
    0x30, 0x660, 0x6F0, 0x7C0, 0x966, 0x9E6, 0xA66, 0xAE6, 0xB66, 0xBE6, 0xC66, 0xCE6, 0xD66, 0xDE6,
    0xE50, 0xED0, 0xF20, 0x1040, 0x1090, 0x17E0, 0x1810, 0x1946, 0x19D0, 0x1A80, 0x1A90, 0x1B50,
    0x1BB0, 0x1C40, 0x1C50, 0xA620, 0xA8D0, 0xA900, 0xA9D0, 0xA9F0, 0xAA50, 0xABF0, 0xFF10, 0x104A0,
    0x10D30, 0x11066, 0x110F0, 0x11136, 0x111D0, 0x112F0, 0x11450, 0x114D0, 0x11650, 0x116C0,
    0x11730, 0x118E0, 0x11950, 0x11C50, 0x11D50, 0x11DA0, 0x16A60, 0x16AC0, 0x16B50, 0x1D7CE,
    0x1D7D8, 0x1D7E2, 0x1D7EC, 0x1D7F6, 0x1E140, 0x1E2F0, 0x1E950, 0x1FBF0
  ]

/-- The value of a digit of any script. -/
def digit? (c : Char) : Option Nat :=
  (zeros.find? fun z => z ≤ c.toNat && c.toNat < z + 10).map (c.toNat - ·)

/-- A digit of any script. -/
def isDigit (c : Char) : Bool := (digit? c).isSome

/-- The blanks a number may stand between. -/
def isBlank (c : Char) : Bool :=
  let n := c.toNat
  (0x09 ≤ n && n ≤ 0x0D) || n == 0x20 || n == 0x85 || n == 0xA0 || n == 0x1680 ||
    (0x2000 ≤ n && n ≤ 0x200A) || n == 0x2028 || n == 0x2029 || n == 0x202F || n == 0x205F ||
    n == 0x3000

/-- The most digits a number may have. -/
def maxDigits : Nat := 4300

/-- The values of digits that single underscores may separate; `digitsTail?` reads on after a
digit. -/
def digitsTail? : List Char → Option (List Nat)
  | [] => some []
  | '_' :: c :: cs => do return (← digit? c) :: (← digitsTail? cs)
  | c :: cs => do return (← digit? c) :: (← digitsTail? cs)

/-- The values of the digits of an unsigned number; at least one is asked for. -/
def digits? : List Char → Option (List Nat)
  | [] => none
  | c :: cs => do return (← digit? c) :: (← digitsTail? cs)

/-- The number some digits stand for. -/
def ofDigits (ds : List Nat) : Nat := ds.foldl (fun n d => 10 * n + d) 0

/-- Reads a number without a sign. -/
def natural? (cs : List Char) : Option Nat := do
  let ds ← digits? cs
  if ds.length ≤ maxDigits then some (ofDigits ds) else none

/-- A text without the blanks at its two ends. -/
def trim (cs : List Char) : List Char :=
  ((cs.dropWhile isBlank).reverse.dropWhile isBlank).reverse

/-- Reads a whole number. -/
def integer? (cs : List Char) : Option Int :=
  match trim cs with
  | '-' :: ds => (natural? ds).map fun n => -(n : Int)
  | '+' :: ds => (natural? ds).map fun n => (n : Int)
  | ds => (natural? ds).map fun n => (n : Int)

/-- Shows a whole number. -/
def show? (n : Int) : Option String :=
  if (Nat.toDigits 10 n.natAbs).length ≤ maxDigits then some n.repr else none

end StagedDiagnostics.Decimal
