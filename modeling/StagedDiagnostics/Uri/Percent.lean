import StagedDiagnostics.Text.Utf8

/-!
# Uri/Percent — escapes of bytes in URIs

`encode` writes the bytes of every character outside a small ASCII set as escapes.  `decode` reads
each run of ASCII characters as bytes, an escape being one byte, and the bytes as UTF-8; what is no
escape and what is not ASCII stays as it is.
-/

namespace StagedDiagnostics.Percent

/-! ## Writing -/

/-- A hexadecimal digit, in upper case. -/
def hexDigit (n : Nat) : Char := if n < 10 then Char.ofNat (0x30 + n) else Char.ofNat (0x37 + n)

/-- The escape of a byte. -/
def escape (b : UInt8) : List Char := ['%', hexDigit (b.toNat / 16), hexDigit (b.toNat % 16)]

/-- The characters that need no escape. -/
def isPlain (c : Char) : Bool :=
  c.isAlphanum || c == '_' || c == '.' || c == '-' || c == '~' || c == '/'

/-- How a character is written. -/
def encodeChar (c : Char) : List Char :=
  if isPlain c then [c] else (String.utf8EncodeChar c).flatMap escape

/-- The written form of a text. -/
def encode (cs : List Char) : List Char := cs.flatMap encodeChar

@[simp] theorem encode_nil : encode [] = [] := rfl

@[simp] theorem encode_cons (c : Char) (cs : List Char) :
    encode (c :: cs) = encodeChar c ++ encode cs := rfl

@[simp] theorem encode_append (cs ds : List Char) : encode (cs ++ ds) = encode cs ++ encode ds :=
  List.flatMap_append

/-! ## Reading -/

/-- The value of a hexadecimal digit of either case. -/
def hexValue? (c : Char) : Option Nat :=
  let n := c.toNat
  if 0x30 ≤ n ∧ n ≤ 0x39 then some (n - 0x30)
  else if 0x41 ≤ n ∧ n ≤ 0x46 then some (n - 0x37)
  else if 0x61 ≤ n ∧ n ≤ 0x66 then some (n - 0x57)
  else none

/-- The byte two hexadecimal digits stand for. -/
def byte? (high low : Char) : Option UInt8 := do
  return UInt8.ofNat (16 * (← hexValue? high) + (← hexValue? low))

/-- Reads on after an unfinished character. -/
def decodeFrom (u : Option Utf8.Unfinished) : List Char → List Char
  | [] => Utf8.flush u
  | '%' :: high :: low :: cs =>
    match byte? high low with
    | some b => (Utf8.step u b).1 ++ decodeFrom (Utf8.step u b).2 cs
    | none => (Utf8.step u 0x25).1 ++ decodeFrom (Utf8.step u 0x25).2 (high :: low :: cs)
  | c :: cs =>
    if c.toNat < 0x80 then
      let b := UInt8.ofNat c.toNat
      (Utf8.step u b).1 ++ decodeFrom (Utf8.step u b).2 cs
    else Utf8.flush u ++ c :: decodeFrom none cs

/-- The text a written form stands for. -/
def decode (cs : List Char) : List Char := decodeFrom none cs

end StagedDiagnostics.Percent
