/-!
# Text/Utf8 — characters as bytes, and bytes back

    characters ──encode──▸ bytes ──decode──▸ characters

`encode` writes a character as a lead byte and up to three continuation bytes.  `decode` never
fails: bytes that start a character and cannot be finished become one replacement character, and so
does every byte that starts none.
-/

namespace StagedDiagnostics.Utf8

/-! ## Writing -/

/-- The bytes of a text. -/
def encode (cs : List Char) : List UInt8 := cs.flatMap String.utf8EncodeChar

@[simp] theorem encode_nil : encode [] = [] := rfl

@[simp] theorem encode_cons (c : Char) (cs : List Char) :
    encode (c :: cs) = String.utf8EncodeChar c ++ encode cs := rfl

@[simp] theorem encode_append (cs ds : List Char) : encode (cs ++ ds) = encode cs ++ encode ds :=
  List.flatMap_append

/-- A byte that continues a character rather than starting one. -/
def isContinuation (b : UInt8) : Bool := 0x80 ≤ b && b < 0xC0

/-! ## Reading

The reader keeps one unfinished character at most, with the range its next byte has to lie in: the
ranges after `0xE0`, `0xED`, `0xF0` and `0xF4` shut out overlong forms, surrogates and what lies
above the last code point. -/

/-- What stands for bytes that are no character. -/
def replacement : Char := '\uFFFD'

/-- A character some of whose bytes are still to come: the value of those read, the number missing,
and the range of the next one. -/
structure Unfinished where
  value : Nat
  missing : Nat
  low : UInt8
  high : UInt8

/-- What a byte in first place says. -/
inductive Lead
  | whole (c : Char)
  | opens (u : Unfinished)
  | invalid

/-- The reading of a byte in first place. -/
def Lead.ofByte (b : UInt8) : Lead :=
  if b < 0x80 then .whole (Char.ofNat b.toNat)
  else if b < 0xC2 then .invalid
  else if b < 0xE0 then .opens ⟨b.toNat - 0xC0, 1, 0x80, 0xBF⟩
  else if b < 0xF0 then
    .opens ⟨b.toNat - 0xE0, 2, if b = 0xE0 then 0xA0 else 0x80, if b = 0xED then 0x9F else 0xBF⟩
  else if b < 0xF5 then
    .opens ⟨b.toNat - 0xF0, 3, if b = 0xF0 then 0x90 else 0x80, if b = 0xF4 then 0x8F else 0xBF⟩
  else .invalid

/-- Reads a byte in first place: the characters it finishes and the one it leaves open. -/
def start (b : UInt8) : List Char × Option Unfinished :=
  match Lead.ofByte b with
  | .whole c => ([c], none)
  | .opens u => ([], some u)
  | .invalid => ([replacement], none)

/-- Reads one byte.  A byte outside the range replaces the open character and is read again in first
place. -/
def step : Option Unfinished → UInt8 → List Char × Option Unfinished
  | none, b => start b
  | some u, b =>
    if u.low ≤ b ∧ b ≤ u.high then
      let value := u.value * 64 + (b.toNat - 0x80)
      if u.missing = 1 then ([Char.ofNat value], none)
      else ([], some ⟨value, u.missing - 1, 0x80, 0xBF⟩)
    else (replacement :: (start b).1, (start b).2)

/-- What an open character leaves where the bytes end. -/
def flush : Option Unfinished → List Char
  | none => []
  | some _ => [replacement]

/-- Reads bytes after an open character. -/
def decodeFrom (u : Option Unfinished) : List UInt8 → List Char
  | [] => flush u
  | b :: bs => (step u b).1 ++ decodeFrom (step u b).2 bs

/-- The text some bytes stand for. -/
def decode (bs : List UInt8) : List Char := decodeFrom none bs

end StagedDiagnostics.Utf8
