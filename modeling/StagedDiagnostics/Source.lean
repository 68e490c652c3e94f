import StagedDiagnostics.Position
import StagedDiagnostics.Text.Utf8

/-!
# Source — a text whose bytes are counted

    byte offset ──locate──▸ line and column ──position──▸ client position

Reports name bytes of the UTF-8 form of a text.  `locate` finds the line and the column of an offset
by passing over the bytes before it: a line feed starts a line, and every byte that starts a
character advances the column.  A character cut by the offset has been started, so it counts.
-/

namespace StagedDiagnostics

/-! ## Passing over bytes -/

/-- A line and a column, both counted from one. -/
structure Cursor where
  line : Nat
  column : Nat
  deriving DecidableEq, Repr

namespace Cursor

/-- Where a text starts. -/
def origin : Cursor := ⟨1, 1⟩

/-- Passes over one byte. -/
def pass (c : Cursor) (b : UInt8) : Cursor :=
  if b = 0x0A then ⟨c.line + 1, 1⟩
  else if Utf8.isContinuation b then c
  else ⟨c.line, c.column + 1⟩

/-- Passes over some bytes. -/
def passAll (c : Cursor) (bs : List UInt8) : Cursor := bs.foldl pass c

@[simp] theorem passAll_nil (c : Cursor) : c.passAll [] = c := rfl

@[simp] theorem passAll_cons (c : Cursor) (b : UInt8) (bs : List UInt8) :
    c.passAll (b :: bs) = (c.pass b).passAll bs := rfl

@[simp] theorem passAll_append (c : Cursor) (as bs : List UInt8) :
    c.passAll (as ++ bs) = (c.passAll as).passAll bs := List.foldl_append

end Cursor

/-! ## Sources -/

/-- A text and the name it is reported under. -/
structure Source where
  text : String
  filename : Option String
  deriving DecidableEq, Repr

/-- Where an offset lies: line and column count from one, and the offset is inside the text. -/
structure Location where
  line : Nat
  column : Nat
  offset : Nat
  filename : Option String
  deriving DecidableEq, Repr

/-- A location as it is shown to people. -/
def Location.render (l : Location) : String :=
  let place := l.line.repr ++ ":" ++ l.column.repr
  match l.filename with
  | some name => if name = "" then place else name ++ ":" ++ place
  | none => place

namespace Source

/-- The bytes of the text. -/
def bytes (s : Source) : List UInt8 := Utf8.encode s.text.toList

/-- The number of bytes. -/
def size (s : Source) : Nat := s.bytes.length

/-- The number of lines; the last one may be empty. -/
def lineCount (s : Source) : Nat := s.bytes.count 0x0A + 1

/-- The offset of the text that is nearest to a number. -/
def clamp (s : Source) (offset : Int) : Nat := min offset.toNat s.size

/-- An offset of the text is nearest to itself. -/
theorem clamp_ofNat {s : Source} {n : Nat} (h : n ≤ s.size) : s.clamp n = n := by
  simp [clamp, Nat.min_eq_left h]

theorem clamp_le (s : Source) (offset : Int) : s.clamp offset ≤ s.size := Nat.min_le_right _ _

/-- The line and column of an offset of the text. -/
def cursor (s : Source) (offset : Nat) : Cursor := Cursor.origin.passAll (s.bytes.take offset)

/-- Where an offset lies. -/
def locate (s : Source) (offset : Int) : Location :=
  let c := s.cursor (s.clamp offset)
  ⟨c.line, c.column, s.clamp offset, s.filename⟩

/-- The client position of an offset: the line counts from zero, the column is handed on as is. -/
def position (s : Source) (offset : Int) : Except Fault Position :=
  let l := s.locate offset
  Position.checked ((l.line : Int) - 1) l.column

end Source

end StagedDiagnostics
