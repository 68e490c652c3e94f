import StagedDiagnostics.Position
import StagedDiagnostics.Text.Lines
import StagedDiagnostics.Text.Units

/-!
# Document/Edit — changes of an open document

A change replaces the whole text, or the stretch between two client positions.  Clients count UTF-16
code units on a line; a position beyond the end of its line, or on a line beyond the last, is moved
back to where there is text.
-/

namespace StagedDiagnostics

/-- A change of a document; without a range it replaces everything. -/
structure Edit where
  range : Option Range
  text : String
  deriving DecidableEq, Repr

namespace Edit

/-- A line of a text and a character on it. -/
structure Place where
  line : Nat
  character : Nat
  deriving DecidableEq, Repr

/-- The last character a column of a line can name, counted in code units. -/
def column (line : List Char) (character : Nat) : Nat :=
  if Utf16.length line < character then Utf16.length line - 1 else character

/-- The place of a position.  Beyond the last line it is the end of that line; on a line, a break of
two characters counts as one. -/
def place (lines : List (List Char)) (p : Position) : Place :=
  match lines[p.line]? with
  | some line =>
    let line := Lines.unifyBreak line
    ⟨p.line, Utf16.charactersWithin (column line p.character) line⟩
  | none => ⟨lines.length - 1, Utf16.length (lines.getLast?.getD [])⟩

/-- What a change leaves of the line with number `i`, with the new text where it belongs. -/
def spliceLine (start stop : Place) (text : List Char) (i : Nat) (line : List Char) : List Char :=
  if i < start.line ∨ stop.line < i then line
  else
    (if i = start.line then line.take start.character ++ text else []) ++
      (if i = stop.line then line.drop stop.character else [])

/-- Replaces the stretch between two places of a text that has lines. -/
def splice (start stop : Place) (text : List Char) (lines : List (List Char)) : List Char :=
  (lines.mapIdx (spliceLine start stop text)).flatten

/-- The characters of a text after a change. -/
def applyChars (old : List Char) (range : Range) (text : List Char) : List Char :=
  match Lines.cut old with
  | [] => text
  | lines => splice (place lines range.start) (place lines range.stop) text lines

/-- A text after a change. -/
def apply (old : String) (e : Edit) : String :=
  match e.range with
  | none => e.text
  | some range => String.ofList (applyChars old.toList range e.text.toList)

/-- A text after some changes, one after another. -/
def applyAll (old : String) (es : List Edit) : String := es.foldl apply old

end Edit

end StagedDiagnostics
