import StagedDiagnostics.Scan.Glyph

/-!
# Scan/Token — brackets outside strings and comments, and strings left open

    glyphs ──Scanner.next──▸ modes        Scanner.emits: the token a glyph gives rise to

The scanner is a machine with four modes.  A comment runs from `#` to the end of its line, a string
from a quote to the next one; inside a string a backslash takes the glyph after it along, whatever
it is.  A string that meets a newline or the end of the text is unterminated.
-/

namespace StagedDiagnostics

/-- A bracket outside strings and comments, with its offset, or a string left open, with the offsets
of its first and last glyph. -/
inductive Token
  | opening (d : Delimiter) (offset : Nat)
  | closing (d : Delimiter) (offset : Nat)
  | unterminated (first last : Nat)
  deriving DecidableEq, Repr

/-- Where the scanner is: in code, in a comment, in a string, or right after a backslash in a
string. -/
inductive Mode
  | code
  | comment
  | string (first : Nat)
  | escaped (first : Nat)
  deriving DecidableEq, Repr

/-- The scanner: its mode and the number of glyphs behind it. -/
structure Scanner where
  mode : Mode
  offset : Nat
  deriving DecidableEq, Repr

namespace Scanner

/-- The scanner in front of a text. -/
def initial : Scanner := ⟨.code, 0⟩

/-- The mode after a glyph. -/
def nextMode (s : Scanner) (g : Glyph) : Mode :=
  match s.mode, g with
  | .code, .hash => .comment
  | .code, .quote => .string s.offset
  | .code, _ => .code
  | .comment, .newline => .code
  | .comment, _ => .comment
  | .string first, .backslash => .escaped first
  | .string _, .quote => .code
  | .string _, .newline => .code
  | .string first, _ => .string first
  | .escaped first, _ => .string first

/-- The scanner after a glyph. -/
def next (s : Scanner) (g : Glyph) : Scanner := ⟨s.nextMode g, s.offset + 1⟩

/-- The token a glyph gives rise to. -/
def emits (s : Scanner) (g : Glyph) : Option Token :=
  match s.mode, g with
  | .code, .opening d => some (.opening d s.offset)
  | .code, .closing d => some (.closing d s.offset)
  | .string first, .newline => some (.unterminated first (s.offset - 1))
  | _, _ => none

/-- The token the end of the text gives rise to. -/
def emitsAtEnd (s : Scanner) : Option Token :=
  match s.mode with
  | .string first => some (.unterminated first (s.offset - 1))
  | .escaped first => some (.unterminated first (s.offset - 1))
  | _ => none

/-- The scanner after some glyphs. -/
def nextAll (s : Scanner) (gs : List Glyph) : Scanner := gs.foldl next s

/-- The tokens that some glyphs give rise to, the end of the text aside. -/
def tokens (s : Scanner) : List Glyph → List Token
  | [] => []
  | g :: gs => (s.emits g).toList ++ (s.next g).tokens gs

@[simp] theorem offset_next (s : Scanner) (g : Glyph) : (s.next g).offset = s.offset + 1 := rfl

@[simp] theorem nextAll_nil (s : Scanner) : s.nextAll [] = s := rfl

@[simp] theorem nextAll_cons (s : Scanner) (g : Glyph) (gs : List Glyph) :
    s.nextAll (g :: gs) = (s.next g).nextAll gs := rfl

@[simp] theorem nextAll_append (s : Scanner) (gs hs : List Glyph) :
    s.nextAll (gs ++ hs) = (s.nextAll gs).nextAll hs := List.foldl_append

@[simp] theorem tokens_nil (s : Scanner) : s.tokens [] = [] := rfl

@[simp] theorem tokens_cons (s : Scanner) (g : Glyph) (gs : List Glyph) :
    s.tokens (g :: gs) = (s.emits g).toList ++ (s.next g).tokens gs := rfl

/-- **Scanning goes on where it stopped.** -/
@[simp] theorem tokens_append (s : Scanner) (gs hs : List Glyph) :
    s.tokens (gs ++ hs) = s.tokens gs ++ (s.nextAll gs).tokens hs := by
  induction gs generalizing s with
  | nil => rfl
  | cons g gs ih => simp [ih]

/-- The scanner passes one glyph at a time. -/
@[simp] theorem offset_nextAll (s : Scanner) (gs : List Glyph) :
    (s.nextAll gs).offset = s.offset + gs.length := by
  induction gs generalizing s with
  | nil => rfl
  | cons g gs ih => simp [ih]; omega

end Scanner

/-- All tokens of a text. -/
def Token.ofGlyphs (gs : List Glyph) : List Token :=
  Scanner.initial.tokens gs ++ (Scanner.initial.nextAll gs).emitsAtEnd.toList

end StagedDiagnostics
