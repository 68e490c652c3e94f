import StagedDiagnostics.Report
import StagedDiagnostics.Scan.Walk

/-!
# Parse — the live parse of a document

    bytes ──Glyph.ofByte──▸ glyphs ──Token.ofGlyphs──▸ tokens ──Finding.ofTokens──▸ findings
      └────────────────────────────Walk.run─────────────────────────────▸ findings, end

A parse holds its source and one report for every finding at fault, in the order of the text.  A
walk comes to the same findings by offsets, and says where the scan ends.
-/

namespace StagedDiagnostics

/-- A source and what the scanner reports about it. -/
structure Parse where
  source : Source
  reports : List SyntaxReport
  deriving DecidableEq, Repr

namespace Parse

/-- The report on a finding. -/
def report? (f : Finding) : Option SyntaxReport :=
  f.fault?.map fun (first, last, message) => ⟨first, last, .error, message⟩

/-- What becomes of the tokens some glyphs stand for. -/
def findings (gs : List Glyph) : List Finding := Finding.ofTokens (Token.ofGlyphs gs)

/-- The reports on some glyphs, in the order of their first offsets. -/
def reportsOf (gs : List Glyph) : List SyntaxReport :=
  ((findings gs).filterMap report?).mergeSort fun a b => decide (a.first ≤ b.first)

/-- The glyphs of a source. -/
def glyphs (s : Source) : List Glyph := s.bytes.map Glyph.ofByte

/-- The parse of a source. -/
def ofSource (s : Source) : Parse := ⟨s, reportsOf (glyphs s)⟩

/-- The parse of a text. -/
def ofText (text : String) (filename : Option String) : Parse := ofSource ⟨text, filename⟩

/-- The walk over the bytes of a source, where it has stopped. -/
def walk (s : Source) : Walk := Walk.start.run s.bytes.toArray

/-- Where the walk over a source stops. -/
def finalOffset (s : Source) : Nat := (walk s).offset

@[simp] theorem source_ofText (text : String) (filename : Option String) :
    (ofText text filename).source = ⟨text, filename⟩ := rfl

end Parse

end StagedDiagnostics
