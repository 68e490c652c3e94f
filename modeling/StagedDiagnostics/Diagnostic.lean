import StagedDiagnostics.Report
import StagedDiagnostics.Parse
import StagedDiagnostics.Resolver

/-!
# Diagnostic — what a client is shown, and how reports turn into it

    report ──toDiagnostic──▸ diagnostic

A syntax report covers the bytes it names, every other report all of a line.  An inference report
carries its callers along as related places, the closest first; a caller without a file is left out,
whatever else it says.  A conversion is refused where a line lies outside what a client can name, a
file cannot be placed, or something a report refers to is missing.
-/

namespace StagedDiagnostics

/-- A place that has to do with a diagnostic. -/
structure Related where
  uri : Uri
  range : Range
  message : String
  deriving DecidableEq, Repr

/-- What a client is shown; the optional parts are left out where they are absent. -/
structure Diagnostic where
  range : Range
  message : String
  severity : Option Severity
  origin : Option String
  related : Option (List Related)
  deriving DecidableEq, Repr

namespace Diagnostic

/-- The name of the scanner in diagnostics. -/
def syntaxOrigin : String := "stagels-syntax"

/-- The name of the loader in diagnostics. -/
def toplevelOrigin : String := "stagels-toplevel"

/-- The name of type inference in diagnostics. -/
def inferenceOrigin : String := "stagels-inference"

/-- A diagnostic that has only a range and a message. -/
def bare (range : Range) (message : String) : Diagnostic := ⟨range, message, none, none, none⟩

end Diagnostic

/-! ## Syntax -/

/-- The diagnostic of a syntax report whose offsets point into `source`. -/
def SyntaxReport.toDiagnostic (r : SyntaxReport) (source : Source) : Except Fault Diagnostic := do
  let start ← source.position r.first
  let stop ← source.position r.last
  return ⟨⟨start, stop⟩, r.message, some r.level.severity, some Diagnostic.syntaxOrigin, none⟩

/-- The diagnostics of syntax reports, in their order; without a text there can be no reports. -/
def SyntaxReport.toDiagnostics (source : Option Source) (rs : List SyntaxReport) :
    Except Fault (List Diagnostic) :=
  match source, rs with
  | some source, rs => rs.mapM fun r => r.toDiagnostic source
  | none, [] => .ok []
  | none, _ :: _ => .error .noText

/-- The diagnostics of a parse, in its order. -/
def Parse.diagnostics (p : Parse) : Except Fault (List Diagnostic) :=
  SyntaxReport.toDiagnostics (some p.source) p.reports

/-! ## Top level -/

/-- The range of a reported line. -/
def lineRange (line : Int) : Except Fault Range := Range.wholeLine (normalizeLine line)

/-- The diagnostic of a load report; a syntax report inside it is converted as one. -/
def ToplevelReport.toDiagnostic (r : ToplevelReport) (names : VirtualNames) :
    Except Fault Diagnostic :=
  match r.nested, r.source with
  | some nested, some source => nested.toDiagnostic source
  | some _, none => .error .missingNestedSource
  | none, _ => do
    let range ← lineRange r.line
    return ⟨range, names.restore r.message, some .error, some Diagnostic.toplevelOrigin, none⟩

/-! ## Inference -/

/-- The range of a frame. -/
def Frame.range (f : Frame) : Except Fault Range := lineRange f.line

/-- The place of a caller; a caller without a file has none. -/
def Frame.related? (f : Frame) (rendering : Rendering) (names : VirtualNames)
    (resolver : Resolver) : Except Fault (Option Related) :=
  match f.file with
  | none => .ok none
  | some file => do
    let uri ← resolver.resolve file
    let range ← f.range
    return some ⟨uri, range, names.restore (rendering.signature f)⟩

/-- The places of callers, in their order. -/
def relatedPlaces (rendering : Rendering) (names : VirtualNames) (resolver : Resolver) :
    List Frame → Except Fault (List Related)
  | [] => .ok []
  | f :: fs => do
    let place ← f.related? rendering names resolver
    let places ← relatedPlaces rendering names resolver fs
    return place.toList ++ places

/-- The diagnostic of an inference report: the callers come first, the error site last. -/
def InferenceReport.toDiagnostic (r : InferenceReport) (names : VirtualNames)
    (resolver : Resolver) : Except Fault Diagnostic :=
  match r.frames with
  | [] => .error .noFrames
  | site :: callers => do
    let related ← relatedPlaces r.rendering names resolver callers
    let range ← site.range
    return ⟨range, names.restore (r.rendering.message r.message),
      some (r.rendering.severity r.definite), some Diagnostic.inferenceOrigin, some related⟩

/-! ## Reports of any stage -/

namespace Report

/-- The file a report is attributed to. -/
def file? : Report → Except Fault (Option String)
  | syntactic _ => .ok none
  | toplevel r => .ok r.file
  | inference r =>
    match r.frames with
    | [] => .error .noFrames
    | site :: _ => .ok site.file

/-- The diagnostic of a report; only a syntax report needs the source. -/
def toDiagnostic (r : Report) (names : VirtualNames) (resolver : Resolver)
    (source : Option Source) : Except Fault Diagnostic :=
  match r, source with
  | syntactic r, some source => r.toDiagnostic source
  | syntactic _, none => .error .missingSource
  | toplevel r, _ => r.toDiagnostic names
  | inference r, _ => r.toDiagnostic names resolver

/-- The document of a report and its diagnostic there; a report without a document is dropped before
it is converted. -/
def placed? (r : Report) (names : VirtualNames) (resolver : Resolver) :
    Except Fault (Option (Uri × Diagnostic)) := do
  match ← resolver.resolve? (← r.file?) with
  | none => return none
  | some uri => return some (uri, ← r.toDiagnostic names resolver none)

end Report

end StagedDiagnostics
