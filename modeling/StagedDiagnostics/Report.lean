import StagedDiagnostics.Source
import StagedDiagnostics.VirtualNames

/-!
# Report — what the stages of analysis say

Three stages report problems: the scanner names bytes of a text (`SyntaxReport`), the loader a file
and a line (`ToplevelReport`), and type inference a call stack (`InferenceReport`).  A complete pass
over a program is an `AnalysisResult`.
-/

namespace StagedDiagnostics

/-! ## Levels -/

/-- How grave the scanner takes a problem to be. -/
inductive Level
  | error
  | warning
  | note
  | help
  deriving DecidableEq, Repr

namespace Level

/-- The level of a name. -/
def named (name : String) : Except Fault Level :=
  if name = "error" then .ok error
  else if name = "warning" then .ok warning
  else if name = "note" then .ok note
  else if name = "help" then .ok help
  else .error (.unknownLevel name)

/-- The name of a level. -/
def name : Level → String
  | error => "error"
  | warning => "warning"
  | note => "note"
  | help => "help"

@[simp] theorem named_name (l : Level) : named l.name = .ok l := by cases l <;> rfl

end Level

/-- How grave a client shows a problem to be. -/
inductive Severity
  | error
  | warning
  | information
  | hint
  deriving DecidableEq, Repr

namespace Severity

/-- The number a client knows a severity by. -/
def code : Severity → Nat
  | error => 1
  | warning => 2
  | information => 3
  | hint => 4

/-- The severity of a number. -/
def ofCode? : Nat → Option Severity
  | 1 => some error
  | 2 => some warning
  | 3 => some information
  | 4 => some hint
  | _ => none

@[simp] theorem ofCode?_code (s : Severity) : ofCode? s.code = some s := by cases s <;> rfl

end Severity

/-- How a level is shown. -/
def Level.severity : Level → Severity
  | error => .error
  | warning => .warning
  | note => .information
  | help => .hint

/-! ## Reports -/

/-- A problem the scanner found: the offsets of its first and its last byte. -/
structure SyntaxReport where
  first : Int
  last : Int
  level : Level
  message : String
  deriving DecidableEq, Repr

/-- A failure to load a unit.  The file is absent if the loader knows none; a failure may wrap a
syntax report, whose offsets then point into `source`. -/
structure ToplevelReport where
  file : Option String
  line : Int
  message : String
  nested : Option SyntaxReport
  source : Option Source
  deriving DecidableEq, Repr

/-- An entry of a call stack; line zero is an unknown line. -/
structure Frame where
  file : Option String
  line : Int
  signature : String
  deriving DecidableEq, Repr

/-- How an inference report is put into words and how grave it is shown. -/
structure Rendering where
  severity : Bool → Severity
  message : String → String
  signature : Frame → String

/-- The usual rendering: certain errors are errors, possible ones warnings, and texts stand as they
are. -/
def Rendering.plain : Rendering where
  severity definite := if definite then .error else .warning
  message := id
  signature := Frame.signature

/-- A problem type inference found.  The frames lead from the error site out to the outermost
caller; `definite` problems will happen, the others may. -/
structure InferenceReport where
  frames : List Frame
  message : String
  definite : Bool
  rendering : Rendering

/-- A report of any stage. -/
inductive Report
  | syntactic (r : SyntaxReport)
  | toplevel (r : ToplevelReport)
  | inference (r : InferenceReport)

/-! ## Results -/

/-- What a complete pass says: the files it went over, what went wrong, and the shadow names its
texts use. -/
structure AnalysisResult where
  analyzed : List String
  toplevel : List ToplevelReport
  inference : List InferenceReport
  names : VirtualNames

namespace AnalysisResult

/-- A result that only says what was analyzed. -/
def clean (files : List String) : AnalysisResult := ⟨files, [], [], .empty⟩

/-- All reports of a result, those of the loader first. -/
def reports (r : AnalysisResult) : List Report :=
  r.toplevel.map .toplevel ++ r.inference.map .inference

end AnalysisResult

end StagedDiagnostics
