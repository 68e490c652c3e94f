import StagedDiagnostics.Text.Decimal
import StagedDiagnostics.Text.Quoted

/-!
# Fault — why an operation refuses

Every refusal has a cause; `message` is its wording for the client.  A pull for a document without a
live parse also has a code of its own and tells the client to ask again.
-/

namespace StagedDiagnostics

/-- Why an operation refuses. -/
inductive Fault
  /-- A position on a line no client can name. -/
  | lineOutOfRange (line : Int)
  /-- A position in a column no client can name. -/
  | characterOutOfRange (character : Int)
  /-- A severity level that does not exist. -/
  | unknownLevel (name : String)
  /-- A syntax report without the text its offsets point into. -/
  | missingSource
  /-- A load report around a syntax report, without the text its offsets point into. -/
  | missingNestedSource
  /-- Syntax reports without the text they were made of. -/
  | noText
  /-- An inference report without an error site. -/
  | noFrames
  /-- A path that names an authority and nothing under it. -/
  | authorityWithoutPath
  /-- A URI whose authority has brackets that do not stand around a machine. -/
  | misplacedBrackets
  /-- A URI with brackets around something that is no numeric address. -/
  | noAddress (machine : String)
  /-- A URI with brackets around a short numeric address. -/
  | bracketedShortAddress
  /-- A URI with brackets around a future address that is not written as one. -/
  | badFutureAddress
  /-- A URI whose authority holds a separator in disguise. -/
  | disguisedSeparator (authority : String)
  /-- A pull for a document without a live parse. -/
  | stale (uri : String)
  /-- A document event before the documents were set up. -/
  | notInitialized
  /-- An edit of a document that is not open. -/
  | notOpen (uri : String)
  /-- A document that is not open and has no file either. -/
  | noSuchFile (path : String)
  /-- A document that is not open and whose file would be a directory. -/
  | isDirectory (path : String)
  /-- A document that is not open and whose path is longer than that of any file. -/
  | pathTooLong (path : String)
  /-- A document that is not open and whose path no file can have. -/
  | nullInPath
  /-- A document that is not open and that the disk, for a reason of its own, has no text of. -/
  | diskFailed (text : String)
  /-- The analyzer broke down. -/
  | analyzerFailed (text : String)
  deriving DecidableEq, Repr

namespace Fault

/-- The bound of lines and columns, as messages show it. -/
def boundText : String := "[0:2147483647]"

/-- What is said where a number with too many digits would be shown. -/
def tooManyDigits : String :=
  "Exceeds the limit (" ++ Decimal.maxDigits.repr ++ " digits) for integer string conversion; " ++
    "use sys.set_int_max_str_digits() to increase the limit"

/-- What is said of a coordinate out of bounds. -/
def outOfRange (coordinate : String) (n : Int) : String :=
  match Decimal.show? n with
  | some shown => coordinate ++ " should be in range " ++ boundText ++ ", but was " ++ shown ++ "."
  | none => tooManyDigits

/-- What a client is told. -/
def message : Fault → String
  | lineOutOfRange n => outOfRange "Position.line" n
  | characterOutOfRange n => outOfRange "Position.character" n
  | unknownLevel name => quoted name ++ " is not a valid DiagnosticLevel"
  | missingSource => "syntax diagnostics need their source buffer"
  | missingNestedSource => "top-level parse failure is missing its source buffer"
  | noText => "'NoneType' object has no attribute 'source_location'"
  | noFrames => "tuple index out of range"
  | authorityWithoutPath => "substring not found"
  | misplacedBrackets => "Invalid IPv6 URL"
  | noAddress machine => quoted machine ++ " does not appear to be an IPv4 or IPv6 address"
  | bracketedShortAddress => "An IPv4 address cannot be in brackets"
  | badFutureAddress => "IPvFuture address is invalid"
  | disguisedSeparator authority =>
    "netloc '" ++ authority ++ "' contains invalid characters under NFKC normalization"
  | stale uri => "File cache for " ++ uri ++ " is not available"
  | notInitialized => "The workspace is not available - has the server been initialized?"
  | notOpen uri => quoted uri
  | noSuchFile path => "[Errno 2] No such file or directory: " ++ quoted path
  | isDirectory path => "[Errno 21] Is a directory: " ++ quoted path
  | pathTooLong path => "[Errno 36] File name too long: " ++ quoted path
  | nullInPath => "embedded null byte"
  | diskFailed text => text
  | analyzerFailed text => text

/-! ## Codes

A client that asks for a document without a live parse is told to ask again. -/

/-- The code of an answer that a change of the document has overtaken. -/
def contentModified : Int := -32801

/-- What a client is handed with a refusal. -/
structure CancellationData where
  retriggerRequest : Bool
  deriving DecidableEq, Repr

/-- The code of a refusal that has one of its own. -/
def code? : Fault → Option Int
  | stale _ => some contentModified
  | _ => none

/-- What comes with a refusal that has a code. -/
def data? : Fault → Option CancellationData
  | stale _ => some ⟨true⟩
  | _ => none

/-- **A client is told to ask again exactly where a document has changed in the meantime.** -/
theorem data?_eq_some_iff {f : Fault} {d : CancellationData} :
    f.data? = some d ↔ d = ⟨true⟩ ∧ f.code? = some contentModified := by
  cases f <;> simp [data?, code?, eq_comm]

end Fault

end StagedDiagnostics
