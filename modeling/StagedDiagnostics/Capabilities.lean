import StagedDiagnostics.CommandLine.Options

/-!
# Capabilities — what the server tells a client about itself

The pull protocol is offered for files and unsaved buffers.  The answers about a document depend on
that document alone, and there are none about the workspace as a whole.
-/

namespace StagedDiagnostics.Capabilities

/-- The version of the server. -/
def version : String := "0.1.0"

/-- The name and the version a server gives. -/
def server : String × String := (CommandLine.program, "v" ++ version)

/-- What is offered for pulls. -/
structure PullOptions where
  identifier : String
  interFileDependencies : Bool
  workspaceDiagnostics : Bool
  deriving DecidableEq, Repr

/-- What the server offers for pulls. -/
def pullOptions : PullOptions := ⟨"stagels/textDocument/diagnostic", false, false⟩

/-- The method of pulls. -/
def pullMethod : String := "textDocument/diagnostic"

/-- The name under which pulls are registered. -/
def registrationId : String := "stagels-diagnostic"

/-- The schemes of the documents pulls are offered for. -/
def schemes : List String := ["file", "untitled"]

/-- The methods the server answers, in alphabetical order. -/
def methods : List String := [
    "initialize", pullMethod, "textDocument/didChange", "textDocument/didClose",
    "textDocument/didOpen", "textDocument/didSave"
  ]

end StagedDiagnostics.Capabilities
