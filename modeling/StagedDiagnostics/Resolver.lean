import StagedDiagnostics.Path
import StagedDiagnostics.Uri.File

/-!
# Resolver — from reported file names to documents

Relative names are read from the root of the workspace.  A name that starts with `Untitled` is that
of an unsaved buffer.  A report without a file has no document.
-/

namespace StagedDiagnostics

/-- The root relative names are read from. -/
structure Resolver where
  root : String
  deriving DecidableEq, Repr

namespace Resolver

/-- The resolver of a workspace; an empty root is no root, and without one names are read from the
working directory. -/
def ofRoot (directory : String) (root : Option String) : Resolver :=
  match root with
  | some r => ⟨if r = "" then directory else r⟩
  | none => ⟨directory⟩

/-- How the names of unsaved buffers start. -/
def bufferPrefix : List Char := "Untitled".toList

/-- The name of an unsaved buffer. -/
def isBuffer (file : String) : Bool := bufferPrefix.isPrefixOf file.toList

/-- The normal form of a name read from the root. -/
def fullPath (r : Resolver) (file : String) : String :=
  String.ofList (Path.normalize (Path.under r.root.toList file.toList))

/-- The document of a file. -/
def resolve (r : Resolver) (file : String) : Except Fault Uri :=
  if isBuffer file then .ok (Uri.ofBuffer file) else Uri.ofPath (r.fullPath file)

/-- The document of a file that may be unknown. -/
def resolve? (r : Resolver) : Option String → Except Fault (Option Uri)
  | none => .ok none
  | some file => (r.resolve file).map some

end Resolver

end StagedDiagnostics
