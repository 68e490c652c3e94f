import StagedDiagnostics.Path
import StagedDiagnostics.Uri.File

/-!
# Document/Disk — documents that are not open

    URI ──Uri.diskPath──▸ path ──disk──▸ text, or why there is none

A document that is not open is read from disk.  What a disk holds is up to the machine: of a path it
tells a text or a fault, and it knows where relative paths start.  On the empty disk there are only
faults.
-/

namespace StagedDiagnostics

/-- What is at each path: a text, or why there is none. -/
abbrev Disk := String → Except Fault String

namespace Disk

/-- The text of a document on disk. -/
def read (disk : Disk) (uri : Uri) : Except Fault String := do disk (← Uri.diskPath uri)

/-- Why a path has no text where no file exists, and where the only directory is the root, from
which relative paths start. -/
def unreadable (path : String) : Fault :=
  if path.toList.contains '\x00' then .nullInPath
  else if Path.isTooLong path.toList then .pathTooLong path
  else if Path.isTop path.toList then .isDirectory path
  else .noSuchFile path

/-- The disk without any file. -/
def empty : Disk := fun path => .error (unreadable path)

end Disk

end StagedDiagnostics
