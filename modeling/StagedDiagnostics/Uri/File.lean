import StagedDiagnostics.Path
import StagedDiagnostics.Uri.Parts

/-!
# Uri/File — file paths as URIs, and URIs as file names

    path ──Uri.ofPath──▸ file URI ──Uri.filename?──▸ path

A path `//authority/rest` names another machine.  A drive letter (`/C:`) is written in lower case
with its colon bare, and it loses its slash on the way back.  An unsaved buffer has the scheme
`untitled` in front of its name.
-/

namespace StagedDiagnostics.Uri

/-- The scheme of files. -/
def fileScheme : List Char := "file".toList

/-- The scheme of unsaved buffers. -/
def untitledScheme : List Char := "untitled".toList

/-! ## From a path -/

/-- The drive letter of a path, and what follows its colon. -/
def drive? : List Char → Option (Char × List Char)
  | '/' :: c :: ':' :: rest => if c.isAlpha then some (c.toLower, rest) else none
  | _ => none

/-- The written form of a path that starts with a slash. -/
def encodePath (path : List Char) : List Char :=
  match drive? path with
  | some (letter, rest) => '/' :: letter :: ':' :: Percent.encode rest
  | none => Percent.encode path

/-- The authority of a path and the path on it; an authority with nothing on it is refused. -/
def splitPath : List Char → Except Fault (List Char × List Char)
  | '/' :: '/' :: cs =>
    match cs.dropWhile (· != '/') with
    | [] => .error .authorityWithoutPath
    | rest => .ok (cs.takeWhile (· != '/'), rest)
  | '/' :: cs => .ok ([], '/' :: cs)
  | cs => .ok ([], '/' :: cs)

/-- The file URI of a path. -/
def ofPathChars (path : List Char) : Except Fault (List Char) := do
  let (authority, rest) ← splitPath path
  return fileScheme ++ "://".toList ++ Percent.encode authority ++ encodePath rest

/-- The file URI of a path. -/
def ofPath (path : String) : Except Fault Uri := (ofPathChars path.toList).map String.ofList

/-- The URI of an unsaved buffer. -/
def ofBuffer (name : String) : Uri := String.ofList (untitledScheme ++ ':' :: name.toList)

/-! ## Back to a path -/

/-- The path on a machine that an authority and a path name. -/
def Parts.pathChars (p : Parts) : List Char :=
  let authority := Percent.decode p.authority
  let path := Percent.decode p.path
  if !authority.isEmpty && !path.isEmpty then '/' :: '/' :: authority ++ path
  else
    match drive? path with
    | some (letter, rest) => letter :: ':' :: rest
    | none => path

/-- The path of a file URI; other URIs have none. -/
def filePath? (uri : Uri) : Except Fault (Option String) := do
  let p ← Parts.ofUri uri.toList
  return if p.scheme = fileScheme then some (String.ofList p.pathChars) else none

/-- The name an analyzer knows a document by: the path of a file, the name of an unsaved buffer, and
none for any other document. -/
def filename? (uri : Uri) : Except Fault (Option String) := do
  let p ← Parts.ofUri uri.toList
  return if p.scheme = fileScheme then some (String.ofList p.pathChars)
    else if p.scheme = untitledScheme then
      some (String.ofList (Percent.decode (uri.toList.drop (untitledScheme.length + 1))))
    else none

/-! ## Where a document would be on disk -/

/-- The schemes whose paths may end in parameters; no scheme at all is one of them. -/
def parameterSchemes : List (List Char) := [
    "", "ftp", "hdl", "http", "https", "imap", "mms", "prospero", "rtsp", "rtspu", "sftp", "shttp",
    "sip", "sips", "tel"
  ].map String.toList

/-- A path without the parameters of its last part, which a semicolon starts. -/
def withoutParameters : List Char → List Char
  | [] => []
  | c :: cs => if c = ';' ∧ '/' ∉ cs then [] else c :: withoutParameters cs

/-- The path of a file, and the path part of any other URI. -/
def Parts.diskChars (p : Parts) : List Char :=
  if p.scheme = fileScheme then p.pathChars
  else if p.scheme ∈ parameterSchemes then Percent.decode (withoutParameters p.path)
  else Percent.decode p.path

/-- Where a document would be on disk. -/
def diskPath (uri : Uri) : Except Fault String := do
  let p ← Parts.ofUri uri.toList
  return String.ofList (Path.tidy p.diskChars)

/-! ## Plain form -/

/-- The form in which documents are told apart by the store. -/
def plain (uri : Uri) : String := String.ofList (Percent.decode uri.toList)

end StagedDiagnostics.Uri
