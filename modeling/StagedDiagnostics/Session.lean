import StagedDiagnostics.Document.Disk
import StagedDiagnostics.Document.Edit
import StagedDiagnostics.Publication

/-!
# Session — a client, its documents and what it is told

    occasion ──step──▸ session, reply, notifications

A session holds the text of every open document, its live parse, and the cache of passes.  A parse
is made at every open, change and save; a full analysis is run at every open and save, by an
analyzer that may answer anything and may break down.  A document that is saved without being open
is read from disk, and so is one that is changed by no edits.  Whatever an event has done before it
is refused stays done.
-/

namespace StagedDiagnostics

/-- What runs a full analysis: from the name and the text of a document to a result. -/
abbrev Analyzer := String → String → Except Fault AnalysisResult

/-- What a client says. -/
inductive Event
  /-- The session starts, at the root a URI or else a path names. -/
  | start (rootUri rootPath : Option String)
  | didOpen (uri : Uri) (text : String)
  | didChange (uri : Uri) (edits : List Edit)
  | didSave (uri : Uri)
  | didClose (uri : Uri)
  /-- The client asks for the diagnostics of a document. -/
  | pull (uri : Uri)

/-- An event, with what surrounds it: the disk, which stays as it is until the event is dealt with,
and the directory the session works in. -/
structure Occasion where
  event : Event
  disk : Disk
  directory : String

/-- A run: what happens, each time with the analyzer there is for it. -/
abbrev Run := List (Occasion × Option Analyzer)

/-- What a client is answered. -/
inductive Reply
  | done
  | items (ds : List Diagnostic)
  deriving DecidableEq, Repr

/-- The state of a session.  There is no store of documents before the session has started; the
store tells documents apart by their plain form, parses and cache by their URI as it is. -/
structure Session where
  resolver : Resolver
  documents : Option (Table String String)
  parses : Table Uri Parse
  cache : Cache

/-- What an event leads to: the session after it, the reply, the notifications sent, and the calls
of the analyzer with name and text. -/
structure Outcome where
  session : Session
  reply : Except Fault Reply
  published : List Publication
  calls : List (String × String)

namespace Session

/-- The session before anything has happened. -/
def initial (directory : String) : Session := ⟨.ofRoot directory none, none, .empty, .empty⟩

/-- An event that is accepted and sends nothing. -/
def accepted (s : Session) : Outcome := ⟨s, .ok .done, [], []⟩

/-- An event that is refused. -/
def refused (s : Session) (fault : Fault) : Outcome := ⟨s, .error fault, [], []⟩

/-! ## Parsing and analyzing -/

/-- The session with a new live parse. -/
def withParse (s : Session) (uri : Uri) (p : Parse) : Session :=
  { s with parses := s.parses.insert uri p }

/-- The session with another cache. -/
def withCache (s : Session) (c : Cache) : Session := { s with cache := c }

/-- The live parse of a text; it carries the name an analyzer knows the document by. -/
def parseOf (uri : Uri) (text : String) : Except Fault Parse :=
  (Uri.filename? uri).map fun name => Parse.ofText text name

/-- Parses a document and leaves it at that. -/
def parseOnly (s : Session) (uri : Uri) (text : String) : Outcome :=
  match parseOf uri text with
  | .error fault => s.refused fault
  | .ok p => (s.withParse uri p).accepted

/-- The session with a mark on a document, unless the cache knows the document already. -/
def markUnknown (s : Session) (uri : Uri) : Session :=
  if s.cache.contains uri then s else s.withCache (s.cache.markOutOfScope uri)

/-- The pass an analyzer makes of a document. -/
def passOf (s : Session) (analyzer : Analyzer) (uri : Uri) (name text : String) :
    Except Fault Pass := do
  Pass.ofResult uri (← analyzer name text) s.resolver

/-- Runs a full analysis of a document and publishes everything that is subject to analysis.  A
document nobody can analyze is marked instead. -/
def analyze (s : Session) (analyzer : Option Analyzer) (uri : Uri) (text : String) : Outcome :=
  match Uri.filename? uri, analyzer with
  | .error fault, _ => s.refused fault
  | .ok (some name), some analyzer =>
    match s.passOf analyzer uri name text with
    | .error fault => ⟨s, .error fault, [], [(name, text)]⟩
    | .ok p =>
      let s := s.withCache (s.cache.record p)
      ⟨s, .ok .done, Publication.sweep s.cache, [(name, text)]⟩
  | .ok _, _ => (s.markUnknown uri).accepted

/-- Parses a document and runs a full analysis of it. -/
def parseAndAnalyze (s : Session) (analyzer : Option Analyzer) (uri : Uri) (text : String) :
    Outcome :=
  match parseOf uri text with
  | .error fault => s.refused fault
  | .ok p => (s.withParse uri p).analyze analyzer uri text

/-! ## Events -/

/-- The root a client names; a URI that is not empty comes before a path. -/
def rootOf (rootUri rootPath : Option String) : Except Fault (Option String) :=
  match rootUri, rootPath with
  | some uri, path => do
    let root ← Uri.filePath? uri
    return if uri = "" then path else root
  | none, some path => (Uri.ofPath path).map fun _ => some path
  | none, none => .ok none

/-- Starts the session anew with an empty store; parses and cache stay. -/
def start (s : Session) (directory : String) (rootUri rootPath : Option String) : Outcome :=
  match rootOf rootUri rootPath with
  | .error fault => s.refused fault
  | .ok root => accepted { s with resolver := .ofRoot directory root, documents := some .empty }

/-- The session with another text of a document in its store. -/
def withText (s : Session) (documents : Table String String) (uri : Uri) (text : String) :
    Session :=
  { s with documents := some (documents.insert (Uri.plain uri) text) }

/-- Stores a document, parses it and analyzes it. -/
def didOpen (s : Session) (analyzer : Option Analyzer) (uri : Uri) (text : String) : Outcome :=
  match s.documents, Uri.diskPath uri with
  | none, _ => s.refused .notInitialized
  | some _, .error fault => s.refused fault
  | some documents, .ok _ => (s.withText documents uri text).parseAndAnalyze analyzer uri text

/-- The text of a document: the stored one, or else what the disk holds. -/
def sourceOf (documents : Table String String) (disk : Disk) (uri : Uri) : Except Fault String :=
  match documents.get? (Uri.plain uri) with
  | some text => .ok text
  | none => disk.read uri

/-- The store after some edits of a document; only where there are none may it lack the document. -/
def edited (documents : Table String String) (uri : Uri) (edits : List Edit) :
    Except Fault (Table String String) :=
  match documents.get? (Uri.plain uri) with
  | some old => .ok (documents.insert (Uri.plain uri) (Edit.applyAll old edits))
  | none => if edits.isEmpty then .ok documents else .error (.notOpen (Uri.plain uri))

/-- Changes a document and parses it. -/
def didChange (s : Session) (disk : Disk) (uri : Uri) (edits : List Edit) : Outcome :=
  match s.documents with
  | none => s.refused .notInitialized
  | some documents =>
    match edited documents uri edits with
    | .error fault => s.refused fault
    | .ok documents =>
      let s := { s with documents := some documents }
      match sourceOf documents disk uri with
      | .error fault => s.refused fault
      | .ok text => s.parseOnly uri text

/-- Parses and analyzes a document as it is. -/
def didSave (s : Session) (analyzer : Option Analyzer) (disk : Disk) (uri : Uri) : Outcome :=
  match s.documents with
  | none => s.refused .notInitialized
  | some documents =>
    match sourceOf documents disk uri with
    | .error fault => s.refused fault
    | .ok text => s.parseAndAnalyze analyzer uri text

/-- Forgets a document with its parse and its passes, and publishes what has changed by that. -/
def didClose (s : Session) (uri : Uri) : Outcome :=
  match s.documents with
  | none => s.refused .notInitialized
  | some documents =>
    let (cache, changed) := s.cache.discard uri
    let s := { s with
      documents := some (documents.erase (Uri.plain uri))
      parses := s.parses.erase uri
      cache := cache }
    ⟨s, .ok .done, Publication.ofUris cache changed, []⟩

/-- Answers from the live parse. -/
def pull (s : Session) (uri : Uri) : Outcome :=
  ⟨s, (Publication.answer (s.parses.get? uri) uri).map .items, [], []⟩

/-- What an occasion leads to, with the analyzer there is for it. -/
def step (s : Session) (analyzer : Option Analyzer) (o : Occasion) : Outcome :=
  match o.event with
  | .start rootUri rootPath => s.start o.directory rootUri rootPath
  | .didOpen uri text => s.didOpen analyzer uri text
  | .didChange uri edits => s.didChange o.disk uri edits
  | .didSave uri => s.didSave analyzer o.disk uri
  | .didClose uri => s.didClose uri
  | .pull uri => s.pull uri

/-- What a run leads to, step by step. -/
def outcomes (s : Session) : Run → List Outcome
  | [] => []
  | e :: es =>
    let o := s.step e.2 e.1
    o :: o.session.outcomes es

/-- The session after a run. -/
def after (s : Session) (es : Run) : Session := es.foldl (fun s e => (s.step e.2 e.1).session) s

@[simp] theorem after_nil (s : Session) : s.after [] = s := rfl

@[simp] theorem after_append (s : Session) (es fs : Run) :
    s.after (es ++ fs) = (s.after es).after fs := List.foldl_append

end Session

end StagedDiagnostics
