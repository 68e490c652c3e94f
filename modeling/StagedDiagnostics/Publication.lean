import StagedDiagnostics.Cache

/-!
# Publication — what is sent to the client

Push: after a pass, every document that is subject to analysis is published, an empty list included,
so that what is gone disappears (`sweep`).  Pull: a client asks for one document and is answered
from its live parse alone (`answer`).
-/

namespace StagedDiagnostics

/-- A notification: all diagnostics of one document. -/
structure Publication where
  uri : Uri
  diagnostics : List Diagnostic
  deriving DecidableEq, Repr

namespace Publication

/-- The documents that are subject to analysis, in the order of the cache. -/
def subjects (c : Cache) : List Uri :=
  c.entries.filterMap fun e =>
    match e.2 with
    | .outOfScope => none
    | .passes _ => some e.1

/-- A notification for each of some documents, once, in the order of their first mention. -/
def ofUris (c : Cache) (uris : List Uri) : List Publication :=
  uris.eraseDups.map fun uri => ⟨uri, c.full uri⟩

/-- A notification for each document that is subject to analysis. -/
def sweep (c : Cache) : List Publication := (subjects c).map fun uri => ⟨uri, c.full uri⟩

/-- The answer to a pull: the diagnostics of the live parse, if there is one. -/
def answer (parse : Option Parse) (uri : Uri) : Except Fault (List Diagnostic) :=
  match parse with
  | some p => p.diagnostics
  | none => .error (.stale uri)

end Publication

end StagedDiagnostics
