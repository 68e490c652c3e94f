import StagedDiagnostics.Diagnostic
import StagedDiagnostics.Table

/-!
# Buckets — the diagnostics of a result, document by document

Reports go into the bucket of their document in the order in which they are reported.  Buckets that
are asked for from the start stand there even if nothing goes into them, so that documents whose
problems are gone are still heard of.
-/

namespace StagedDiagnostics

/-- The diagnostics of each document. -/
abbrev Buckets := Table Uri (List Diagnostic)

namespace Buckets

/-- Empty buckets for some documents. -/
def seed (uris : List Uri) : Buckets := uris.foldl (fun b uri => b.insert uri []) Table.empty

/-- Puts a diagnostic at the end of a bucket; a bucket that is not there yet is added. -/
def push (b : Buckets) (uri : Uri) (d : Diagnostic) : Buckets :=
  b.modify uri fun ds => ds.getD [] ++ [d]

/-- Adds a bucket unless it is there. -/
def ensure (b : Buckets) (uri : Uri) : Buckets := if b.contains uri then b else b.insert uri []

/-- Only the bucket a diagnostic goes into grows. -/
theorem get?_push (b : Buckets) (uri other : Uri) (d : Diagnostic) :
    (b.push uri d).get? other
      = if uri = other then some ((b.get? uri).getD [] ++ [d]) else b.get? other :=
  b.get?_insert uri other _

/-- A new bucket goes to the end. -/
theorem keys_push (b : Buckets) (uri : Uri) (d : Diagnostic) :
    (b.push uri d).keys = if uri ∈ b.keys then b.keys else b.keys ++ [uri] := b.keys_insert uri _

theorem keys_ensure (b : Buckets) (uri : Uri) :
    (b.ensure uri).keys = if uri ∈ b.keys then b.keys else b.keys ++ [uri] := by
  rw [ensure]
  by_cases h : b.contains uri = true
  · rw [if_pos h, if_pos ((b.contains_iff uri).mp h)]
  · rw [if_neg h, b.keys_insert]

/-- Puts reports into buckets, up to the first one that is refused. -/
def extendWith (names : VirtualNames) (resolver : Resolver) (b : Buckets) :
    List Report → Buckets × Option Fault
  | [] => (b, none)
  | r :: rs =>
    match r.placed? names resolver with
    | .error fault => (b, some fault)
    | .ok none => extendWith names resolver b rs
    | .ok (some (uri, d)) => extendWith names resolver (b.push uri d) rs

/-- Puts the reports of a result into buckets; what went in before a refusal stays. -/
def extend (b : Buckets) (result : AnalysisResult) (resolver : Resolver) :
    Buckets × Option Fault :=
  extendWith result.names resolver b result.reports

/-- The buckets of a result, with a bucket for each of `uris`. -/
def ofResultFor (uris : List Uri) (result : AnalysisResult) (resolver : Resolver) :
    Except Fault Buckets :=
  match (seed uris).extend result resolver with
  | (b, none) => .ok b
  | (_, some fault) => .error fault

/-- The buckets of a result, with a bucket for each analyzed file. -/
def ofResult (result : AnalysisResult) (resolver : Resolver) : Except Fault Buckets := do
  ofResultFor (← result.analyzed.mapM resolver.resolve) result resolver

end Buckets

end StagedDiagnostics
