import StagedDiagnostics.Capabilities
import StagedDiagnostics.Main
import StagedDiagnostics.Proofs.Session.Leftovers
import StagedDiagnostics.Proofs.Session.Shown
import StagedDiagnostics.Proofs.Session.Freshness
import StagedDiagnostics.Proofs.Buckets.Attribution
import StagedDiagnostics.Proofs.Uri.File
import StagedDiagnostics.Proofs.Session.Scope
import StagedDiagnostics.Proofs.Path.Normal
import StagedDiagnostics.Proofs.Session.FailedAnalysis
import StagedDiagnostics.Proofs.Resolver.Canonical
import StagedDiagnostics.Proofs.Resolver.RoundTrip
import StagedDiagnostics.Proofs.Session.Closing
import StagedDiagnostics.Proofs.Scan.Characters
import StagedDiagnostics.Proofs.Cache.Discard
import StagedDiagnostics.Proofs.Cache.Writes
import StagedDiagnostics.Proofs.Source.Cursor
import StagedDiagnostics.Proofs.Scan.Grammar
import StagedDiagnostics.Proofs.Source.Location
import StagedDiagnostics.Proofs.Cache.Recording
import StagedDiagnostics.Proofs.Resolver.Unresolvable
import StagedDiagnostics.Proofs.Buckets.Refusal
import StagedDiagnostics.Proofs.Uri.Buffer
import StagedDiagnostics.Proofs.VirtualNames.Cut
import StagedDiagnostics.Proofs.VirtualNames.Seam
import StagedDiagnostics.Proofs.Buckets.Visible
import StagedDiagnostics.Proofs.Scan.Order
import StagedDiagnostics.Proofs.Scan.Lines
import StagedDiagnostics.Proofs.Scan.Below
import StagedDiagnostics.Proofs.Scan.Nesting
import StagedDiagnostics.Proofs.Source.Inside
import StagedDiagnostics.Proofs.Source.LineTable
import StagedDiagnostics.Proofs.Scan.Termination
