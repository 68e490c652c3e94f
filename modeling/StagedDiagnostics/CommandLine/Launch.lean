import StagedDiagnostics.CommandLine.Arguments
import StagedDiagnostics.Registry

/-!
# CommandLine/Launch — what a command line leads to

Help goes to the output and ends well; misuse goes to the error output and ends with code 2.
Settings lead to a server, if they have a level and their analyzer can be loaded; an empty name is
no analyzer.
-/

namespace StagedDiagnostics.CommandLine

/-- How a server talks to its client. -/
inductive Transport
  | stdio
  | tcp (host : Option String) (tcpPort : Option Int)
  deriving DecidableEq, Repr

/-- A server that is started. -/
structure Launch (α : Type) where
  transport : Transport
  analyzer : Option α
  logLevel : LogLevel

/-- How a setting is shown. -/
def shown (setting : Option String) : String := setting.getD "[]"

/-- What is logged when a server starts. -/
def Launch.announcement {α : Type} (l : Launch α) : String :=
  match l.transport with
  | .stdio => "Starting stagels LSP in stdio mode"
  | .tcp host tcpPort =>
    "Starting stagels LSP in TCP mode on " ++ shown host ++ ":" ++ shown (tcpPort.map Int.repr)

/-- Why settings lead to no server. -/
inductive LaunchFault
  | noLevel
  | noAnalyzer (fault : LoadFault)
  deriving DecidableEq, Repr

/-- What a user is told. -/
def LaunchFault.message : LaunchFault → String
  | noLevel => "'list' object has no attribute 'upper'"
  | noAnalyzer fault => fault.message

/-- What a command line leads to. -/
inductive Course (α : Type)
  | launched (l : Launch α)
  | ended (code : Nat) (stdout stderr : String)
  | failed (fault : LaunchFault)

variable {α : Type}

/-- The way settings choose to talk to the client. -/
def Options.transport (o : Options) : Transport := if o.tcp then .tcp o.host o.tcpPort else .stdio

/-- The analyzer settings name. -/
def loadNamed (r : Registry α) : Option String → Except LoadFault (Option α)
  | none => .ok none
  | some name => if name = "" then .ok none else r.load name

/-- Starts a server with some settings. -/
def launch (r : Registry α) (o : Options) : Course α :=
  match o.logLevel, loadNamed r o.analyzer with
  | none, _ => .failed .noLevel
  | some _, .error fault => .failed (.noAnalyzer fault)
  | some level, .ok a => .launched ⟨o.transport, a, level⟩

/-- What a command line leads to. -/
def run (r : Registry α) (arguments : List String) : Course α :=
  match read arguments with
  | .ok o => launch r o
  | .error .help => .ended 0 help ""
  | .error (.misuse m) => .ended 2 "" m.report

end StagedDiagnostics.CommandLine
