import StagedDiagnostics.Text.Quoted

/-!
# CommandLine/Options — the options of the server and what they are documented as

Every option has its names, and all but two take a value.  `Options.default` holds the values of
options that are not given.
-/

namespace StagedDiagnostics.CommandLine

/-- How much is logged. -/
inductive LogLevel
  | debug
  | info
  | warning
  | error
  deriving DecidableEq, Repr

namespace LogLevel

/-- The levels from the most to the least talkative. -/
def all : List LogLevel := [debug, info, warning, error]

/-- The name of a level. -/
def name : LogLevel → String
  | debug => "debug"
  | info => "info"
  | warning => "warning"
  | error => "error"

/-- The number of a level. -/
def number : LogLevel → Nat
  | debug => 10
  | info => 20
  | warning => 30
  | error => 40

/-- The level of a name. -/
def named? (s : String) : Option LogLevel := all.find? fun l => l.name = s

end LogLevel

/-- What can be set on the command line.  An option that takes a value may be set to none. -/
structure Options where
  tcp : Bool
  host : Option String
  tcpPort : Option Int
  logLevel : Option LogLevel
  analyzer : Option String
  deriving DecidableEq, Repr

/-- What holds unless it is set. -/
def Options.default : Options := ⟨false, some "127.0.0.1", some 2087, some .info, none⟩

/-- The options. -/
inductive Flag
  | help
  | tcp
  | host
  | tcpPort
  | logLevel
  | analyzer
  deriving DecidableEq, Repr

namespace Flag

/-- The names of the options, in the order in which candidates are listed. -/
def names : List (String × Flag) := [
    ("-h", help), ("--help", help), ("--tcp", tcp), ("--host", host), ("--port", tcpPort),
    ("--log-level", logLevel), ("--analyzer", analyzer)
  ]

/-- What an option is called in messages. -/
def title (f : Flag) : String :=
  String.intercalate "/" ((names.filter fun n => n.2 = f).map Prod.fst)

/-- Whether an option takes a value. -/
def takesValue : Flag → Bool
  | help => false
  | tcp => false
  | _ => true

end Flag

/-! ## Texts -/

/-- The name of the program. -/
def program : String := "stagels-lsp"

/-- Lines, each with its end. -/
def unlines (ls : List String) : String := String.join (ls.map (· ++ "\n"))

/-- How the program is called. -/
def usage : String := unlines [
    "usage: stagels-lsp [-h] [--tcp] [--host HOST] [--port PORT]",
    "                   [--log-level \x7bdebug,info,warning,error\x7d]",
    "                   [--analyzer ANALYZER]"
  ]

/-- What the options mean. -/
def help : String := usage ++ unlines [
    "",
    "stagels Language Server",
    "",
    "options:",
    "  -h, --help            show this help message and exit",
    "  --tcp                 Start server in TCP mode instead of stdio",
    "  --host HOST           Host to bind to in TCP mode (default: 127.0.0.1)",
    "  --port PORT           Port to listen on in TCP mode (default: 2087)",
    "  --log-level \x7bdebug,info,warning,error\x7d",
    "                        Logging level (default: info)",
    "  --analyzer ANALYZER   Full analyzer as 'module:attribute' (default: syntax",
    "                        only)"
  ]

/-! ## Misuse -/

/-- What can be wrong with a command line. -/
inductive Misuse
  /-- An abbreviation of several options. -/
  | ambiguous (argument : String) (candidates : List String)
  /-- An option without its value. -/
  | valueMissing (flag : Flag)
  /-- A value for an option that takes none. -/
  | valueIgnored (flag : Flag) (value : String)
  | notANumber (flag : Flag) (value : String)
  | notAChoice (flag : Flag) (value : String)
  /-- Arguments that belong to no option. -/
  | unrecognized (arguments : List String)
  deriving DecidableEq, Repr

namespace Misuse

/-- A complaint about one option. -/
def about (flag : Flag) (complaint : String) : String :=
  "argument " ++ flag.title ++ ": " ++ complaint

/-- What a user is told. -/
def message : Misuse → String
  | ambiguous argument candidates =>
    "ambiguous option: " ++ argument ++ " could match " ++ String.intercalate ", " candidates
  | valueMissing flag => about flag "expected one argument"
  | valueIgnored flag value => about flag ("ignored explicit argument " ++ quoted value)
  | notANumber flag value => about flag ("invalid int value: " ++ quoted value)
  | notAChoice flag value =>
    about flag ("invalid choice: " ++ quoted value ++ " (choose from " ++
      String.intercalate ", " (LogLevel.all.map fun l => quoted l.name) ++ ")")
  | unrecognized arguments => "unrecognized arguments: " ++ String.intercalate " " arguments

/-- What is written when a command line is misused. -/
def report (m : Misuse) : String := usage ++ program ++ ": error: " ++ m.message ++ "\n"

end Misuse

end StagedDiagnostics.CommandLine
