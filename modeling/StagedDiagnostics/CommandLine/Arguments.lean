import StagedDiagnostics.CommandLine.Options
import StagedDiagnostics.Text.Decimal

/-!
# CommandLine/Arguments — reading the command line

    arguments ──Argument.classify──▸ options and values ──read──▸ settings

All arguments are classified first, so an ambiguous abbreviation is refused before anything else
happens.  Then they are read from left to right; what belongs to no option is collected and refused
at the end, unless help was asked for before.
-/

namespace StagedDiagnostics.CommandLine

/-! ## What an argument is -/

/-- What ends the options.  As a value attached to an option it is no value. -/
def endMark : String := "--"

/-- What an argument is: an option with the value attached to it, `-h` with letters attached to it,
a value, or something like an option that is none. -/
inductive Argument
  | option (flag : Flag) (value : Option String)
  | letters (attached : List Char)
  | value (text : String)
  | stray (text : String)
  deriving DecidableEq, Repr

namespace Argument

/-- A text that could be a negative number, with digits of any script; a line feed may end it. -/
def isNegativeNumber (cs : List Char) : Bool :=
  match cs with
  | '-' :: ds =>
    let ds := if ds.getLast? = some '\n' then ds.dropLast else ds
    let fraction := ds.dropWhile Decimal.isDigit
    match fraction with
    | [] => !ds.isEmpty
    | '.' :: fs => !fs.isEmpty && fs.all Decimal.isDigit
    | _ => false
  | _ => false

/-- The option with exactly this name. -/
def flagNamed? (name : String) : Option Flag := (Flag.names.find? fun n => n.1 = name).map Prod.snd

/-- What comes before the first equals sign. -/
def stem (cs : List Char) : List Char := cs.takeWhile (· != '=')

/-- What comes after the first equals sign, if there is one. -/
def attached? (cs : List Char) : Option String :=
  match cs.dropWhile (· != '=') with
  | [] => none
  | _ :: v => some (String.ofList v)

/-- The options a long name abbreviates. -/
def candidates (name : List Char) : List (String × Flag) :=
  Flag.names.filter fun n => name.isPrefixOf n.1.toList

/-- A text that looks like an option and names none. -/
def unnamed (text : String) : Argument :=
  if isNegativeNumber text.toList || text.toList.contains ' ' then value text else stray text

/-- What a text with two dashes in front is. -/
def long (text : String) : Except Misuse Argument :=
  match flagNamed? text with
  | some flag => .ok (option flag none)
  | none =>
    match flagNamed? (String.ofList (stem text.toList)), candidates (stem text.toList) with
    | some flag, _ => .ok (option flag (attached? text.toList))
    | none, [] => .ok (unnamed text)
    | none, [c] => .ok (option c.2 (attached? text.toList))
    | none, cs => .error (.ambiguous text (cs.map Prod.fst))

/-- What an argument in front of any `--` is. -/
def ofText (text : String) : Except Misuse Argument :=
  match text.toList with
  | '-' :: '-' :: _ => long text
  | ['-', 'h'] => .ok (option .help none)
  | '-' :: 'h' :: '=' :: attached => .ok (letters attached)
  | '-' :: 'h' :: attached => .ok (letters attached)
  | '-' :: _ :: _ => .ok (unnamed text)
  | _ => .ok (value text)

/-- What the arguments are.  After `--` there are no options any more, and neither it nor what
follows it can be the value of an option before it. -/
def classify : List String → Except Misuse (List Argument)
  | [] => .ok []
  | text :: texts =>
    if text = endMark then .ok (stray text :: texts.map value)
    else do
      let a ← ofText text
      return a :: (← classify texts)

end Argument

/-! ## Reading -/

/-- Why no settings come of a command line. -/
inductive Stop
  | help
  | misuse (m : Misuse)
  deriving DecidableEq, Repr

/-- What letters attached to `-h` lead to: every `h` asks for help once more, and what is left when
there is none to come is refused as a value. -/
def lettersAttached : List Char → Stop
  | ['h'] => .help
  | 'h' :: cs => lettersAttached cs
  | cs => .misuse (.valueIgnored .help (String.ofList cs))

/-- The number a value stands for. -/
def numberOf (flag : Flag) (value : String) : Except Stop Int :=
  match Decimal.integer? value.toList with
  | some n => .ok n
  | none => .error (.misuse (.notANumber flag value))

/-- The level a value names. -/
def levelOf (flag : Flag) (value : String) : Except Stop LogLevel :=
  match LogLevel.named? value with
  | some l => .ok l
  | none => .error (.misuse (.notAChoice flag value))

/-- A value as it is set. -/
def set? (value : String) : Option String := if value = endMark then none else some value

/-- The settings with an option set to a value. -/
def assign (o : Options) (flag : Flag) (value : String) : Except Stop Options :=
  match flag with
  | .help => .error (.misuse (.valueIgnored flag value))
  | .tcp => .error (.misuse (.valueIgnored flag value))
  | .host => .ok { o with host := set? value }
  | .tcpPort => do return { o with tcpPort := ← (set? value).mapM (numberOf flag) }
  | .logLevel => do return { o with logLevel := ← (set? value).mapM (levelOf flag) }
  | .analyzer => .ok { o with analyzer := set? value }

/-- The settings with an option that takes no value. -/
def switch (o : Options) (flag : Flag) : Except Stop Options :=
  match flag with
  | .help => .error .help
  | .tcp => .ok { o with tcp := true }
  | _ => .error (.misuse (.valueMissing flag))

/-- Reads arguments; the texts that belong to no option come along in order. -/
def readFrom (o : Options) : List Argument → Except Stop (Options × List String)
  | [] => .ok (o, [])
  | .option flag (some value) :: as => do readFrom (← assign o flag value) as
  | .option flag none :: .value text :: as =>
    if flag.takesValue then do readFrom (← assign o flag text) as
    else do
      let (o, rest) ← readFrom (← switch o flag) as
      return (o, text :: rest)
  | .option flag none :: as => do readFrom (← switch o flag) as
  | .letters attached :: _ => .error (lettersAttached attached)
  | .value text :: as => do
    let (o, rest) ← readFrom o as
    return (o, text :: rest)
  | .stray text :: as => do
    let (o, rest) ← readFrom o as
    return (o, text :: rest)

/-- The settings a command line asks for. -/
def read (arguments : List String) : Except Stop Options := do
  match Argument.classify arguments with
  | .error m => .error (.misuse m)
  | .ok as =>
    let (o, rest) ← readFrom .default as
    if rest.isEmpty then return o else .error (.misuse (.unrecognized rest))

end StagedDiagnostics.CommandLine
