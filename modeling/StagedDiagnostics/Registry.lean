import StagedDiagnostics.Text.Quoted
import StagedDiagnostics.Text.Split

/-!
# Registry — analyzers found by name

An analyzer is named `module:member`; a module name may have several parts with dots between them,
and all modules but the last must then be packages.  The member is an analyzer, or a factory that is
called to make one.
-/

namespace StagedDiagnostics

/-- Why no analyzer could be loaded. -/
inductive LoadFault
  /-- A name without a module or without a member. -/
  | badName (name : String)
  /-- A module name that starts with a dot, with nothing it could be relative to. -/
  | relativeModule (name : String)
  | unknownModule (name : String)
  /-- A module inside another one that is not a package. -/
  | notPackage (name parent : String)
  | unknownMember (owner member : String)
  /-- A member that is neither an analyzer nor a factory. -/
  | notCallable (kind : String)
  /-- A factory that breaks down, with what it says of itself. -/
  | factoryFailed (kind text : String)
  deriving DecidableEq, Repr

namespace LoadFault

/-- What a user is told. -/
def message : LoadFault → String
  | badName name => "Cannot load analyzer " ++ quoted name ++ ": expected 'module:attribute'"
  | relativeModule name =>
    "the 'package' argument is required to perform a relative import for " ++ quoted name
  | unknownModule name => "No module named " ++ quoted name
  | notPackage name parent =>
    "No module named " ++ quoted name ++ "; " ++ quoted parent ++ " is not a package"
  | unknownMember owner member => "module '" ++ owner ++ "' has no attribute '" ++ member ++ "'"
  | notCallable kind => "'" ++ kind ++ "' object is not callable"
  | factoryFailed _ text => text

end LoadFault

/-- What a member of a module is: an analyzer, a factory with what a call of it leads to, or
something that cannot be called.  A factory may make no analyzer. -/
inductive Member (α : Type)
  | analyzer (a : α)
  | factory (made : Except LoadFault (Option α))
  | plain (kind : String)

/-- What a member is good for. -/
def Member.load {α : Type} : Member α → Except LoadFault (Option α)
  | .analyzer a => .ok (some a)
  | .factory made => made
  | .plain kind => .error (.notCallable kind)

/-- A module with its members. -/
structure Module (α : Type) where
  name : String
  isPackage : Bool
  members : List (String × Member α)

/-- The modules there are. -/
abbrev Registry (α : Type) := List (Module α)

namespace Registry

variable {α : Type}

/-- The module with a full name. -/
def module? (r : Registry α) (name : String) : Option (Module α) := r.find? fun m => m.name = name

/-- The module that further parts of a name lead to. -/
def descend (r : Registry α) (parent : Module α) : List (List Char) → Except LoadFault (Module α)
  | [] => .ok parent
  | part :: parts =>
    let name := parent.name ++ "." ++ String.ofList part
    if parent.isPackage then
      match r.module? name with
      | some m => r.descend m parts
      | none => .error (.unknownModule name)
    else .error (.notPackage name parent.name)

/-- The module of a name. -/
def findModule (r : Registry α) (name : String) : Except LoadFault (Module α) :=
  match Split.cut '.' name.toList with
  | [] => .error (.unknownModule name)
  | [] :: _ => .error (.relativeModule name)
  | top :: parts =>
    match r.module? (String.ofList top) with
    | some m => r.descend m parts
    | none => .error (.unknownModule (String.ofList top))

/-- The analyzer a member of a module is or makes. -/
def loadMember (m : Module α) (name : String) : Except LoadFault (Option α) :=
  match m.members.find? fun a => a.1 = name with
  | some (_, a) => Member.load a
  | none => .error (.unknownMember m.name name)

/-- The two sides of the first colon. -/
def splitName (name : String) : String × String :=
  (String.ofList (name.toList.takeWhile (· != ':')),
    String.ofList ((name.toList.dropWhile (· != ':')).drop 1))

/-- Loads the analyzer of a name. -/
def load (r : Registry α) (name : String) : Except LoadFault (Option α) :=
  let (owner, member) := splitName name
  if owner = "" ∨ member = "" then .error (.badName name)
  else do
    loadMember (← r.findModule owner) member

end Registry

end StagedDiagnostics
