import StagedDiagnostics.Fault
import StagedDiagnostics.Uri.Address
import StagedDiagnostics.Uri.Compatibility

/-!
# Uri/Authority — which authorities a URI may have

    user '@' machine ':' number

Brackets stand around the numeric address of a machine and nowhere else.  No character may be a
separator in disguise.
-/

namespace StagedDiagnostics.Uri.Authority

/-- The machine with its number: what follows the last `@`. -/
def place (authority : List Char) : List Char := (Split.cut '@' authority).getLastD []

/-- Whether the rest behind a closing bracket is nothing or the number of a machine. -/
def isTail : List Char → Bool
  | [] => true
  | c :: _ => c == ':'

/-- The machine that brackets must stand around. -/
def machine (place : List Char) : Except Fault (List Char) :=
  match place.takeWhile (· != '['), place.dropWhile (· != '[') with
  | _, [] => .ok (place.takeWhile (· != ':'))
  | [], _ :: bracketed =>
    if isTail ((bracketed.dropWhile (· != ']')).drop 1) then
      .ok (bracketed.takeWhile (· != ']'))
    else .error .misplacedBrackets
  | _ :: _, _ :: _ => .error .misplacedBrackets

/-- Refuses what is no address to put brackets around. -/
def checkMachine (machine : List Char) : Except Fault Unit :=
  if machine.head? = some 'v' then
    if Address.isFuture machine then .ok () else .error .badFutureAddress
  else if Address.isShort machine then .error .bracketedShortAddress
  else if Address.isLong machine then .ok ()
  else .error (.noAddress (String.ofList machine))

/-- Refuses brackets that do not stand around an address. -/
def checkBrackets (authority : List Char) : Except Fault Unit :=
  match authority.contains '[', authority.contains ']' with
  | false, false => .ok ()
  | true, true => machine (place authority) >>= checkMachine
  | _, _ => .error .misplacedBrackets

/-- Refuses an authority with a separator in disguise. -/
def checkCharacters (authority : List Char) : Except Fault Unit :=
  if authority.any Compatibility.hidesSeparator then
    .error (.disguisedSeparator (String.ofList authority))
  else .ok ()

/-- Refuses an authority no URI may have. -/
def check (authority : List Char) : Except Fault Unit := do
  checkBrackets authority
  checkCharacters authority

/-- ASCII characters other than brackets are free in an authority. -/
theorem check_of_ascii {authority : List Char} (ascii : ∀ c ∈ authority, c.toNat < 0x80)
    (opening : '[' ∉ authority) (closing : ']' ∉ authority) : check authority = .ok () := by
  have safe : authority.any Compatibility.hidesSeparator = false :=
    List.any_eq_false.2 fun c hc => by simp [Compatibility.hidesSeparator_of_lt (ascii c hc)]
  simp only [check, checkBrackets, checkCharacters, List.contains_eq_mem, opening, closing, safe,
    decide_false]
  rfl

@[simp] theorem check_nil : check [] = .ok () := rfl

end StagedDiagnostics.Uri.Authority
