import StagedDiagnostics.Uri.Authority
import StagedDiagnostics.Uri.Percent

/-!
# Uri/Parts — scheme, authority and path of a URI

    scheme ':' '//' authority path '?' query '#' fragment

Every part may be missing.  Blanks and control characters in front of a URI, and tabs and line
breaks anywhere in it, do not count.  An authority no URI may have is refused, whatever the scheme.
-/

namespace StagedDiagnostics

/-- A document as a client names it. -/
abbrev Uri := String

/-- The parts of a URI that say where a document is, as they are written. -/
structure Uri.Parts where
  scheme : List Char
  authority : List Char
  path : List Char
  deriving DecidableEq, Repr

namespace Uri.Parts

/-- A character that may stand in front of a URI without counting. -/
def isLeading (c : Char) : Bool := c.toNat ≤ 0x20

/-- A character that counts nowhere in a URI. -/
def isIgnored (c : Char) : Bool := c == '\t' || c == '\n' || c == '\r'

/-- A URI without the characters that do not count. -/
def clean (uri : List Char) : List Char := (uri.dropWhile isLeading).filter fun c => !isIgnored c

/-- A character of a scheme. -/
def isSchemeChar (c : Char) : Bool := c.isAlphanum || c == '+' || c == '-' || c == '.'

/-- The scheme in lower case, and what follows its colon; without a scheme all of it follows. -/
def splitScheme (cs : List Char) : List Char × List Char :=
  let scheme := cs.takeWhile (· != ':')
  match scheme, cs.dropWhile (· != ':') with
  | c :: _, _ :: rest =>
    if c.isAlpha && scheme.all isSchemeChar then (scheme.map Char.toLower, rest) else ([], cs)
  | _, _ => ([], cs)

/-- A character that ends an authority. -/
def endsAuthority (c : Char) : Bool := c == '/' || c == '?' || c == '#'

/-- The authority, and what follows it. -/
def splitAuthority : List Char → List Char × List Char
  | '/' :: '/' :: cs => (cs.takeWhile (!endsAuthority ·), cs.dropWhile (!endsAuthority ·))
  | cs => ([], cs)

/-- A text without its query and its fragment. -/
def withoutQuery (cs : List Char) : List Char := (cs.takeWhile (· != '#')).takeWhile (· != '?')

/-- The parts of a URI. -/
def ofUri (uri : List Char) : Except Fault Parts := do
  let (scheme, rest) := splitScheme (clean uri)
  let (authority, rest) := splitAuthority rest
  Authority.check authority
  return ⟨scheme, authority, withoutQuery rest⟩

end Uri.Parts

end StagedDiagnostics
