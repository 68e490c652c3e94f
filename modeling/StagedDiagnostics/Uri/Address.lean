import StagedDiagnostics.Text.Split

/-!
# Uri/Address — numeric addresses of machines

    short    four decimal numbers below 256, with dots between them
    long     eight groups of hexadecimal digits, with colons between them; `::` stands for groups of
             zeros, a short address may stand for the last two groups, and `%` starts a scope
    future   `v`, a version in hexadecimal digits, a dot, and anything
-/

namespace StagedDiagnostics.Address

/-- A hexadecimal digit of either case. -/
def isHexDigit (c : Char) : Bool :=
  c.isDigit || ('a' ≤ c && c ≤ 'f') || ('A' ≤ c && c ≤ 'F')

/-! ## Short addresses -/

/-- What decimal digits stand for. -/
def value (ds : List Char) : Nat := ds.foldl (fun n c => 10 * n + (c.toNat - 0x30)) 0

/-- A decimal number below 256, without a needless zero in front. -/
def isOctet (cs : List Char) : Bool :=
  match cs with
  | [] => false
  | '0' :: ds => ds.isEmpty
  | ds => ds.all Char.isDigit && ds.length ≤ 3 && value ds < 256

/-- A short address. -/
def isShort (cs : List Char) : Bool :=
  let octets := Split.cut '.' cs
  octets.length == 4 && octets.all isOctet

/-! ## Long addresses -/

/-- A group of a long address. -/
def isGroup (cs : List Char) : Bool := !cs.isEmpty && cs.length ≤ 4 && cs.all isHexDigit

/-- The groups on one side of a `::`; a bare side shows as one empty group. -/
def side (groups : List (List Char)) : List (List Char) := if groups = [[]] then [] else groups

/-- Whether groups make up a long address.  An empty group that is neither the first nor the last
one is a `::`, and it stands for one group of zeros or more. -/
def isFull (groups : List (List Char)) : Bool :=
  let front := groups.take 1 ++ (groups.drop 1).takeWhile (!·.isEmpty)
  match (groups.drop 1).dropWhile (!·.isEmpty) with
  | [] :: g :: back =>
    let shown := side front ++ side (g :: back)
    shown.length < 8 && shown.all isGroup
  | _ => groups.length == 8 && groups.all isGroup

/-- A group in place of half a short address. -/
def zero : List Char := ['0']

/-- The groups between the colons, with two of them for a short address at the end. -/
def groups? (cs : List Char) : Option (List (List Char)) :=
  let groups := Split.cut ':' cs
  let last := groups.getLastD []
  if last.contains '.' then
    if isShort last then some (groups.dropLast ++ [zero, zero]) else none
  else some groups

/-- The scope behind an address, with its sign; there may be none, but not an empty one. -/
def isScope (cs : List Char) : Bool :=
  match cs with
  | [] => true
  | _ :: scope => !scope.isEmpty && !scope.contains '%'

/-- A long address. -/
def isLong (cs : List Char) : Bool :=
  isScope (cs.dropWhile (· != '%')) && ((groups? (cs.takeWhile (· != '%'))).map isFull).getD false

/-! ## Future addresses -/

/-- An address of a kind to come. -/
def isFuture (cs : List Char) : Bool :=
  match cs with
  | 'v' :: rest =>
    match rest.takeWhile isHexDigit, rest.dropWhile isHexDigit with
    | _ :: _, '.' :: _ :: _ => true
    | _, _ => false
  | _ => false

end StagedDiagnostics.Address
