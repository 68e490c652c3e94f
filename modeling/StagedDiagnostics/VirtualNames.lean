import StagedDiagnostics.Table

/-!
# VirtualNames — shadow names turned back into real ones

Code is loaded inside shadow modules, so rendered texts speak of shadow names.  `restore` passes
over a text once: where shadow names start, the longest of them is replaced by the real name it
stands for, and everything else is copied.  An empty shadow name matches between characters: its
real name is put in front of every copied character and at the end.
-/

namespace StagedDiagnostics

/-- The real name each shadow name stands for. -/
structure VirtualNames where
  actual : Table String String

namespace VirtualNames

/-- No shadow names at all. -/
def empty : VirtualNames := ⟨Table.empty⟩

/-- Reads the shadow name of each real name.  A real name given twice keeps its last shadow name,
and a shadow name used twice stands for the last real name. -/
def ofPairs (pairs : List (String × String)) : VirtualNames :=
  ⟨Table.ofList ((Table.ofList pairs).entries.map fun e => (e.2, e.1))⟩

/-! ## One pass over a text -/

/-- A shadow name and its real name, letter by letter. -/
abbrev Rule := List Char × List Char

/-- The rule with the longer shadow name; of two equal ones the first. -/
def longer (a : Option Rule) (b : Rule) : Option Rule :=
  match a with
  | none => some b
  | some r => if r.1.length < b.1.length then some b else some r

/-- The longest non-empty shadow name a text starts with. -/
def longestAt (rules : List Rule) (text : List Char) : Option Rule :=
  (rules.filter fun r => !r.1.isEmpty && r.1.isPrefixOf text).foldl longer none

/-- What an empty shadow name puts between characters. -/
def gap (rules : List Rule) : List Char := ((rules.find? fun r => r.1.isEmpty).map Prod.snd).getD []

/-- Passes over a text, of which the first `skip` characters belong to a name already replaced. -/
def restoreFrom (rules : List Rule) : Nat → List Char → List Char
  | _, [] => gap rules
  | skip + 1, _ :: cs => restoreFrom rules skip cs
  | 0, c :: cs =>
    match longestAt rules (c :: cs) with
    | some r => r.2 ++ restoreFrom rules (r.1.length - 1) cs
    | none => gap rules ++ c :: restoreFrom rules 0 cs

/-- The rules of the names. -/
def rules (v : VirtualNames) : List Rule := v.actual.entries.map fun e => (e.1.toList, e.2.toList)

/-- A text with its shadow names replaced. -/
def restore (v : VirtualNames) (text : String) : String :=
  String.ofList (restoreFrom v.rules 0 text.toList)

/-- Without shadow names a text stays as it is. -/
@[simp] theorem restoreFrom_nil (cs : List Char) : restoreFrom [] 0 cs = cs := by
  induction cs with
  | nil => rfl
  | cons c cs ih => simp [restoreFrom, longestAt, gap, ih]

@[simp] theorem restore_empty (text : String) : empty.restore text = text := by
  simp [restore, rules, empty, Table.empty]

end VirtualNames

end StagedDiagnostics
