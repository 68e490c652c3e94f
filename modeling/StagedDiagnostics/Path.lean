import StagedDiagnostics.Text.Split
import StagedDiagnostics.Text.Utf8

/-!
# Path — file paths in normal form

A normal path has no empty part, no `.`, and no `..` that could be undone.  Two slashes at the front
are kept, since they may name another machine; any other number of them is one.  A tidy path may
still go up: what `..` undoes is left to the disk.
-/

namespace StagedDiagnostics.Path

/-- A path that does not depend on where it is read. -/
def isAbsolute : List Char → Bool
  | '/' :: _ => true
  | _ => false

/-- The slashes a normal path keeps at its front. -/
def leadingSlashes : List Char → Nat
  | '/' :: '/' :: '/' :: _ => 1
  | '/' :: '/' :: _ => 2
  | '/' :: _ => 1
  | _ => 0

/-- The part that stays where it is. -/
def here : List Char := ['.']

/-- The part that goes up. -/
def up : List Char := ['.', '.']

/-- Goes along one part; `trail` holds the parts gone along, the last one first.  Above the root
there is nothing, while a path without a root may go up for good. -/
def walk (rooted : Bool) (trail : List (List Char)) (part : List Char) : List (List Char) :=
  if part = [] ∨ part = here then trail
  else if part = up then
    match trail with
    | [] => if rooted then [] else [up]
    | last :: before => if last = up then up :: trail else before
  else part :: trail

/-- A path with the slashes it keeps and with these parts; without both it stays where it is. -/
def withParts (path : List Char) (parts : List (List Char)) : List Char :=
  match List.replicate (leadingSlashes path) '/' ++ Split.join '/' parts with
  | [] => here
  | p => p

/-- The parts of the normal form, in order. -/
def normalParts (path : List Char) : List (List Char) :=
  ((Split.cut '/' path).foldl (walk (0 < leadingSlashes path)) []).reverse

/-- The normal form of a path. -/
def normalize (path : List Char) : List Char := withParts path (normalParts path)

/-- The parts of a path that lead anywhere, in order. -/
def tidyParts (path : List Char) : List (List Char) :=
  (Split.cut '/' path).filter fun part => part ≠ [] ∧ part ≠ here

/-- The tidy form of a path. -/
def tidy (path : List Char) : List Char := withParts path (tidyParts path)

/-- A path of which nothing but steps up are left.  It leads to the root. -/
def isTop (path : List Char) : Bool := (tidyParts path).all (· = up)

/-- The first part of a path that is no step up. -/
def firstName? (path : List Char) : Option (List Char) := (tidyParts path).find? (· ≠ up)

/-- The bytes a path takes. -/
def size (path : List Char) : Nat := (Utf8.encode path).length

/-- The most bytes a path may take. -/
def maxSize : Nat := 4095

/-- The most bytes a part of a path may take. -/
def maxNameSize : Nat := 255

/-- A path that is too long to be looked up, as a whole or in its first name.  Where there is
nothing under the root, no later name is looked up. -/
def isTooLong (path : List Char) : Bool :=
  maxSize < size path || (firstName? path).any fun name => maxNameSize < size name

/-- A path read from a root. -/
def under (root path : List Char) : List Char :=
  if isAbsolute path then path
  else if root = [] ∨ root.getLast? = some '/' then root ++ path
  else root ++ '/' :: path

end StagedDiagnostics.Path
