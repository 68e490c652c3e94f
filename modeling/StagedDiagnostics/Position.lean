import StagedDiagnostics.Fault

/-!
# Position — the coordinates a client understands

Lines and columns of a client are bounded by the largest signed 32-bit number (`Position.limit`);
`Position.checked` is the only way to a position from numbers that may lie outside.
-/

namespace StagedDiagnostics

/-- A zero-based line and a character on it. -/
structure Position where
  line : Nat
  character : Nat
  deriving DecidableEq, Repr

namespace Position

/-- The greatest line and the greatest character of a position. -/
def limit : Nat := 2147483647

/-- The position at these coordinates, if a client can name them. -/
def checked (line character : Int) : Except Fault Position :=
  if 0 ≤ line ∧ line ≤ limit then
    if 0 ≤ character ∧ character ≤ limit then .ok ⟨line.toNat, character.toNat⟩
    else .error (.characterOutOfRange character)
  else .error (.lineOutOfRange line)

/-- Small numbers are coordinates as they are. -/
theorem checked_ofNat {l c : Nat} (hl : l ≤ limit) (hc : c ≤ limit) :
    checked l c = .ok ⟨l, c⟩ := by
  rw [checked, if_pos (by omega), if_pos (by omega)]
  rfl

end Position

/-- A stretch of a document, from one position to another. -/
structure Range where
  start : Position
  stop : Position
  deriving DecidableEq, Repr

namespace Range

/-- All of a zero-based line. -/
def wholeLine (line : Int) : Except Fault Range := do
  return ⟨← Position.checked line 0, ← Position.checked line Position.limit⟩

end Range

/-- A reported line counts from one, and zero stands for an unknown line: the zero-based line it
means. -/
def normalizeLine (line : Int) : Int := if line = 0 then line else line - 1

end StagedDiagnostics
