import StagedDiagnostics.Text.Split

/-!
# Text/Lines — a text cut after each line break

`cut` keeps every line's break at its end, so the lines concatenate to the text
(`flatten_cut`).
-/

namespace StagedDiagnostics.Lines

/-- The characters that end a line. -/
def isBreak (c : Char) : Bool :=
  let n := c.toNat
  (0x0A ≤ n && n ≤ 0x0D) || (0x1C ≤ n && n ≤ 0x1E) || n == 0x85 || n == 0x2028 || n == 0x2029

/-- The lines of a text, each with its break; a carriage return and a line feed after it are one
break. -/
def cut : List Char → List (List Char)
  | [] => []
  | '\r' :: '\n' :: cs => ['\r', '\n'] :: cut cs
  | c :: cs => if isBreak c then [c] :: cut cs else Split.addFront c (cut cs)

/-- **Nothing is lost by cutting.** -/
@[simp] theorem flatten_cut (cs : List Char) : (cut cs).flatten = cs := by
  fun_induction cut cs with
  | case1 => rfl
  | case2 cs ih => simp [ih]
  | case3 c cs _ _ ih => simp [ih]
  | case4 c cs _ _ ih => simp [ih]

/-- A line whose break is written as a line feed alone. -/
def unifyBreak : List Char → List Char
  | [] => []
  | '\r' :: '\n' :: cs => '\n' :: unifyBreak cs
  | c :: cs => c :: unifyBreak cs

end StagedDiagnostics.Lines
