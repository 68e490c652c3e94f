import StagedDiagnostics.Scan.Token

/-!
# Scan/Finding — what becomes of every token

Brackets are matched with a stack.  A closer takes the innermost open bracket, whether its kind fits
or not, so one wrong closer costs one diagnostic; a closer that finds nothing open is unexpected,
and an opener that no closer takes is unclosed.
-/

namespace StagedDiagnostics

/-- What becomes of tokens: two brackets that fit, two that do not, a closer or an opener alone, or
a string left open.  All numbers are offsets. -/
inductive Finding
  | matched (d : Delimiter) (opened closed : Nat)
  | mismatched (opener : Delimiter) (opened : Nat) (closer : Delimiter) (closed : Nat)
  | unexpected (closer : Delimiter) (closed : Nat)
  | unclosed (opener : Delimiter) (opened : Nat)
  | unterminated (first last : Nat)
  deriving DecidableEq, Repr

namespace Finding

/-- The open brackets, the innermost first. -/
abbrev Stack := List (Delimiter × Nat)

/-- What a closer makes of the innermost open bracket. -/
def close (opener : Delimiter × Nat) (closer : Delimiter) (closed : Nat) : Finding :=
  if opener.1 = closer then .matched closer opener.2 closed
  else .mismatched opener.1 opener.2 closer closed

/-- What becomes of tokens after some brackets were opened. -/
def ofTokensFrom : Stack → List Token → List Finding
  | stack, [] => stack.map fun o => .unclosed o.1 o.2
  | stack, .opening d n :: ts => ofTokensFrom ((d, n) :: stack) ts
  | o :: stack, .closing d n :: ts => close o d n :: ofTokensFrom stack ts
  | [], .closing d n :: ts => .unexpected d n :: ofTokensFrom [] ts
  | stack, .unterminated first last :: ts => .unterminated first last :: ofTokensFrom stack ts

/-- What becomes of the tokens of a text. -/
def ofTokens (ts : List Token) : List Finding := ofTokensFrom [] ts

/-! ## What is wrong with a finding -/

/-- A character between the quotes of a message. -/
def shown (c : Char) : String := "'" ++ String.singleton c ++ "'"

/-- The first offset, the last offset and the message of what is wrong; brackets that fit are in
order. -/
def fault? : Finding → Option (Nat × Nat × String)
  | matched _ _ _ => none
  | mismatched opener _ closer closed =>
    some (closed, closed,
      "mismatched delimiter " ++ shown closer.closing ++ ", expected " ++ shown opener.closing)
  | unexpected closer closed =>
    some (closed, closed, "unexpected closing delimiter " ++ shown closer.closing)
  | unclosed opener opened =>
    some (opened, opened, "unclosed delimiter " ++ shown opener.opening)
  | unterminated first last => some (first, last, "unterminated string literal")

end Finding

end StagedDiagnostics
