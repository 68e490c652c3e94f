import StagedDiagnostics.Scan.Finding

/-!
# Scan/Walk — a scan by offsets

    code ──#──▸ comment ──▸ code ──"──▸ string ──▸ code ──▸ finished

The scanner is handed its glyphs; a walk looks them up in a buffer, and of the brackets that are
open it keeps the offsets.  A comment ends in front of its newline, and so does a string left open:
the next turn passes the newline as code.  A backslash in a string passes two bytes at once, and may
take a walk one byte behind its buffer; giving the string up takes it back to the end.

Every turn of a loop advances a clock (`Walk.clock_lt_of_step`) that stops behind the buffer, so
every walk stops, too (`Walk.run`).
-/

namespace StagedDiagnostics

/-- The loop a walk is in, or how it has stopped: at the end, at an offset that it looked up and
that has no byte, or at one that it took for an open bracket and that is none. -/
inductive Loop
  | code
  | comment
  | string (first : Nat)
  | finished
  | outside (offset : Nat)
  | unpaired (offset : Nat)
  deriving DecidableEq, Repr

/-- A walk over a buffer: its loop, the offset it is at, the offsets of the open brackets, the
innermost first, and what has become of the other tokens. -/
structure Walk where
  loop : Loop
  offset : Nat
  opened : List Nat
  found : List Finding
  deriving DecidableEq, Repr

namespace Walk

/-- The walk in front of a buffer. -/
def start : Walk := ⟨.code, 0, [], []⟩

/-- Goes over to a loop. -/
def enter (w : Walk) (l : Loop) : Walk := { w with loop := l }

/-- Passes some bytes. -/
def advance (w : Walk) (n : Nat) : Walk := { w with offset := w.offset + n }

/-- Takes down what becomes of a token. -/
def note (w : Walk) (f : Finding) : Walk := { w with found := w.found ++ [f] }

variable (code : Array UInt8)

/-! ## Looking bytes up -/

/-- Looks a byte up and goes on with what it is; where there is none, the walk stops. -/
def lookUp (w : Walk) (n : Nat) (next : Glyph → Walk) : Walk :=
  match code[n]? with
  | some b => next (Glyph.ofByte b)
  | none => w.enter (.outside n)

/-- Looks an open bracket up and goes on with its kind; where there is none, the walk stops. -/
def lookUpOpener (w : Walk) (n : Nat) (next : Delimiter → Walk) : Walk :=
  w.lookUp code n fun
    | .opening d => next d
    | _ => w.enter (.unpaired n)

/-! ## Turns -/

/-- Passes a closer, which takes the innermost open bracket. -/
def close (w : Walk) (d : Delimiter) : Walk :=
  match w.opened with
  | [] => (w.note (.unexpected d w.offset)).advance 1
  | o :: opened => w.lookUpOpener code o fun e =>
    { (w.note (Finding.close (e, o) d w.offset)).advance 1 with opened := opened }

/-- A turn in code. -/
def inCode (w : Walk) : Glyph → Walk
  | .hash => w.enter .comment
  | .quote => (w.advance 1).enter (.string w.offset)
  | .opening _ => { w.advance 1 with opened := w.offset :: w.opened }
  | .closing d => w.close code d
  | .newline | .backslash | .plain => w.advance 1

/-- A turn in a comment. -/
def inComment (w : Walk) : Glyph → Walk
  | .newline => w.enter .code
  | _ => w.advance 1

/-- Gives up a string, and comes back to the end of the buffer from behind it. -/
def giveUp (w : Walk) (first : Nat) : Walk :=
  let stop := min w.offset code.size
  { w.note (.unterminated first (max first (stop - 1))) with loop := .code, offset := stop }

/-- A turn in a string. -/
def inString (w : Walk) (first : Nat) : Glyph → Walk
  | .backslash => w.advance 2
  | .quote => (w.advance 1).enter .code
  | .newline => w.giveUp code first
  | _ => w.advance 1

/-- Brackets that are open at the end are unclosed. -/
def sweep (w : Walk) : List Nat → Walk
  | [] => { w with loop := .finished, opened := [] }
  | o :: opened => w.lookUpOpener code o fun d => (w.note (.unclosed d o)).sweep opened

/-- A turn of a loop with the byte at the offset; if there is none, what comes after the loop, which
is not computed before. -/
@[macro_inline]
def turn (w : Walk) (inside : Glyph → Walk) (after : Walk) : Walk :=
  if w.offset < code.size then w.lookUp code w.offset inside else after

/-- One turn of the loop a walk is in, if it has not stopped. -/
def step (w : Walk) : Option Walk :=
  match w.loop with
  | .code => some (w.turn code (w.inCode code) (w.sweep code w.opened))
  | .comment => some (w.turn code w.inComment (w.enter .code))
  | .string first => some (w.turn code (w.inString code first) (w.giveUp code first))
  | .finished | .outside _ | .unpaired _ => none

/-! ## Every walk stops -/

/-- How far a walk has come: three ticks for each byte behind it, and some for the loop it is in.
A turn that passes no byte goes from a string to code, from code to the first byte of a comment, or
from the newline behind a comment to code. -/
def clock (w : Walk) : Nat :=
  match w.loop with
  | .string _ => 3 * min w.offset code.size
  | .code => 3 * min w.offset code.size + 1
  | .comment => 3 * min w.offset code.size +
    match code[w.offset]?.map Glyph.ofByte with
    | none | some .newline => 0
    | some _ => 2
  | .finished | .outside _ | .unpaired _ => 3 * code.size + 2

variable {code : Array UInt8} {w w' : Walk} {n : Nat} {g : Glyph}

theorem lookUp_eq (h : code[n]?.map Glyph.ofByte = some g) (next : Glyph → Walk) :
    w.lookUp code n next = next g := by
  obtain ⟨b, hb, rfl⟩ := Option.map_eq_some_iff.mp h
  rw [lookUp, hb]

/-- **A turn looks up a byte that is there.** -/
theorem turn_cases {inside : Glyph → Walk} {after : Walk} {P : Walk → Prop}
    (hinside : ∀ g, w.offset < code.size → code[w.offset]?.map Glyph.ofByte = some g →
      P (inside g))
    (hafter : code.size ≤ w.offset → P after) : P (w.turn code inside after) := by
  unfold turn
  split
  next h =>
    have hg : code[w.offset]?.map Glyph.ofByte = some (Glyph.ofByte code[w.offset]) := by
      rw [Array.getElem?_eq_getElem h, Option.map_some]
    rw [lookUp_eq hg]
    exact hinside _ h hg
  next h => exact hafter (Nat.le_of_not_lt h)

theorem clock_le (code : Array UInt8) (w : Walk) : w.clock code ≤ 3 * code.size + 2 := by
  unfold clock
  repeat' split
  all_goals omega

theorem le_clock (code : Array UInt8) (w : Walk) : 3 * min w.offset code.size ≤ w.clock code := by
  unfold clock
  split <;> omega

/-- **Passing a byte takes three ticks.** -/
theorem lt_clock_of_lt (h : n < code.size) (hn : n < w.offset) : 3 * n + 2 < w.clock code := by
  have hle := le_clock code w
  omega

/-- A walk that finds no bracket where it looks one up has stopped. -/
theorem lt_clock_lookUpOpener {next : Delimiter → Walk} {m : Nat} (hm : m < 3 * code.size + 2)
    (hnext : ∀ d, m < (next d).clock code) : m < (w.lookUpOpener code n next).clock code := by
  unfold lookUpOpener lookUp
  split
  next b _ =>
    cases Glyph.ofByte b with
    | opening d => exact hnext d
    | newline | quote | hash | backslash | closing d | plain => exact hm
  next => exact hm

theorem lt_clock_sweep (code : Array UInt8) (w : Walk) (opened : List Nat) :
    3 * code.size + 1 < (w.sweep code opened).clock code := by
  induction opened generalizing w with
  | nil => exact Nat.lt_succ_self _
  | cons o opened ih => exact lt_clock_lookUpOpener (Nat.lt_succ_self _) fun d => ih _

theorem lt_clock_close (h : w.offset < code.size) (d : Delimiter) :
    3 * w.offset + 2 < (w.close code d).clock code := by
  unfold close
  split
  · exact lt_clock_of_lt h (Nat.lt_succ_self _)
  · exact lt_clock_lookUpOpener (by omega) fun e => lt_clock_of_lt h (Nat.lt_succ_self _)

theorem lt_clock_inCode (h : w.offset < code.size)
    (hg : code[w.offset]?.map Glyph.ofByte = some g) :
    3 * w.offset + 1 < (w.inCode code g).clock code := by
  cases g with
  | hash =>
    have hcomment : (w.enter .comment).clock code = 3 * w.offset + 2 := by
      simp only [clock, enter, hg, Nat.min_eq_left (Nat.le_of_lt h)]
    exact Nat.lt_of_lt_of_eq (Nat.lt_succ_self _) hcomment.symm
  | closing d => exact Nat.lt_of_succ_lt (lt_clock_close h d)
  | newline | quote | backslash | opening d | plain =>
    exact Nat.lt_of_succ_lt (lt_clock_of_lt h (Nat.lt_succ_self _))

theorem lt_clock_giveUp (code : Array UInt8) (w : Walk) (first : Nat) :
    3 * min w.offset code.size < (w.giveUp code first).clock code := by
  simp only [giveUp, clock]
  omega

theorem lt_clock_inString (h : w.offset < code.size) (first : Nat) (g : Glyph) :
    3 * min w.offset code.size < (w.inString code first g).clock code := by
  have hpasses {w' : Walk} (hlt : w.offset < w'.offset) :
      3 * min w.offset code.size < w'.clock code := by
    have hticks := lt_clock_of_lt h hlt
    omega
  cases g with
  | newline => exact lt_clock_giveUp code w first
  | backslash => exact hpasses (Nat.lt_add_of_pos_right Nat.two_pos)
  | quote | hash | opening d | closing d | plain => exact hpasses (Nat.lt_succ_self _)

theorem clock_lt_inComment (hcomment : w.loop = .comment) (h : w.offset < code.size)
    (hg : code[w.offset]?.map Glyph.ofByte = some g) :
    w.clock code < (w.inComment g).clock code := by
  cases g with
  | newline =>
    simp only [clock, hcomment, hg, inComment, enter]
    omega
  | quote | hash | backslash | opening d | closing d | plain =>
    refine Nat.lt_of_le_of_lt ?_ (lt_clock_of_lt (w := w.advance 1) h (Nat.lt_succ_self _))
    simp only [clock, hcomment, hg]
    omega

theorem clock_lt_enter_code (hcomment : w.loop = .comment) (h : code.size ≤ w.offset) :
    w.clock code < (w.enter .code).clock code := by
  simp only [clock, hcomment, Array.getElem?_eq_none h, Option.map_none, enter]
  omega

theorem lt_clock_turn {inside : Glyph → Walk} {after : Walk} {m : Nat}
    (hinside : ∀ g, w.offset < code.size → code[w.offset]?.map Glyph.ofByte = some g →
      m < (inside g).clock code)
    (hafter : code.size ≤ w.offset → m < after.clock code) :
    m < (w.turn code inside after).clock code :=
  turn_cases (P := fun w' => m < w'.clock code) hinside hafter

/-- **A turn advances the clock.** -/
theorem clock_lt_of_step (h : w.step code = some w') : w.clock code < w'.clock code := by
  unfold step at h
  split at h
  next hcode =>
    obtain rfl := Option.some.inj h
    have hclock : w.clock code = 3 * min w.offset code.size + 1 := by rw [clock, hcode]
    refine lt_clock_turn (fun g hlt hg => ?_) fun hle => ?_
    · have hticks := lt_clock_inCode hlt hg
      omega
    · have hticks := lt_clock_sweep code w w.opened
      omega
  next hcomment =>
    obtain rfl := Option.some.inj h
    exact lt_clock_turn (fun g => clock_lt_inComment hcomment) (clock_lt_enter_code hcomment)
  next first hstring =>
    obtain rfl := Option.some.inj h
    have hclock : w.clock code = 3 * min w.offset code.size := by rw [clock, hstring]
    rw [hclock]
    exact lt_clock_turn (fun g hlt _ => lt_clock_inString hlt first g) fun _ =>
      lt_clock_giveUp code w first
  all_goals cases h

/-- Takes turns until there is none. -/
def run (code : Array UInt8) (w : Walk) : Walk :=
  match _h : w.step code with
  | none => w
  | some w' => w'.run code
termination_by 3 * code.size + 2 - w.clock code
decreasing_by
  have hlt := clock_lt_of_step _h
  have hle := clock_le code w'
  omega

end Walk

end StagedDiagnostics
