import Mathlib.Tactic.SplitIfs
import StagedDiagnostics.Parse

/-!
# Proofs/Scan/Grammar — the texts that are in order

    code ::= item*
    item ::= plain | '#' comment | '"' literal | '(' code ')' | '[' code ']' | '{' code '}'

Nothing is reported about a text exactly if the grammar derives it
(`Parse.reports_ofText_eq_nil_iff`).  In the middle of a text, what is left is derived in pieces:
the rest of a comment or of a string, then code for each open bracket, up to the closer of that
bracket, and code to the end (`Derives`).  A byte takes the scanner where it takes these pieces
(`derives_cons_iff`).
-/

namespace StagedDiagnostics

/-! ## Bytes that are not plain -/

namespace Glyph

/-- The character that a glyph stands for. -/
def char? : Glyph → Option Char
  | newline => some '\n'
  | quote => some '"'
  | hash => some '#'
  | backslash => some '\\'
  | opening d => some d.opening
  | closing d => some d.closing
  | plain => none

/-- A glyph that stands for a character comes from its code point alone. -/
theorem toNat_eq_of_char? {n : Nat} {c : Char} (h : (ofCode n).char? = some c) : n = c.toNat := by
  unfold ofCode at h
  split_ifs at h with hn hn hn hn hn hn hn hn hn hn
  iterate 10
    · obtain rfl := Option.some.inj h
      exact hn
  exact nomatch h

theorem ofByte_eq_iff {g : Glyph} {c : Char} (h : g.char? = some c) {b : UInt8} :
    ofByte b = g ↔ b = c.toUInt8 := by
  constructor
  · rintro rfl
    calc b = UInt8.ofNat b.toNat := UInt8.ofNat_toNat.symm
      _ = c.toUInt8 := by rw [toNat_eq_of_char? h]; rfl
  · rintro rfl
    match g, h with
    | newline, rfl | quote, rfl | hash, rfl | backslash, rfl => rfl
    | opening .round, rfl | opening .square, rfl | opening .curly, rfl => rfl
    | closing .round, rfl | closing .square, rfl | closing .curly, rfl => rfl

end Glyph

/-! ## The grammar

Each part of the grammar relates what stands in front of it to what it leaves. -/

namespace Grammar

variable {b : UInt8} {bs rest : List UInt8}

/-- A byte that is an item of its own. -/
def IsPlain (b : UInt8) : Prop :=
  b ≠ '#'.toUInt8 ∧ b ≠ '"'.toUInt8 ∧
    ∀ d : Delimiter, b ≠ d.opening.toUInt8 ∧ b ≠ d.closing.toUInt8

/-- What follows a `#`: everything up to the next newline, which is left, or to the end. -/
inductive Comment : List UInt8 → List UInt8 → Prop
  | atEnd : Comment [] []
  | atNewline {bs : List UInt8} : Comment ('\n'.toUInt8 :: bs) ('\n'.toUInt8 :: bs)
  | byte {b : UInt8} {bs rest : List UInt8} :
      b ≠ '\n'.toUInt8 → Comment bs rest → Comment (b :: bs) rest

/-- What follows the quote that starts a string: escapes and other bytes, and a quote. -/
inductive Literal : List UInt8 → List UInt8 → Prop
  | quote {bs : List UInt8} : Literal ('"'.toUInt8 :: bs) bs
  | escape {b : UInt8} {bs rest : List UInt8} :
      Literal bs rest → Literal ('\\'.toUInt8 :: b :: bs) rest
  | byte {b : UInt8} {bs rest : List UInt8} :
      b ≠ '"'.toUInt8 → b ≠ '\\'.toUInt8 → b ≠ '\n'.toUInt8 →
        Literal bs rest → Literal (b :: bs) rest

mutual

/-- A plain byte, a comment, a string, or code in brackets. -/
inductive Item : List UInt8 → List UInt8 → Prop
  | plain {b : UInt8} {bs : List UInt8} : IsPlain b → Item (b :: bs) bs
  | comment {bs rest : List UInt8} : Comment bs rest → Item ('#'.toUInt8 :: bs) rest
  | string {bs rest : List UInt8} : Literal bs rest → Item ('"'.toUInt8 :: bs) rest
  | block (d : Delimiter) {bs rest : List UInt8} :
      Code bs (d.closing.toUInt8 :: rest) → Item (d.opening.toUInt8 :: bs) rest

/-- Items one after another. -/
inductive Code : List UInt8 → List UInt8 → Prop
  | done {rest : List UInt8} : Code rest rest
  | item {bs after rest : List UInt8} : Item bs after → Code after rest → Code bs rest

end

/-! ## One byte of a text that is derived -/

theorem comment_nil_iff : Comment [] rest ↔ rest = [] := by
  constructor
  · rintro ⟨⟩
    rfl
  · rintro rfl
    exact .atEnd

theorem comment_cons_iff :
    Comment (b :: bs) rest
      ↔ if Glyph.ofByte b = .newline then rest = b :: bs else Comment bs rest := by
  have hnewline : Glyph.ofByte b = .newline ↔ b = '\n'.toUInt8 := Glyph.ofByte_eq_iff rfl
  simp only [hnewline]
  constructor
  · rintro (_ | _ | ⟨hb, h⟩)
    · rw [if_pos rfl]
    · rwa [if_neg hb]
  · split_ifs with hb
    · rintro rfl
      exact hb ▸ .atNewline
    · exact .byte hb

theorem literal_cons_iff :
    Literal (b :: bs) rest
      ↔ match Glyph.ofByte b with
        | .quote => rest = bs
        | .backslash => ∃ c cs, bs = c :: cs ∧ Literal cs rest
        | .newline => False
        | _ => Literal bs rest := by
  have hquote : Glyph.ofByte b = .quote ↔ b = '"'.toUInt8 := Glyph.ofByte_eq_iff rfl
  have hbackslash : Glyph.ofByte b = .backslash ↔ b = '\\'.toUInt8 := Glyph.ofByte_eq_iff rfl
  have hnewline : Glyph.ofByte b = .newline ↔ b = '\n'.toUInt8 := Glyph.ofByte_eq_iff rfl
  constructor
  · rintro (_ | h | ⟨hb, hc, hd, h⟩)
    · rw [hquote.mpr rfl]
    · rw [hbackslash.mpr rfl]
      exact ⟨_, _, rfl, h⟩
    · split
      next hg => exact absurd (hquote.mp hg) hb
      next hg => exact absurd (hbackslash.mp hg) hc
      next hg => exact absurd (hnewline.mp hg) hd
      next => exact h
  · split
    next hg =>
      obtain rfl := hquote.mp hg
      rintro rfl
      exact .quote
    next hg =>
      obtain rfl := hbackslash.mp hg
      rintro ⟨c, cs, rfl, h⟩
      exact .escape h
    next => exact False.elim
    next hb hc hd =>
      exact .byte (mt hquote.mpr hb) (mt hbackslash.mpr hc) (mt hnewline.mpr hd)

theorem item_cons_iff :
    Item (b :: bs) rest
      ↔ match Glyph.ofByte b with
        | .hash => Comment bs rest
        | .quote => Literal bs rest
        | .opening d => Code bs (d.closing.toUInt8 :: rest)
        | .closing _ => False
        | _ => rest = bs := by
  have hhash : Glyph.ofByte b = .hash ↔ b = '#'.toUInt8 := Glyph.ofByte_eq_iff rfl
  have hquote : Glyph.ofByte b = .quote ↔ b = '"'.toUInt8 := Glyph.ofByte_eq_iff rfl
  have hopening (d : Delimiter) : Glyph.ofByte b = .opening d ↔ b = d.opening.toUInt8 :=
    Glyph.ofByte_eq_iff rfl
  have hclosing (d : Delimiter) : Glyph.ofByte b = .closing d ↔ b = d.closing.toUInt8 :=
    Glyph.ofByte_eq_iff rfl
  constructor
  · rintro (⟨hb, hc, hd⟩ | h | h | ⟨d, h⟩)
    · split
      next hg => exact absurd (hhash.mp hg) hb
      next hg => exact absurd (hquote.mp hg) hc
      next d hg => exact absurd ((hopening d).mp hg) (hd d).1
      next d hg => exact absurd ((hclosing d).mp hg) (hd d).2
      next => rfl
    · rwa [hhash.mpr rfl]
    · rwa [hquote.mpr rfl]
    · rwa [(hopening d).mpr rfl]
  · split
    next hg =>
      obtain rfl := hhash.mp hg
      exact .comment
    next hg =>
      obtain rfl := hquote.mp hg
      exact .string
    next d hg =>
      obtain rfl := (hopening d).mp hg
      exact .block d
    next => exact False.elim
    next hb hc hd he =>
      rintro rfl
      exact .plain ⟨mt hhash.mpr hb, mt hquote.mpr hc,
        fun d => ⟨mt (hopening d).mpr (hd d), mt (hclosing d).mpr (he d)⟩⟩

theorem not_item_nil : ¬ Item [] rest := nofun

theorem code_cons_iff :
    Code (b :: bs) rest ↔ rest = b :: bs ∨ ∃ after, Item (b :: bs) after ∧ Code after rest := by
  constructor
  · rintro (_ | ⟨hitem, hcode⟩)
    · exact Or.inl rfl
    · exact Or.inr ⟨_, hitem, hcode⟩
  · rintro (rfl | ⟨after, hitem, hcode⟩)
    · exact .done
    · exact .item hitem hcode

theorem code_nil_iff : Code [] rest ↔ rest = [] := by
  constructor
  · rintro (_ | ⟨hitem, -⟩)
    · rfl
    · exact absurd hitem not_item_nil
  · rintro rfl
    exact .done

/-! ## What is left of a text -/

/-- Code up to the closer of each open bracket, the innermost first, and then to the end. -/
def Closes : List Delimiter → List UInt8 → Prop
  | [], bs => Code bs []
  | d :: ds, bs => ∃ after, Code bs (d.closing.toUInt8 :: after) ∧ Closes ds after

/-- What is left in front of a mode: the rest of a comment or of a string, and then code. -/
def Derives : Mode → List Delimiter → List UInt8 → Prop
  | .code, ds, bs => Closes ds bs
  | .comment, ds, bs => ∃ after, Comment bs after ∧ Closes ds after
  | .string _, ds, bs => ∃ after, Literal bs after ∧ Closes ds after
  | .escaped _, ds, bs => ∃ after, (∃ c cs, bs = c :: cs ∧ Literal cs after) ∧ Closes ds after

variable {ds : List Delimiter}

theorem closes_nil_iff : Closes ds [] ↔ ds = [] := by
  cases ds with
  | nil => simp [Closes, code_nil_iff]
  | cons d ds => simp [Closes, code_nil_iff]

/-- **A byte that closes nothing starts an item.** -/
theorem closes_cons_iff (hb : ∀ d, Glyph.ofByte b ≠ .closing d) :
    Closes ds (b :: bs) ↔ ∃ after, Item (b :: bs) after ∧ Closes ds after := by
  cases ds with
  | nil => simp [Closes, code_cons_iff]
  | cons d ds =>
    have hne (after : List UInt8) : d.closing.toUInt8 :: after ≠ b :: bs := by
      rintro h
      exact hb d ((Glyph.ofByte_eq_iff rfl).mpr (List.cons.inj h).1.symm)
    simp only [Closes, code_cons_iff, hne, false_or]
    constructor
    · rintro ⟨rest, ⟨after, hitem, hcode⟩, hrest⟩
      exact ⟨after, hitem, rest, hcode, hrest⟩
    · rintro ⟨after, hitem, rest, hcode, hrest⟩
      exact ⟨rest, ⟨after, hitem, hcode⟩, hrest⟩

/-- **A closer closes the innermost open bracket**, and only one of its kind. -/
theorem closes_closing_iff {d : Delimiter} (hb : Glyph.ofByte b = .closing d) :
    Closes ds (b :: bs) ↔ ∃ ds', ds = d :: ds' ∧ Closes ds' bs := by
  have hitem (after : List UInt8) : ¬ Item (b :: bs) after := by
    rw [item_cons_iff, hb]
    exact id
  cases ds with
  | nil => simp [Closes, code_cons_iff, hitem]
  | cons e ds =>
    have hkind : e.closing.toUInt8 = b ↔ e = d := by
      rw [eq_comm, ← Glyph.ofByte_eq_iff (g := .closing e) rfl, hb, Glyph.closing.injEq, eq_comm]
    simp only [Closes, code_cons_iff, hitem, false_and, exists_false, or_false, List.cons.injEq,
      hkind]
    constructor
    · rintro ⟨_, ⟨rfl, rfl⟩, hds⟩
      exact ⟨ds, ⟨rfl, rfl⟩, hds⟩
    · rintro ⟨_, ⟨rfl, rfl⟩, hds⟩
      exact ⟨bs, ⟨rfl, rfl⟩, hds⟩

/-- **A byte takes the scanner where it takes the pieces.**  A bracket opens a piece or closes one,
and where a string is left open nothing is derived. -/
theorem derives_cons_iff (s : Scanner) :
    Derives s.mode ds (b :: bs)
      ↔ match s.emits (Glyph.ofByte b) with
        | none => Derives (s.next (Glyph.ofByte b)).mode ds bs
        | some (.opening d _) => Derives (s.next (Glyph.ofByte b)).mode (d :: ds) bs
        | some (.closing d _) =>
          ∃ ds', ds = d :: ds' ∧ Derives (s.next (Glyph.ofByte b)).mode ds' bs
        | some (.unterminated _ _) => False := by
  have hitem (hb : ∀ d, Glyph.ofByte b ≠ .closing d) :
      Closes ds (b :: bs) ↔ ∃ after, Item (b :: bs) after ∧ Closes ds after := closes_cons_iff hb
  simp only [item_cons_iff] at hitem
  obtain ⟨mode, n⟩ := s
  cases mode with
  | code =>
    cases hg : Glyph.ofByte b with
    | closing d => exact closes_closing_iff hg
    | hash | quote | opening d =>
      simp only [hg] at hitem
      exact hitem nofun
    | newline | backslash | plain =>
      simp only [hg, exists_eq_left] at hitem
      exact hitem nofun
  | comment =>
    simp only [Derives, comment_cons_iff]
    cases hg : Glyph.ofByte b with
    | newline =>
      simp only [hg, exists_eq_left] at hitem
      simp only [if_true, exists_eq_left]
      exact hitem nofun
    | quote | hash | backslash | opening d | closing d | plain => rfl
  | string first =>
    simp only [Derives, literal_cons_iff]
    cases hg : Glyph.ofByte b with
    | quote =>
      simp only [exists_eq_left]
      rfl
    | newline =>
      simp only [false_and, exists_false]
      rfl
    | backslash | hash | opening d | closing d | plain => rfl
  | escaped first =>
    have hliteral (after : List UInt8) :
        (∃ c cs, b :: bs = c :: cs ∧ Literal cs after) ↔ Literal bs after := by
      constructor
      · rintro ⟨c, cs, heq, h⟩
        obtain ⟨-, rfl⟩ := List.cons.inj heq
        exact h
      · exact fun h => ⟨b, bs, rfl, h⟩
    simp only [Derives, hliteral]
    rfl

end Grammar

/-! ## Tokens without a fault -/

namespace Finding

/-- Nothing is wrong with what becomes of some tokens. -/
def Faultless (stack : Stack) (ts : List Token) : Prop :=
  ∀ f ∈ ofTokensFrom stack ts, f.fault? = none

instance (stack : Stack) (ts : List Token) : Decidable (Faultless stack ts) :=
  inferInstanceAs (Decidable (∀ f ∈ ofTokensFrom stack ts, f.fault? = none))

variable {stack : Stack} {ts : List Token}

theorem faultless_nil_iff : Faultless stack [] ↔ stack = [] := by
  cases stack with
  | nil => simp [Faultless, ofTokensFrom]
  | cons o stack => simp [Faultless, ofTokensFrom, fault?]

theorem faultless_opening_iff {d : Delimiter} {n : Nat} :
    Faultless stack (.opening d n :: ts) ↔ Faultless ((d, n) :: stack) ts := by
  rw [Faultless, ofTokensFrom, Faultless]

theorem faultless_closing_iff {d : Delimiter} {n : Nat} :
    Faultless stack (.closing d n :: ts)
      ↔ ∃ m stack', stack = (d, m) :: stack' ∧ Faultless stack' ts := by
  match stack with
  | [] => simp [Faultless, ofTokensFrom, fault?]
  | (e, m) :: stack =>
    rw [Faultless, ofTokensFrom, List.forall_mem_cons, close]
    by_cases h : e = d
    · rw [if_pos h]
      constructor
      · rintro ⟨-, hrest⟩
        exact ⟨m, stack, by rw [h], hrest⟩
      · rintro ⟨n', stack', heq, hrest⟩
        obtain ⟨-, rfl⟩ := List.cons.inj heq
        exact ⟨rfl, hrest⟩
    · simp [h, fault?]

theorem not_faultless_unterminated {first last : Nat} :
    ¬ Faultless stack (.unterminated first last :: ts) := by
  cases stack <;> simp [Faultless, ofTokensFrom, fault?]

end Finding

/-! ## Scanning and deriving -/

/-- The tokens that the rest of a text gives rise to. -/
def Scanner.tokensToEnd (s : Scanner) (gs : List Glyph) : List Token :=
  s.tokens gs ++ (s.nextAll gs).emitsAtEnd.toList

theorem Scanner.tokensToEnd_cons (s : Scanner) (g : Glyph) (gs : List Glyph) :
    s.tokensToEnd (g :: gs) = (s.emits g).toList ++ (s.next g).tokensToEnd gs :=
  List.append_assoc _ _ _

namespace Grammar

open Finding

variable {bs : List UInt8}

/-- At the end of a text only code and comments are in order, and no bracket may be open. -/
theorem faultless_iff_derives_nil (s : Scanner) (stack : Stack) :
    Faultless stack s.emitsAtEnd.toList ↔ Derives s.mode (stack.map Prod.fst) [] := by
  obtain ⟨mode, n⟩ := s
  cases mode with
  | code => simp [Scanner.emitsAtEnd, faultless_nil_iff, Derives, closes_nil_iff]
  | comment =>
    simp [Scanner.emitsAtEnd, faultless_nil_iff, Derives, comment_nil_iff, closes_nil_iff]
  | string first =>
    have hliteral (after : List UInt8) : ¬ Literal [] after := nofun
    simp [Scanner.emitsAtEnd, not_faultless_unterminated, Derives, hliteral]
  | escaped first => simp [Scanner.emitsAtEnd, not_faultless_unterminated, Derives]

/-- **The scanner finds no fault exactly if the pieces derive what is left.** -/
theorem faultless_iff_derives (bs : List UInt8) (s : Scanner) (stack : Stack) :
    Faultless stack (s.tokensToEnd (bs.map Glyph.ofByte))
      ↔ Derives s.mode (stack.map Prod.fst) bs := by
  induction bs generalizing s stack with
  | nil => exact faultless_iff_derives_nil s stack
  | cons b bs ih =>
    rw [List.map_cons, Scanner.tokensToEnd_cons, derives_cons_iff]
    cases s.emits (Glyph.ofByte b) with
    | none => exact ih _ _
    | some token =>
      cases token with
      | opening d n => exact faultless_opening_iff.trans (ih _ _)
      | closing d n =>
        refine faultless_closing_iff.trans ?_
        constructor
        · rintro ⟨m, stack', rfl, h⟩
          exact ⟨_, rfl, (ih _ _).mp h⟩
        · rintro ⟨ds, hds, h⟩
          obtain ⟨⟨e, m⟩, stack', rfl, rfl, rfl⟩ := List.map_eq_cons_iff.mp hds
          exact ⟨m, stack', rfl, (ih _ _).mpr h⟩
      | unterminated first last => exact iff_false_intro not_faultless_unterminated

/-- The scanner decides what the grammar derives. -/
instance (bs : List UInt8) : Decidable (Code bs []) :=
  decidable_of_iff (Faultless [] (Scanner.initial.tokensToEnd (bs.map Glyph.ofByte)))
    (faultless_iff_derives bs .initial [])

/-- In strings and comments brackets do not count. -/
example : Code (Utf8.encode "(\"]\\\"\" # é)\n)".toList) [] := by decide +kernel

example : ¬ Code (Utf8.encode "(]".toList) [] := by decide +kernel

end Grammar

namespace Parse

theorem reportsOf_eq_nil_iff (gs : List Glyph) :
    reportsOf gs = [] ↔ ∀ f ∈ findings gs, f.fault? = none := by
  rw [← List.length_eq_zero_iff, reportsOf, List.length_mergeSort, List.length_eq_zero_iff,
    List.filterMap_eq_nil_iff]
  simp only [report?, Option.map_eq_none_iff]

/-- **The scanner reports nothing exactly about code**: the whole text is derived from the
grammar. -/
theorem reports_ofText_eq_nil_iff (text : String) (filename : Option String) :
    (ofText text filename).reports = [] ↔ Grammar.Code (Utf8.encode text.toList) [] := by
  have hderives := Grammar.faultless_iff_derives (Utf8.encode text.toList) .initial []
  exact (reportsOf_eq_nil_iff _).trans hderives

end Parse

end StagedDiagnostics
