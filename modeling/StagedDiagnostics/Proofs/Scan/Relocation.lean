import Mathlib.Data.List.Basic
import StagedDiagnostics.Proofs.Scan.Grammar

/-!
# Proofs/Scan/Relocation — the same text at other offsets

    scanner ──tokensToEnd──▸ tokens ──ofTokens──▸ findings ──report?──▸ reports
                                 each of them `relocate start`

What a scanner does never depends on an offset; it only hands on the offsets it meets.  So where the
glyph at `k` starts at `start k` instead, everything it finds is found there, too.  A string left
open ends before the glyph behind it starts; a bracket ends where it starts, which stays true if it
takes up one offset as before.

* `Scanner.located_tokensToEnd` — brackets are found at brackets, and a string left open ends behind
  the quote that started it and inside the text;
* `Finding.ofTokensFrom_relocate`, `Parse.reportsOfTokens_relocate` — matching and sorting follow.
-/

namespace StagedDiagnostics

variable {start : Nat → Nat}

/-! ## Other offsets -/

/-- A mode whose string starts elsewhere. -/
def Mode.relocate (start : Nat → Nat) : Mode → Mode
  | code => code
  | comment => comment
  | string first => string (start first)
  | escaped first => escaped (start first)

/-- A scanner at the offset where a glyph starts. -/
def Scanner.relocate (start : Nat → Nat) (s : Scanner) : Scanner :=
  ⟨s.mode.relocate start, start s.offset⟩

/-- A token at the offsets where its glyphs start and end. -/
def Token.relocate (start : Nat → Nat) : Token → Token
  | opening d n => opening d (start n)
  | closing d n => closing d (start n)
  | unterminated first last => unterminated (start first) (start (last + 1) - 1)

/-- A finding at the offsets where its glyphs start and end. -/
def Finding.relocate (start : Nat → Nat) : Finding → Finding
  | matched d o c => matched d (start o) (start c)
  | mismatched opener o closer c => mismatched opener (start o) closer (start c)
  | unexpected closer c => unexpected closer (start c)
  | unclosed opener o => unclosed opener (start o)
  | unterminated first last => unterminated (start first) (start (last + 1) - 1)

/-- A report from where its first glyph starts to where its last one ends. -/
def SyntaxReport.relocate (start : Nat → Nat) (r : SyntaxReport) : SyntaxReport :=
  { r with first := start r.first.toNat, last := (start (r.last.toNat + 1) - 1 : Nat) }

/-! ## Where tokens are -/

/-- The quote that a mode goes back to. -/
def Mode.quote? : Mode → Option Nat
  | code => none
  | comment => none
  | string first => some first
  | escaped first => some first

namespace Scanner

/-- A scanner that is behind the quote of the string it is in. -/
def Inside (s : Scanner) : Prop := ∀ first, s.mode.quote? = some first → first < s.offset

theorem inside_initial : initial.Inside := nofun

theorem offset_initial : initial.offset = 0 := rfl

theorem Inside.next {s : Scanner} (h : s.Inside) (g : Glyph) : (s.next g).Inside := by
  intro first hfirst
  have hquote : first = s.offset ∨ s.mode.quote? = some first := by
    obtain ⟨mode, n⟩ := s
    cases mode <;> cases g <;> simp_all [Scanner.next, nextMode, Mode.quote?]
  rw [offset_next]
  rcases hquote with rfl | hquote
  · exact Nat.lt_succ_self _
  · exact Nat.lt_succ_of_lt (h first hquote)

end Scanner

/-- A bracket. -/
def Glyph.IsBracket : Glyph → Prop
  | opening _ => True
  | closing _ => True
  | _ => False

/-- A token whose offset satisfies `P` if it is a bracket, and whose offsets satisfy `Q` if it is a
string left open. -/
def Token.Located (P : Nat → Prop) (Q : Nat → Nat → Prop) : Token → Prop
  | opening _ n => P n
  | closing _ n => P n
  | unterminated first last => Q first last

/-- A finding with brackets at offsets that satisfy `P`, or with a string at offsets that satisfy
`Q`. -/
def Finding.Located (P : Nat → Prop) (Q : Nat → Nat → Prop) : Finding → Prop
  | matched _ o c => P o ∧ P c
  | mismatched _ o _ c => P o ∧ P c
  | unexpected _ c => P c
  | unclosed _ o => P o
  | unterminated first last => Q first last

variable {P P' : Nat → Prop} {Q Q' : Nat → Nat → Prop}

theorem Token.Located.imp {t : Token} (h : t.Located P Q) (hP : ∀ n, P n → P' n)
    (hQ : ∀ first last, Q first last → Q' first last) : t.Located P' Q' := by
  cases t with
  | opening d n => exact hP n h
  | closing d n => exact hP n h
  | unterminated first last => exact hQ first last h

theorem Finding.Located.imp {f : Finding} (h : f.Located P Q) (hP : ∀ n, P n → P' n)
    (hQ : ∀ first last, Q first last → Q' first last) : f.Located P' Q' := by
  cases f with
  | matched d o c => exact ⟨hP o h.1, hP c h.2⟩
  | mismatched opener o closer c => exact ⟨hP o h.1, hP c h.2⟩
  | unexpected closer c => exact hP c h
  | unclosed opener o => exact hP o h
  | unterminated first last => exact hQ first last h

/-- **Findings are where their tokens are.** -/
theorem Finding.located_ofTokensFrom {stack : Stack} {ts : List Token}
    (hstack : ∀ o ∈ stack, P o.2) (hts : ∀ t ∈ ts, t.Located P Q) :
    ∀ f ∈ ofTokensFrom stack ts, f.Located P Q := by
  fun_induction ofTokensFrom stack ts with
  | case1 stack =>
    intro f hf
    obtain ⟨o, ho, rfl⟩ := List.mem_map.mp hf
    exact hstack o ho
  | case2 stack d n ts ih =>
    obtain ⟨ht, hts⟩ := List.forall_mem_cons.mp hts
    exact ih (List.forall_mem_cons.mpr ⟨ht, hstack⟩) hts
  | case3 o stack d n ts ih =>
    obtain ⟨ht, hts⟩ := List.forall_mem_cons.mp hts
    obtain ⟨ho, hstack⟩ := List.forall_mem_cons.mp hstack
    refine List.forall_mem_cons.mpr ⟨?_, ih hstack hts⟩
    rw [close]
    split
    · exact ⟨ho, ht⟩
    · exact ⟨ho, ht⟩
  | case4 d n ts ih =>
    obtain ⟨ht, hts⟩ := List.forall_mem_cons.mp hts
    exact List.forall_mem_cons.mpr ⟨ht, ih hstack hts⟩
  | case5 stack first last ts ih =>
    obtain ⟨ht, hts⟩ := List.forall_mem_cons.mp hts
    exact List.forall_mem_cons.mpr ⟨ht, ih hstack hts⟩

namespace Scanner

/-- **A glyph gives rise to a token at its own place**, or to one that ends in front of it. -/
theorem located_emits {s : Scanner} (h : s.Inside) {g : Glyph} {t : Token}
    (ht : s.emits g = some t) :
    t.Located (fun n => n = s.offset ∧ g.IsBracket)
      fun first last => first ≤ last ∧ last < s.offset := by
  obtain ⟨mode, n⟩ := s
  unfold emits at ht
  split at ht
  next d hmode =>
    obtain rfl := Option.some.inj ht
    exact ⟨rfl, trivial⟩
  next d hmode =>
    obtain rfl := Option.some.inj ht
    exact ⟨rfl, trivial⟩
  next first hmode =>
    obtain rfl := Option.some.inj ht
    have hfirst : first < n := h first (congrArg Mode.quote? hmode)
    change first ≤ n - 1 ∧ n - 1 < n
    omega
  next => cases ht

theorem located_emitsAtEnd {s : Scanner} (h : s.Inside) {t : Token} (ht : s.emitsAtEnd = some t) :
    t.Located (fun _ => False) fun first last => first ≤ last ∧ last < s.offset := by
  obtain ⟨mode, n⟩ := s
  cases mode with
  | code => cases ht
  | comment => cases ht
  | string first | escaped first =>
    obtain rfl := Option.some.inj ht
    have hfirst : first < n := h first rfl
    change first ≤ n - 1 ∧ n - 1 < n
    omega

/-- **Tokens are found in the text**: brackets where it has brackets, and strings left open from the
quote on. -/
theorem located_tokensToEnd {s : Scanner} (h : s.Inside) (gs : List Glyph) :
    ∀ t ∈ s.tokensToEnd gs,
      t.Located (fun n => ∃ i g, n = s.offset + i ∧ gs[i]? = some g ∧ g.IsBracket)
        fun first last => first ≤ last ∧ last < s.offset + gs.length := by
  induction gs generalizing s with
  | nil =>
    intro t ht
    refine (located_emitsAtEnd h (Option.mem_toList.mp ht)).imp (fun _ => False.elim) ?_
    exact fun _ _ hlast => hlast
  | cons g gs ih =>
    intro t ht
    rw [tokensToEnd_cons, List.mem_append, Option.mem_toList] at ht
    rcases ht with ht | ht
    · refine (located_emits h ht).imp ?_ fun first last => ?_
      · rintro n ⟨rfl, hg⟩
        exact ⟨0, g, rfl, rfl, hg⟩
      · rw [List.length_cons]
        omega
    · refine (ih (h.next g) t ht).imp ?_ fun first last => ?_
      · rintro n ⟨i, g', rfl, hg', hbracket⟩
        exact ⟨i + 1, g', by rw [offset_next]; omega, hg', hbracket⟩
      · rw [offset_next, List.length_cons]
        omega

/-! ## Scanning at other offsets -/

theorem nextMode_relocate (s : Scanner) (g : Glyph) :
    (s.relocate start).nextMode g = (s.nextMode g).relocate start := by
  obtain ⟨mode, n⟩ := s
  cases mode <;> cases g <;> rfl

theorem emits_relocate {s : Scanner} (h : s.Inside) (g : Glyph) :
    (s.relocate start).emits g = (s.emits g).map (Token.relocate start) := by
  obtain ⟨mode, n⟩ := s
  cases mode with
  | code => cases g <;> rfl
  | comment => cases g <;> rfl
  | escaped first => cases g <;> rfl
  | string first =>
    cases g with
    | newline =>
      have hpos : first < n := h first rfl
      have hlast : n - 1 + 1 = n := by omega
      simp only [emits, Scanner.relocate, Mode.relocate, Option.map_some, Token.relocate, hlast]
    | quote | hash | backslash | opening d | closing d | plain => rfl

theorem emitsAtEnd_relocate {s : Scanner} (h : s.Inside) :
    (s.relocate start).emitsAtEnd = s.emitsAtEnd.map (Token.relocate start) := by
  obtain ⟨mode, n⟩ := s
  cases mode with
  | code => rfl
  | comment => rfl
  | string first | escaped first =>
    have hpos : first < n := h first rfl
    have hlast : n - 1 + 1 = n := by omega
    simp only [emitsAtEnd, Scanner.relocate, Mode.relocate, Option.map_some, Token.relocate, hlast]

theorem tokensToEnd_append (s : Scanner) (gs hs : List Glyph) :
    s.tokensToEnd (gs ++ hs) = s.tokens gs ++ (s.nextAll gs).tokensToEnd hs := by
  rw [tokensToEnd, tokens_append, nextAll_append, List.append_assoc, tokensToEnd]

end Scanner

/-! ## Matching at other offsets -/

namespace Finding

theorem close_relocate (o : Delimiter × Nat) (closer : Delimiter) (n : Nat) :
    close (o.map id start) closer (start n) = (close o closer n).relocate start := by
  rw [close, close, Prod.map_fst, id]
  split <;> rfl

theorem ofTokensFrom_unterminated (stack : Stack) (first last : Nat) (ts : List Token) :
    ofTokensFrom stack (.unterminated first last :: ts)
      = .unterminated first last :: ofTokensFrom stack ts := by
  cases stack <;> rfl

/-- **Brackets match as before.** -/
theorem ofTokensFrom_relocate (stack : Stack) (ts : List Token) :
    ofTokensFrom (stack.map (Prod.map id start)) (ts.map (Token.relocate start))
      = (ofTokensFrom stack ts).map (relocate start) := by
  fun_induction ofTokensFrom stack ts with
  | case1 stack => simp [ofTokensFrom, relocate]
  | case2 stack d n ts ih => exact ih
  | case3 o stack d n ts ih =>
    exact congrArg₂ List.cons (close_relocate o d n) ih
  | case4 d n ts ih => exact congrArg (List.cons _) ih
  | case5 stack first last ts ih =>
    rw [List.map_cons, Token.relocate, ofTokensFrom_unterminated, ih, List.map_cons, relocate]

end Finding

namespace Parse

/-- A finding whose brackets take up one offset is reported where it is. -/
theorem report?_relocate {f : Finding}
    (h : f.Located (fun n => start (n + 1) = start n + 1) fun _ _ => True) :
    report? (f.relocate start) = (report? f).map (SyntaxReport.relocate start) := by
  cases f with
  | matched d o c => rfl
  | mismatched opener o closer c =>
    have hc : start (c + 1) - 1 = start c := by rw [h.2, Nat.add_sub_cancel]
    simp [report?, Finding.relocate, Finding.fault?, SyntaxReport.relocate, hc]
  | unexpected closer c =>
    have hc : start (c + 1) - 1 = start c := by rw [h, Nat.add_sub_cancel]
    simp [report?, Finding.relocate, Finding.fault?, SyntaxReport.relocate, hc]
  | unclosed opener o =>
    have ho : start (o + 1) - 1 = start o := by rw [h, Nat.add_sub_cancel]
    simp [report?, Finding.relocate, Finding.fault?, SyntaxReport.relocate, ho]
  | unterminated first last =>
    simp [report?, Finding.relocate, Finding.fault?, SyntaxReport.relocate]

/-- A report is on a bracket or on a string left open. -/
theorem exists_offsets_of_report? {f : Finding} {r : SyntaxReport} (h : report? f = some r)
    (hf : f.Located P Q) : ∃ first last : Nat, r.first = first ∧ r.last = last ∧
      (first = last ∧ P first ∨ Q first last) := by
  cases f with
  | matched d o c => cases h
  | mismatched opener o closer c =>
    obtain rfl := Option.some.inj h
    exact ⟨c, c, rfl, rfl, Or.inl ⟨rfl, hf.2⟩⟩
  | unexpected closer c =>
    obtain rfl := Option.some.inj h
    exact ⟨c, c, rfl, rfl, Or.inl ⟨rfl, hf⟩⟩
  | unclosed opener o =>
    obtain rfl := Option.some.inj h
    exact ⟨o, o, rfl, rfl, Or.inl ⟨rfl, hf⟩⟩
  | unterminated first last =>
    obtain rfl := Option.some.inj h
    exact ⟨first, last, rfl, rfl, Or.inr hf⟩

/-- The reports on some tokens, in the order of their first offsets. -/
def reportsOfTokens (ts : List Token) : List SyntaxReport :=
  ((Finding.ofTokens ts).filterMap report?).mergeSort fun a b => decide (a.first ≤ b.first)

theorem reportsOf_eq (gs : List Glyph) : reportsOf gs = reportsOfTokens (Token.ofGlyphs gs) := rfl

/-- **A report is on a token.** -/
theorem exists_offsets_of_mem_reportsOfTokens {ts : List Token} (hts : ∀ t ∈ ts, t.Located P Q)
    {r : SyntaxReport} (hr : r ∈ reportsOfTokens ts) :
    ∃ first last : Nat, r.first = first ∧ r.last = last ∧
      (first = last ∧ P first ∨ Q first last) := by
  obtain ⟨f, hf, hreport⟩ := List.mem_filterMap.mp (List.mem_mergeSort.mp hr)
  exact exists_offsets_of_report? hreport
    (Finding.located_ofTokensFrom (fun _ ho => nomatch ho) hts f hf)

/-- A report starts where a token does. -/
theorem exists_first_of_mem_reportsOfTokens {ts : List Token} (hts : ∀ t ∈ ts, t.Located P Q)
    {r : SyntaxReport} (hr : r ∈ reportsOfTokens ts) :
    ∃ n : Nat, r.first = n ∧ (P n ∨ ∃ last, Q n last) := by
  obtain ⟨first, last, hfirst, -, h⟩ := exists_offsets_of_mem_reportsOfTokens hts hr
  exact ⟨first, hfirst, h.imp And.right fun h => ⟨last, h⟩⟩

/-- **What is reported about some tokens is reported about them at other offsets**, in the same
order, if glyphs start there in their order and brackets take up one offset. -/
theorem reportsOfTokens_relocate {ts : List Token} {size : Nat}
    (hts : ∀ t ∈ ts, t.Located (fun n => n < size ∧ start (n + 1) = start n + 1)
      fun first _ => first < size)
    (hstart : ∀ m < size, ∀ n < size, (start m ≤ start n ↔ m ≤ n)) :
    reportsOfTokens (ts.map (Token.relocate start))
      = (reportsOfTokens ts).map (SyntaxReport.relocate start) := by
  have hlocated : ∀ f ∈ Finding.ofTokens ts, f.Located _ _ :=
    Finding.located_ofTokensFrom (fun _ ho => nomatch ho) hts
  have hreports : (Finding.ofTokens (ts.map (Token.relocate start))).filterMap report?
      = ((Finding.ofTokens ts).filterMap report?).map (SyntaxReport.relocate start) := by
    rw [Finding.ofTokens, Finding.ofTokens, List.map_filterMap]
    refine (congrArg _ (Finding.ofTokensFrom_relocate [] ts)).trans ?_
    rw [List.filterMap_map]
    exact List.filterMap_congr fun f hf =>
      report?_relocate ((hlocated f hf).imp (fun _ hn => hn.2) fun _ _ _ => trivial)
  rw [reportsOfTokens, reportsOfTokens, hreports]
  refine (List.map_mergeSort fun a ha b hb => ?_).symm
  obtain ⟨m, hma, hm⟩ := exists_first_of_mem_reportsOfTokens hts (List.mem_mergeSort.mpr ha)
  obtain ⟨n, hnb, hn⟩ := exists_first_of_mem_reportsOfTokens hts (List.mem_mergeSort.mpr hb)
  have hmn := hstart m (hm.elim And.left fun ⟨_, h⟩ => h) n (hn.elim And.left fun ⟨_, h⟩ => h)
  simp only [SyntaxReport.relocate, hma, hnb, Int.toNat_natCast, Int.ofNat_le, hmn]

end Parse

end StagedDiagnostics
