import StagedDiagnostics.Proofs.Scan.Relocation
import StagedDiagnostics.Proofs.Source.Location

/-!
# Proofs/Scan/Characters — scanning bytes is scanning characters

    characters ──ofChar──▸ glyphs ──▸ reports at characters
        │ encode                          │ relocate boundary
        ▾                                 ▾
      bytes ────ofByte───▸ glyphs ──▸ reports at bytes

After a backslash the scanner takes one glyph along, whatever it is: a whole character here, and
the first byte of one there, so that inside a character the two are out of step.  They meet again at
its end, since the other bytes of a character are plain, and a plain glyph changes no mode twice
(`Scanner.nextAll_utf8EncodeChar`).  So between characters the scanner of bytes is the scanner of
characters, relocated, and everything else follows.
-/

namespace StagedDiagnostics

/-! ## The glyphs of a character -/

namespace Glyph

/-- **No byte of a longer character is taken for anything.** -/
theorem ofByte_eq_plain_of_mem {c : Char} (hc : 0x80 ≤ c.toNat) {b : UInt8}
    (hb : b ∈ String.utf8EncodeChar c) : ofByte b = plain := by
  have hhigh : 0x80 ≤ b := by
    rcases Utf8.utf8EncodeChar_cases c with ⟨hascii, -⟩ | ⟨-, lead, tail, hbytes, -, hlead, htail⟩
    · exact absurd hascii (Nat.not_lt.mpr hc)
    · rw [hbytes, List.mem_cons] at hb
      rcases hb with rfl | hb
      · exact hlead
      · have hcontinues := htail b hb
        rw [Utf8.isContinuation, Bool.and_eq_true, decide_eq_true_eq] at hcontinues
        exact hcontinues.1
  exact ofCode_eq_plain (UInt8.le_iff_toNat_le.mp hhigh)

/-- An ASCII character is one byte, and both are taken for the same. -/
theorem map_ofByte_utf8EncodeChar_of_ascii {c : Char} (hc : c.toNat < 0x80) :
    (String.utf8EncodeChar c).map ofByte = [ofChar c] := by
  rw [Utf8.utf8EncodeChar_of_ascii hc, List.map_singleton, ofByte,
    Utf8.toNat_ofNat_of_lt (Nat.lt_trans hc (by decide)), ofChar]

theorem toNat_lt_of_isBracket {c : Char} (h : (ofChar c).IsBracket) : c.toNat < 0x80 := by
  by_contra hc
  rw [ofChar, ofCode_eq_plain (Nat.not_lt.mp hc)] at h
  exact h

end Glyph

/-! ## The scanner on the bytes of a character -/

namespace Scanner

theorem emits_plain (s : Scanner) : s.emits .plain = none := by
  obtain ⟨mode, n⟩ := s
  cases mode <;> rfl

theorem tokens_of_plain {gs : List Glyph} (h : ∀ g ∈ gs, g = .plain) (s : Scanner) :
    s.tokens gs = [] := by
  induction gs generalizing s with
  | nil => rfl
  | cons g gs ih =>
    obtain ⟨rfl, hgs⟩ := List.forall_mem_cons.mp h
    rw [tokens_cons, emits_plain, ih hgs]
    rfl

/-- **After one plain glyph more of them change nothing**: a backslash takes along the first. -/
theorem nextAll_of_plain {gs : List Glyph} (h : ∀ g ∈ gs, g = .plain) (hne : gs ≠ [])
    (s : Scanner) : s.nextAll gs = ⟨s.nextMode .plain, s.offset + gs.length⟩ := by
  induction gs generalizing s with
  | nil => exact absurd rfl hne
  | cons g gs ih =>
    obtain ⟨rfl, hgs⟩ := List.forall_mem_cons.mp h
    rw [nextAll_cons]
    by_cases hlast : gs = []
    · rw [hlast]
      rfl
    · have hsame : (s.next .plain).nextMode .plain = s.nextMode .plain := by
        obtain ⟨mode, n⟩ := s
        cases mode <;> rfl
      rw [ih hgs hlast, hsame, offset_next, List.length_cons, Nat.add_assoc, Nat.add_comm 1]

/-- **The bytes of a character take the scanner where the character does**, whatever its mode. -/
theorem nextAll_utf8EncodeChar (s : Scanner) (c : Char) :
    s.nextAll ((String.utf8EncodeChar c).map Glyph.ofByte)
      = ⟨s.nextMode (Glyph.ofChar c), s.offset + (String.utf8EncodeChar c).length⟩ := by
  rcases Nat.lt_or_ge c.toNat 0x80 with hc | hc
  · rw [Glyph.map_ofByte_utf8EncodeChar_of_ascii hc, Utf8.utf8EncodeChar_of_ascii hc]
    rfl
  · have hplain : ∀ g ∈ (String.utf8EncodeChar c).map Glyph.ofByte, g = .plain :=
      List.forall_mem_map.mpr fun _ => Glyph.ofByte_eq_plain_of_mem hc
    have hne : (String.utf8EncodeChar c).map Glyph.ofByte ≠ [] :=
      mt List.map_eq_nil_iff.mp String.utf8EncodeChar_ne_nil
    rw [nextAll_of_plain hplain hne, List.length_map, Glyph.ofChar, Glyph.ofCode_eq_plain hc]

/-- …and give rise to the token that the character gives rise to. -/
theorem tokens_utf8EncodeChar (s : Scanner) (c : Char) :
    s.tokens ((String.utf8EncodeChar c).map Glyph.ofByte) = (s.emits (Glyph.ofChar c)).toList := by
  rcases Nat.lt_or_ge c.toNat 0x80 with hc | hc
  · rw [Glyph.map_ofByte_utf8EncodeChar_of_ascii hc, tokens_cons, tokens_nil, List.append_nil]
  · have hplain : ∀ g ∈ (String.utf8EncodeChar c).map Glyph.ofByte, g = .plain :=
      List.forall_mem_map.mpr fun _ => Glyph.ofByte_eq_plain_of_mem hc
    rw [tokens_of_plain hplain, Glyph.ofChar, Glyph.ofCode_eq_plain hc, emits_plain]
    rfl

/-- **Between characters the scanners are in step**: what is found in the bytes of a text is what is
found in its characters, where these start and end. -/
theorem tokensToEnd_encode {s : Scanner} (h : s.Inside) {start : ℕ → ℕ} {cs : List Char}
    (hstart : ∀ k c, cs[k]? = some c →
      start (s.offset + k + 1) = start (s.offset + k) + (String.utf8EncodeChar c).length) :
    (s.relocate start).tokensToEnd ((Utf8.encode cs).map Glyph.ofByte)
      = (s.tokensToEnd (cs.map Glyph.ofChar)).map (Token.relocate start) := by
  induction cs generalizing s with
  | nil =>
    rw [Utf8.encode_nil, List.map_nil, List.map_nil, tokensToEnd, tokensToEnd, tokens_nil,
      tokens_nil, List.nil_append, List.nil_append, nextAll_nil, nextAll_nil,
      emitsAtEnd_relocate h]
    cases s.emitsAtEnd <;> rfl
  | cons c cs ih =>
    have hnext : (⟨(s.relocate start).nextMode (Glyph.ofChar c),
        (s.relocate start).offset + (String.utf8EncodeChar c).length⟩ : Scanner)
          = (s.next (Glyph.ofChar c)).relocate start := by
      rw [nextMode_relocate]
      exact congrArg _ (hstart 0 c rfl).symm
    have hrest : ∀ k d, cs[k]? = some d →
        start ((s.next (Glyph.ofChar c)).offset + k + 1)
          = start ((s.next (Glyph.ofChar c)).offset + k) + (String.utf8EncodeChar d).length := by
      intro k d hd
      rw [offset_next, Nat.add_assoc s.offset, Nat.add_comm 1]
      exact hstart (k + 1) d hd
    rw [Utf8.encode_cons, List.map_append, tokensToEnd_append, tokens_utf8EncodeChar,
      nextAll_utf8EncodeChar, hnext, ih (h.next _) hrest, emits_relocate h, List.map_cons,
      tokensToEnd_cons, List.map_append]
    cases s.emits (Glyph.ofChar c) <;> rfl

end Scanner

/-! ## Reports on bytes and reports on characters -/

namespace Parse

variable (s : Source)

/-- The glyphs of the characters of a source. -/
def charGlyphs : List Glyph := s.text.toList.map Glyph.ofChar

/-- The tokens of the bytes are those of the characters, at the boundaries of these. -/
theorem ofGlyphs_glyphs :
    Token.ofGlyphs (glyphs s) = (Token.ofGlyphs (charGlyphs s)).map (Token.relocate s.boundary) := by
  have hinitial : Scanner.initial.relocate s.boundary = Scanner.initial := rfl
  have htokens : (Scanner.initial.relocate s.boundary).tokensToEnd (glyphs s)
      = (Scanner.initial.tokensToEnd (charGlyphs s)).map (Token.relocate s.boundary) := by
    refine Scanner.tokensToEnd_encode Scanner.inside_initial fun k c hc => ?_
    rw [Scanner.offset_initial, Nat.zero_add]
    exact s.boundary_succ hc
  rw [hinitial] at htokens
  exact htokens

/-- A token of the characters is at a bracket, which takes up one byte, or at a quote. -/
theorem located_ofGlyphs_charGlyphs :
    ∀ t ∈ Token.ofGlyphs (charGlyphs s),
      t.Located (fun n => n < s.text.toList.length ∧ s.boundary (n + 1) = s.boundary n + 1)
        fun first _ => first < s.text.toList.length := by
  intro t ht
  refine (Scanner.located_tokensToEnd Scanner.inside_initial _ t ht).imp ?_ fun first last => ?_
  · rintro n ⟨i, g, rfl, hg, hbracket⟩
    rw [charGlyphs, List.getElem?_map, Option.map_eq_some_iff] at hg
    obtain ⟨c, hc, rfl⟩ := hg
    have hascii := Utf8.utf8EncodeChar_of_ascii (Glyph.toNat_lt_of_isBracket hbracket)
    rw [Scanner.offset_initial, Nat.zero_add, s.boundary_succ hc, hascii]
    exact ⟨(List.getElem?_eq_some_iff.mp hc).1, rfl⟩
  · rw [Scanner.offset_initial, Nat.zero_add, charGlyphs, List.length_map]
    rintro ⟨hle, hlt⟩
    exact Nat.lt_of_le_of_lt hle hlt

/-- **Scanning bytes is scanning characters.**  What is reported about the bytes of a text is what
the same scanner reports about its characters, from where the first of them starts to the last byte
of the last one.  So every report starts where a character does; and no byte of a longer character
is ever taken for anything. -/
theorem reports_ofSource_eq_relocate :
    (ofSource s).reports
        = (reportsOf (charGlyphs s)).map (SyntaxReport.relocate s.boundary) ∧
      (∀ r ∈ (ofSource s).reports, ∃ k < s.text.toList.length, r.first = s.boundary k) ∧
      ∀ c : Char, 1 < (String.utf8EncodeChar c).length →
        ∀ b ∈ String.utf8EncodeChar c, Glyph.ofByte b = .plain := by
  have hlocated := located_ofGlyphs_charGlyphs s
  have hreports : (ofSource s).reports
      = (reportsOf (charGlyphs s)).map (SyntaxReport.relocate s.boundary) := by
    change reportsOf (glyphs s) = _
    rw [reportsOf_eq, reportsOf_eq, ofGlyphs_glyphs]
    exact reportsOfTokens_relocate hlocated fun m hm n hn =>
      Source.boundary_le_boundary_iff (Nat.le_of_lt hm) (Nat.le_of_lt hn)
  refine ⟨hreports, fun r hr => ?_, fun c hc b hb => ?_⟩
  · rw [hreports] at hr
    obtain ⟨q, hq, rfl⟩ := List.mem_map.mp hr
    rw [reportsOf_eq] at hq
    obtain ⟨k, hfirst, hk⟩ := exists_first_of_mem_reportsOfTokens hlocated hq
    refine ⟨k, hk.elim And.left fun ⟨_, h⟩ => h, ?_⟩
    rw [SyntaxReport.relocate, hfirst, Int.toNat_natCast]
  · refine Glyph.ofByte_eq_plain_of_mem (Nat.le_of_not_lt fun hascii => ?_) hb
    rw [Utf8.utf8EncodeChar_of_ascii hascii] at hc
    exact Nat.lt_irrefl 1 hc

/-- A bracket that closes nothing, a string in which a backslash stands before a character of two
bytes, and a string left open after a backslash and a character of four. -/
def escapes : Source := ⟨")\"\\é\"é\n\"\\😀", none⟩

theorem reports_ofSource_escapes :
    1 < (String.utf8EncodeChar '😀').length ∧
      (∀ b ∈ String.utf8EncodeChar '😀', Glyph.ofByte b = .plain) ∧
      (ofSource escapes).reports
        = (reportsOf (charGlyphs escapes)).map (SyntaxReport.relocate escapes.boundary) ∧
      (reportsOf (charGlyphs escapes)).map (fun r => (r.first, r.last)) = [(0, 0), (7, 9)] ∧
      (ofSource escapes).reports.map (fun r => (r.first, r.last)) = [(0, 0), (9, 14)] ∧
      ∃ k < escapes.text.toList.length, (9 : ℤ) = escapes.boundary k := by
  obtain ⟨hreports, hstarts, hplain⟩ := reports_ofSource_eq_relocate escapes
  have hlength : 1 < (String.utf8EncodeChar '😀').length := by decide
  have hchars : (reportsOf (charGlyphs escapes)).map (fun r => (r.first, r.last))
      = [(0, 0), (7, 9)] := by
    have hsorted : ((findings (charGlyphs escapes)).filterMap report?).Pairwise
        fun a b => decide (a.first ≤ b.first) = true := by
      decide +kernel
    rw [reportsOf, List.mergeSort_of_pairwise hsorted]
    decide +kernel
  have hbytes : (ofSource escapes).reports.map (fun r => (r.first, r.last))
      = [(0, 0), (9, 14)] := by
    have hsorted : ((findings (glyphs escapes)).filterMap report?).Pairwise
        fun a b => decide (a.first ≤ b.first) = true := by
      decide +kernel
    rw [ofSource, reportsOf, List.mergeSort_of_pairwise hsorted]
    decide +kernel
  have hmem : (9, 14) ∈ (ofSource escapes).reports.map fun r => (r.first, r.last) := by
    rw [hbytes]
    decide
  obtain ⟨r, hr, hfirst⟩ := List.mem_map.mp hmem
  obtain ⟨k, hk, hrk⟩ := hstarts r hr
  exact ⟨hlength, hplain '😀' hlength, hreports, hchars, hbytes, k, hk,
    (congrArg Prod.fst hfirst).symm.trans hrk⟩

end Parse

end StagedDiagnostics
