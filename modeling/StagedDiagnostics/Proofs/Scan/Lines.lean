import StagedDiagnostics.Proofs.Scan.Order

/-!
# Proofs/Scan/Lines — what a newline ends

    s ──newline── t        tokens of s ++ tokens of t, moved on behind s and the newline

A newline ends a comment, and it ends a string, which is left open then.  Behind it the scanner is as
it was at the start, so what is found on some lines does not depend on the lines in front of them
(`Scanner.tokensToEnd_newline`).  There is one exception: in a string a backslash takes along the
glyph behind it, and this may be the newline; the string goes on then on the next line.  A backslash
does so exactly if it is the last one of an odd number of them (`Scanner.inEscape_nextAll_iff`), and
where the text in front ends in such an escape, the law fails (`Parse.ofGlyphs_above_iff`).
-/

namespace StagedDiagnostics

/-! ## Further on in a text -/

/-- A token further on in a text. -/
def Token.shift (d : Nat) : Token → Token
  | opening k n => opening k (n + d)
  | closing k n => closing k (n + d)
  | unterminated first last => unterminated (first + d) (last + d)

/-- A report further on in a text. -/
def SyntaxReport.shift (d : Nat) (r : SyntaxReport) : SyntaxReport :=
  { r with first := r.first + d, last := r.last + d }

theorem Token.shift_eq_relocate (d : Nat) : shift d = relocate (· + d) := by
  funext t
  cases t with
  | opening k n | closing k n => rfl
  | unterminated first last =>
    have hlast : last + d = last + 1 + d - 1 := by omega
    rw [shift, relocate, hlast]

namespace Source

/-- A text with another one on the lines below it. -/
def above (s t : Source) : Source := ⟨s.text ++ "\n" ++ t.text, s.filename⟩

theorem bytes_above (s t : Source) : (s.above t).bytes = s.bytes ++ '\n'.toUInt8 :: t.bytes := by
  have hnewline : Utf8.encode "\n".toList = ['\n'.toUInt8] := rfl
  rw [bytes, above, String.toList_append, String.toList_append, Utf8.encode_append,
    Utf8.encode_append, hnewline, List.append_assoc, List.singleton_append, bytes, bytes]

theorem size_above (s t : Source) : (s.above t).size = s.size + (t.size + 1) := by
  rw [size, bytes_above, List.length_append, List.length_cons, size, size]

end Source

theorem Parse.glyphs_above (s t : Source) :
    glyphs (s.above t) = glyphs s ++ .newline :: glyphs t := by
  rw [glyphs, Source.bytes_above, List.map_append]
  rfl

/-! ## The scanner at a newline -/

/-- The number of backslashes at the end of some glyphs. -/
def Glyph.backslashes (gs : List Glyph) : Nat := (gs.rtakeWhile (· = .backslash)).length

namespace Scanner

open Glyph (backslashes)

/-- A scanner right behind a backslash that takes the next glyph along. -/
def InEscape (s : Scanner) : Prop := ∃ first, s.mode = .escaped first

variable {s : Scanner} {gs hs : List Glyph}

/-- At a newline the scanner finds what it finds at the end. -/
theorem emits_newline (h : ¬ s.InEscape) : s.emits .newline = s.emitsAtEnd := by
  obtain ⟨mode, n⟩ := s
  cases mode with
  | code | comment | string first => rfl
  | escaped first => exact absurd ⟨first, rfl⟩ h

/-- **Behind a newline the scanner starts anew.** -/
theorem next_newline (h : ¬ s.InEscape) :
    s.next .newline = initial.relocate (· + (s.offset + 1)) := by
  obtain ⟨mode, n⟩ := s
  have hoffset : n + 1 = 0 + (n + 1) := (Nat.zero_add _).symm
  cases mode with
  | code | comment | string first => exact congrArg (Scanner.mk .code) hoffset
  | escaped first => exact absurd ⟨first, rfl⟩ h

/-- Further on in a text the scanner finds the same tokens, further on. -/
theorem tokensToEnd_relocate_add (h : s.Inside) (d : Nat) (gs : List Glyph) :
    (s.relocate (· + d)).tokensToEnd gs = (s.tokensToEnd gs).map (Token.shift d) := by
  rw [Token.shift_eq_relocate]
  induction gs generalizing s with
  | nil =>
    rw [tokensToEnd, tokensToEnd, tokens_nil, tokens_nil, List.nil_append, List.nil_append,
      nextAll_nil, nextAll_nil, emitsAtEnd_relocate h]
    cases s.emitsAtEnd <;> rfl
  | cons g gs ih =>
    have hnext : (s.relocate (· + d)).next g = (s.next g).relocate (· + d) := by
      rw [next, nextMode_relocate]
      exact congrArg _ (Nat.add_right_comm s.offset d 1)
    rw [tokensToEnd_cons, tokensToEnd_cons, hnext, ih (h.next g), emits_relocate h, List.map_append]
    cases s.emits g <;> rfl

/-- **Nothing reaches over a newline** that no backslash takes along. -/
theorem tokensToEnd_newline (h : ¬ (s.nextAll gs).InEscape) (hs : List Glyph) :
    s.tokensToEnd (gs ++ .newline :: hs)
      = s.tokensToEnd gs
        ++ (initial.tokensToEnd hs).map (Token.shift ((s.nextAll gs).offset + 1)) := by
  rw [tokensToEnd_append, tokensToEnd_cons, emits_newline h, next_newline h,
    tokensToEnd_relocate_add inside_initial, ← List.append_assoc]
  rfl

/-! ## Where a string is left open -/

theorem offset_nextAll_initial (gs : List Glyph) : (initial.nextAll gs).offset = gs.length := by
  rw [offset_nextAll, offset_initial, Nat.zero_add]

theorem inside_nextAll (h : s.Inside) (gs : List Glyph) : (s.nextAll gs).Inside := by
  induction gs generalizing s with
  | nil => exact h
  | cons g gs ih => exact ih (h.next g)

/-- A token is given rise to by one of the glyphs. -/
theorem mem_tokens_iff {t : Token} :
    t ∈ s.tokens gs ↔ ∃ n g, gs[n]? = some g ∧ (s.nextAll (gs.take n)).emits g = some t := by
  induction gs generalizing s with
  | nil => simp
  | cons g gs ih =>
    rw [tokens_cons, List.mem_append, Option.mem_toList, ih]
    constructor
    · rintro (h | ⟨n, g', hg, h⟩)
      · exact ⟨0, g, rfl, h⟩
      · exact ⟨n + 1, g', hg, h⟩
    · rintro ⟨n, g', hg, h⟩
      cases n with
      | zero =>
        obtain rfl := Option.some.inj hg
        exact Or.inl h
      | succ n => exact Or.inr ⟨n, g', hg, h⟩

theorem mem_tokensToEnd_iff {t : Token} :
    t ∈ s.tokensToEnd gs ↔ t ∈ s.tokens gs ∨ (s.nextAll gs).emitsAtEnd = some t := by
  rw [tokensToEnd, List.mem_append, Option.mem_toList]

theorem emits_eq_unterminated_iff {g : Glyph} {first last : Nat} :
    s.emits g = some (.unterminated first last)
      ↔ s.mode = .string first ∧ g = .newline ∧ last = s.offset - 1 := by
  obtain ⟨mode, n⟩ := s
  cases mode <;> cases g <;> simp [emits, eq_comm]

theorem emitsAtEnd_eq_unterminated_iff {first last : Nat} :
    s.emitsAtEnd = some (.unterminated first last)
      ↔ s.mode.quote? = some first ∧ last = s.offset - 1 := by
  obtain ⟨mode, n⟩ := s
  cases mode <;> simp [emitsAtEnd, Mode.quote?, eq_comm]

/-- **A string is left open at a newline or at the end.**  Its token names the quote that the
scanner goes back to there, and the glyph in front. -/
theorem exists_prefix_of_unterminated {first last : Nat}
    (h : .unterminated first last ∈ initial.tokensToEnd gs) :
    ∃ as bs, gs = as ++ bs ∧ as.length = last + 1 ∧ (initial.nextAll as).mode.quote? = some first ∧
      (bs = [] ∨ ¬ (initial.nextAll as).InEscape ∧ bs.head? = some .newline) := by
  have hlength {as : List Glyph} (hquote : (initial.nextAll as).mode.quote? = some first)
      (hlast : last = (initial.nextAll as).offset - 1) : as.length = last + 1 := by
    have hfirst := inside_nextAll inside_initial as first hquote
    rw [offset_nextAll_initial] at hfirst hlast
    omega
  rcases mem_tokensToEnd_iff.mp h with h | h
  · obtain ⟨n, g, hg, hemits⟩ := mem_tokens_iff.mp h
    obtain ⟨hmode, rfl, hlast⟩ := emits_eq_unterminated_iff.mp hemits
    have hquote : (initial.nextAll (gs.take n)).mode.quote? = some first := by
      rw [hmode, Mode.quote?]
    have hescape : ¬ (initial.nextAll (gs.take n)).InEscape := by
      rintro ⟨q, hq⟩
      cases hmode.symm.trans hq
    exact ⟨gs.take n, gs.drop n, (List.take_append_drop n gs).symm, hlength hquote hlast, hquote,
      Or.inr ⟨hescape, List.head?_drop.trans hg⟩⟩
  · obtain ⟨hquote, hlast⟩ := emitsAtEnd_eq_unterminated_iff.mp h
    exact ⟨gs, [], (List.append_nil gs).symm, hlength hquote hlast, hquote, Or.inl rfl⟩

/-! ## Escapes -/

theorem backslashes_concat (gs : List Glyph) (g : Glyph) :
    backslashes (gs ++ [g]) = if g = .backslash then backslashes gs + 1 else 0 := by
  rw [backslashes, List.rtakeWhile_concat]
  by_cases h : g = .backslash
  · simp [h, backslashes]
  · simp [h]

/-- A glyph starts a string, or leaves the scanner in one; a newline does so in an escape only. -/
theorem quote?_of_next {g : Glyph} {first : Nat} (h : (s.next g).mode.quote? = some first) :
    (s.mode = .code ∧ g = .quote ∧ first = s.offset) ∨
      (s.mode.quote? = some first ∧ (g = .newline → s.InEscape)) := by
  obtain ⟨mode, n⟩ := s
  cases mode with
  | code =>
    cases g with
    | quote => exact Or.inl ⟨rfl, rfl, (Option.some.inj h).symm⟩
    | newline | hash | backslash | opening d | closing d | plain => exact nomatch h
  | comment => cases g <;> exact nomatch h
  | string q =>
    cases g with
    | newline | quote => exact nomatch h
    | hash | backslash | opening d | closing d | plain => exact Or.inr ⟨h, nofun⟩
  | escaped q => exact Or.inr ⟨h, fun _ => ⟨q, rfl⟩⟩

/-- The scanner goes back to a quote. -/
theorem quote_of_quote? {first : Nat} (h : (initial.nextAll gs).mode.quote? = some first) :
    gs[first]? = some .quote := by
  induction gs using List.reverseRecOn with
  | nil => exact nomatch h
  | append_singleton gs g ih =>
    rw [nextAll_append, nextAll_cons, nextAll_nil] at h
    rcases quote?_of_next h with ⟨-, rfl, rfl⟩ | ⟨hquote, -⟩
    · rw [offset_nextAll_initial, List.getElem?_concat_length]
    · have hget := ih hquote
      rw [List.getElem?_append_left (List.getElem?_eq_some_iff.mp hget).1, hget]

/-- In a string a backslash starts an escape, unless it ends one. -/
theorem inEscape_next_iff {first : Nat} (h : s.mode.quote? = some first) (g : Glyph) :
    (s.next g).InEscape ↔ g = .backslash ∧ ¬ s.InEscape := by
  obtain ⟨mode, n⟩ := s
  cases mode with
  | code | comment => exact nomatch h
  | string q => cases g <;> simp [InEscape, next, nextMode]
  | escaped q => simp [InEscape, next, nextMode]

/-- **In a string every other backslash takes the next glyph along**: the scanner is behind such a
one exactly if an odd number of them stands in front of it. -/
theorem inEscape_nextAll_iff {first : Nat} (h : (initial.nextAll gs).mode.quote? = some first) :
    (initial.nextAll gs).InEscape ↔ backslashes gs % 2 = 1 := by
  induction gs using List.reverseRecOn with
  | nil => exact nomatch h
  | append_singleton gs g ih =>
    rw [nextAll_append, nextAll_cons, nextAll_nil] at h ⊢
    rw [backslashes_concat]
    rcases quote?_of_next h with ⟨hmode, rfl, -⟩ | ⟨hquote, -⟩
    · simp [InEscape, next, nextMode, hmode]
    · rw [inEscape_next_iff hquote, ih hquote]
      split_ifs with hg
      · simp only [hg, true_and]
        omega
      · simp [hg]

/-- **A newline in a string is taken along by a backslash.** -/
theorem backslashes_of_newline {first n : Nat} (h : (initial.nextAll gs).mode.quote? = some first)
    (hn : first ≤ n) (hg : gs[n]? = some .newline) : backslashes (gs.take n) % 2 = 1 := by
  induction gs using List.reverseRecOn with
  | nil => exact nomatch h
  | append_singleton gs g ih =>
    rw [nextAll_append, nextAll_cons, nextAll_nil] at h
    have hoffset := offset_nextAll_initial gs
    rcases Nat.lt_or_ge n gs.length with hlt | hge
    · rw [List.getElem?_append_left hlt] at hg
      rw [List.take_append_of_le_length hlt.le]
      rcases quote?_of_next h with ⟨-, -, rfl⟩ | ⟨hquote, -⟩
      · omega
      · exact ih hquote hg
    · -- the newline is the last glyph, and the scanner stays in the string
      obtain ⟨hlt, -⟩ := List.getElem?_eq_some_iff.mp hg
      rw [List.length_append, List.length_singleton] at hlt
      obtain rfl : n = gs.length := by omega
      rw [List.getElem?_concat_length, Option.some.injEq] at hg
      rw [List.take_left]
      rcases quote?_of_next h with ⟨-, hquote, -⟩ | ⟨hquote, hescape⟩
      · exact absurd (hg.symm.trans hquote) nofun
      · exact (inEscape_nextAll_iff hquote).mp (hescape hg)

/-- In an escape a string goes on over the newline, so it is not reported in front of it. -/
theorem not_mem_tokensToEnd_newline (h : (initial.nextAll gs).InEscape) (first : Nat) :
    .unterminated first (gs.length - 1) ∉ initial.tokensToEnd (gs ++ .newline :: hs) := by
  intro hmem
  obtain ⟨as, bs, heq, hlength, -, hend⟩ := exists_prefix_of_unterminated hmem
  have hpos : gs.length ≠ 0 := by
    rintro hnil
    rw [List.length_eq_zero_iff.mp hnil] at h
    exact nomatch h
  obtain ⟨rfl, rfl⟩ := List.append_inj heq (by omega)
  exact hend.elim nofun fun h' => h'.1 h

end Scanner

/-! ## Strings left open in a text -/

namespace Source

/-- The number of backslashes in front of an offset. -/
def backslashesBefore (s : Source) (n : Nat) : Nat :=
  ((s.bytes.take n).rtakeWhile (· = '\\'.toUInt8)).length

/-- A text that ends inside a string, behind a backslash that takes along what comes next. -/
def EndsInEscape (s : Source) : Prop :=
  (∃ first, .unterminated first (s.size - 1) ∈ Token.ofGlyphs (Parse.glyphs s)) ∧
    s.backslashesBefore s.size % 2 = 1

variable {s : Source}

theorem backslashes_glyphs (s : Source) (n : Nat) :
    Glyph.backslashes ((Parse.glyphs s).take n) = s.backslashesBefore n := by
  have hbackslash : (fun b => decide (Glyph.ofByte b = .backslash)) = (· = '\\'.toUInt8) := by
    funext b
    exact decide_eq_decide.mpr (Glyph.ofByte_eq_iff rfl)
  rw [Glyph.backslashes, Parse.glyphs, ← List.map_take, List.rtakeWhile, ← List.map_reverse,
    List.takeWhile_map, List.length_reverse, List.length_map, backslashesBefore, List.rtakeWhile,
    List.length_reverse, ← hbackslash]
  rfl

theorem length_glyphs (s : Source) : (Parse.glyphs s).length = s.size := List.length_map _

theorem getElem?_glyphs_eq_iff {g : Glyph} {c : Char} (h : g.char? = some c) {n : Nat} :
    (Parse.glyphs s)[n]? = some g ↔ s.bytes[n]? = some c.toUInt8 := by
  rw [Parse.glyphs, List.getElem?_map, Option.map_eq_some_iff]
  constructor
  · rintro ⟨b, hb, hg⟩
    rw [hb, (Glyph.ofByte_eq_iff h).mp hg]
  · intro hb
    exact ⟨_, hb, (Glyph.ofByte_eq_iff h).mpr rfl⟩

/-- A text ends in an escape exactly if the scanner does. -/
theorem endsInEscape_iff :
    s.EndsInEscape ↔ (Scanner.initial.nextAll (Parse.glyphs s)).InEscape := by
  have hodd : Glyph.backslashes (Parse.glyphs s) = s.backslashesBefore s.size := by
    rw [← backslashes_glyphs, List.take_of_length_le s.length_glyphs.le]
  rw [EndsInEscape, ← hodd]
  constructor
  · rintro ⟨⟨first, hmem⟩, h⟩
    obtain ⟨as, bs, heq, hlength, hquote, -⟩ := Scanner.exists_prefix_of_unterminated hmem
    have hsize := congrArg List.length heq
    rw [length_glyphs, List.length_append] at hsize
    obtain rfl : bs = [] := List.length_eq_zero_iff.mp (by omega)
    rw [List.append_nil] at heq
    rw [← heq] at hquote
    exact (Scanner.inEscape_nextAll_iff hquote).mpr h
  · rintro ⟨first, hmode⟩
    have hquote : (Scanner.initial.nextAll (Parse.glyphs s)).mode.quote? = some first := by
      rw [hmode, Mode.quote?]
    refine ⟨⟨first, Scanner.mem_tokensToEnd_iff.mpr (Or.inr ?_)⟩,
      (Scanner.inEscape_nextAll_iff hquote).mp ⟨first, hmode⟩⟩
    rw [Scanner.emitsAtEnd_eq_unterminated_iff, Scanner.offset_nextAll_initial, length_glyphs]
    exact ⟨hquote, rfl⟩

end Source

/-- The report on a string left open. -/
def Token.openString? : Token → Option SyntaxReport
  | unterminated first last => some ⟨first, last, .error, "unterminated string literal"⟩
  | opening _ _ => none
  | closing _ _ => none

namespace Parse

/-- A report on a string left open. -/
def reportsOpenString (r : SyntaxReport) : Bool := r.message = "unterminated string literal"

/-- The reports on strings left open. -/
def openStrings (p : Parse) : List SyntaxReport := p.reports.filter reportsOpenString

theorem openString?_shift (d : Nat) (t : Token) :
    (t.shift d).openString? = t.openString?.map (SyntaxReport.shift d) := by
  cases t with
  | opening k n | closing k n => rfl
  | unterminated first last => rfl

theorem filter_report?_close (o : Delimiter × Nat) (closer : Delimiter) (n : Nat) :
    (report? (Finding.close o closer n)).filter reportsOpenString = none := by
  rw [Finding.close]
  obtain ⟨opener, m⟩ := o
  split
  · rfl
  · cases opener <;> cases closer <;> rfl

/-- Matching brackets leaves the strings left open as they come. -/
theorem filterMap_ofTokensFrom (stack : Finding.Stack) (ts : List Token) :
    (Finding.ofTokensFrom stack ts).filterMap (fun f => (report? f).filter reportsOpenString)
      = ts.filterMap Token.openString? := by
  fun_induction Finding.ofTokensFrom stack ts with
  | case1 stack =>
    rw [List.filterMap_map, List.filterMap_nil, List.filterMap_eq_nil_iff]
    rintro ⟨d, n⟩ -
    cases d <;> rfl
  | case2 stack d n ts ih => exact ih
  | case3 o stack d n ts ih =>
    rw [List.filterMap_cons, filter_report?_close, ih]
    rfl
  | case4 d n ts ih =>
    have hother : (report? (.unexpected d n)).filter reportsOpenString = none := by
      cases d <;> rfl
    rw [List.filterMap_cons, hother, ih]
    rfl
  | case5 stack first last ts ih =>
    have hreport : (report? (.unterminated first last)).filter reportsOpenString
        = (Token.unterminated first last).openString? := rfl
    rw [List.filterMap_cons, hreport, ih]
    rfl

/-- **The strings left open are reported as they are found**, in the order of the text. -/
theorem openStrings_ofSource (s : Source) :
    (ofSource s).openStrings = (Token.ofGlyphs (glyphs s)).filterMap Token.openString? := by
  have hperm : (ofSource s).openStrings.Perm
      ((Token.ofGlyphs (glyphs s)).filterMap Token.openString?) := by
    refine ((List.mergeSort_perm _ _).filter _).trans ?_
    rw [List.filter_filterMap, findings, Finding.ofTokens, filterMap_ofTokensFrom]
  have hreports : (ofSource s).openStrings.Pairwise fun a b => a.first < b.first :=
    (pairwise_first_reportsOf (glyphs s)).filter _
  have htokens : ((Token.ofGlyphs (glyphs s)).filterMap Token.openString?).Pairwise
      fun a b => a.first < b.first := by
    refine (Scanner.pairwise_start_tokensToEnd Scanner.inside_initial (glyphs s)).1.filterMap _ ?_
    intro t u hlt a ha b hb
    cases t with
    | opening k n | closing k n => cases ha
    | unterminated first last =>
      cases u with
      | opening k n | closing k n => cases hb
      | unterminated first' last' =>
        obtain rfl := Option.some.inj ha
        obtain rfl := Option.some.inj hb
        exact Int.ofNat_lt.mpr hlt
  exact hperm.eq_of_pairwise (fun a b _ _ hab hba => absurd hba (Int.lt_asymm hab)) hreports htokens

theorem mem_openStrings_iff {s : Source} {r : SyntaxReport} :
    r ∈ (ofSource s).openStrings ↔ ∃ first last : Nat,
      .unterminated first last ∈ Token.ofGlyphs (glyphs s) ∧
        r = ⟨first, last, .error, "unterminated string literal"⟩ := by
  rw [openStrings_ofSource, List.mem_filterMap]
  constructor
  · rintro ⟨t, ht, hr⟩
    cases t with
    | opening k n | closing k n => exact nomatch hr
    | unterminated first last => exact ⟨first, last, ht, (Option.some.inj hr).symm⟩
  · rintro ⟨first, last, ht, rfl⟩
    exact ⟨_, ht, rfl⟩

/-! ## Text below a text -/

theorem ofGlyphs_above {s : Source} (h : ¬ s.EndsInEscape) (t : Source) :
    Token.ofGlyphs (glyphs (s.above t))
      = Token.ofGlyphs (glyphs s) ++ (Token.ofGlyphs (glyphs t)).map (Token.shift (s.size + 1)) := by
  have hoffset : (Scanner.initial.nextAll (glyphs s)).offset = s.size := by
    rw [Scanner.offset_nextAll_initial, s.length_glyphs]
  have htokens := Scanner.tokensToEnd_newline (mt Source.endsInEscape_iff.mpr h) (glyphs t)
  rw [hoffset, ← glyphs_above] at htokens
  exact htokens

/-- What is found of two texts, the second moved on, is reported of them. -/
theorem openStrings_above_of_ofGlyphs {s t : Source}
    (h : Token.ofGlyphs (glyphs (s.above t))
      = Token.ofGlyphs (glyphs s) ++ (Token.ofGlyphs (glyphs t)).map (Token.shift (s.size + 1))) :
    (ofSource (s.above t)).openStrings
      = (ofSource s).openStrings
        ++ (ofSource t).openStrings.map (SyntaxReport.shift (s.size + 1)) := by
  rw [openStrings_ofSource, openStrings_ofSource, openStrings_ofSource, h, List.filterMap_append,
    List.filterMap_map, List.map_filterMap]
  exact congrArg _ (List.filterMap_congr fun t _ => openString?_shift (s.size + 1) t)

/-- Behind an escape the last string of the text in front is not reported where it was. -/
theorem openStrings_above_ne {s : Source} (h : s.EndsInEscape) (t : Source)
    (rs : List SyntaxReport) :
    (ofSource (s.above t)).openStrings ≠ (ofSource s).openStrings ++ rs := by
  obtain ⟨⟨first, hmem⟩, -⟩ := id h
  intro heq
  have hreport : ⟨first, (s.size - 1 : Nat), .error, "unterminated string literal"⟩
      ∈ (ofSource (s.above t)).openStrings := by
    rw [heq]
    exact List.mem_append_left _ (mem_openStrings_iff.mpr ⟨first, _, hmem, rfl⟩)
  obtain ⟨first', last, hmem', hr⟩ := mem_openStrings_iff.mp hreport
  injection hr with hfirst hlast
  obtain rfl := Int.ofNat.inj hfirst
  obtain rfl := Int.ofNat.inj hlast
  rw [glyphs_above, ← s.length_glyphs] at hmem'
  exact Scanner.not_mem_tokensToEnd_newline (Source.endsInEscape_iff.mp h) first hmem'

/-- **A string left open is reported from its quote to the end of a line.**  A newline in it is one
that a backslash takes along. -/
theorem exists_bounds_of_mem_openStrings {s : Source} {r : SyntaxReport}
    (hr : r ∈ (ofSource s).openStrings) : ∃ first last : Nat,
      r.first = first ∧ r.last = last ∧ first ≤ last ∧
      s.bytes[first]? = some '"'.toUInt8 ∧
      (last + 1 = s.size ∨ s.bytes[last + 1]? = some '\n'.toUInt8) ∧
      ∀ n, first ≤ n → n ≤ last → s.bytes[n]? = some '\n'.toUInt8 →
        s.backslashesBefore n % 2 = 1 := by
  obtain ⟨first, last, hmem, rfl⟩ := mem_openStrings_iff.mp hr
  obtain ⟨as, bs, heq, hlength, hquote, hend⟩ := Scanner.exists_prefix_of_unterminated hmem
  have hstart : as[first]? = some .quote := Scanner.quote_of_quote? hquote
  have hget {n : Nat} (hn : n < as.length) : (glyphs s)[n]? = as[n]? := by
    rw [heq, List.getElem?_append_left hn]
  have hfirst : first < as.length := (List.getElem?_eq_some_iff.mp hstart).1
  have hnewline {n : Nat} : s.bytes[n]? = some '\n'.toUInt8 ↔ (glyphs s)[n]? = some .newline :=
    (Source.getElem?_glyphs_eq_iff rfl).symm
  refine ⟨first, last, rfl, rfl, by omega, ?_, ?_, fun n hn hle hg => ?_⟩
  · exact (Source.getElem?_glyphs_eq_iff (g := .quote) rfl).mp ((hget hfirst).trans hstart)
  · rw [hnewline, ← s.length_glyphs, heq, ← hlength, List.getElem?_append_right le_rfl,
      Nat.sub_self, ← List.head?_eq_getElem?]
    exact hend.imp (fun hnil => by rw [hnil, List.append_nil]) And.right
  · rw [hnewline, hget (by omega)] at hg
    rw [← Source.backslashes_glyphs, heq, List.take_append_of_le_length (by omega)]
    exact Scanner.backslashes_of_newline hquote hn hg

/-- **Strings and comments do not reach over a newline that no backslash takes along.**  The tokens
of a text with another one below it are those of the two, and so are the strings left open that are
reported, exactly if the text above does not end in an escape.  A string that is reported starts at
a quote and stops in front of a newline or at the end of the text, and each newline in it stands
behind an odd number of backslashes. -/
theorem ofGlyphs_above_iff (s t : Source) :
    (Token.ofGlyphs (glyphs (s.above t))
        = Token.ofGlyphs (glyphs s) ++ (Token.ofGlyphs (glyphs t)).map (Token.shift (s.size + 1))
      ↔ ¬ s.EndsInEscape) ∧
    ((ofSource (s.above t)).openStrings
        = (ofSource s).openStrings
          ++ (ofSource t).openStrings.map (SyntaxReport.shift (s.size + 1))
      ↔ ¬ s.EndsInEscape) ∧
    ∀ r ∈ (ofSource s).openStrings, ∃ first last : Nat,
      r.first = first ∧ r.last = last ∧ first ≤ last ∧
      s.bytes[first]? = some '"'.toUInt8 ∧
      (last + 1 = s.size ∨ s.bytes[last + 1]? = some '\n'.toUInt8) ∧
      ∀ n, first ≤ n → n ≤ last → s.bytes[n]? = some '\n'.toUInt8 →
        s.backslashesBefore n % 2 = 1 := by
  have hescape (h : s.EndsInEscape) := openStrings_above_ne h t
  refine ⟨⟨fun h hend => ?_, fun h => ofGlyphs_above h t⟩, ⟨fun h hend => ?_, fun h => ?_⟩,
    fun r => exists_bounds_of_mem_openStrings⟩
  · exact hescape hend _ (openStrings_above_of_ofGlyphs h)
  · exact hescape hend _ h
  · exact openStrings_above_of_ofGlyphs (ofGlyphs_above h t)

/-- A string with a newline that a backslash takes along, and one that ends it. -/
def longString : Source := ⟨"\"a\\\nb\n)", none⟩

theorem ofGlyphs_above_iff_longString :
    ⟨0, 4, .error, "unterminated string literal"⟩ ∈ (ofSource longString).openStrings ∧
      longString.bytes[3]? = some '\n'.toUInt8 ∧ longString.backslashesBefore 3 % 2 = 1 ∧
      (4 + 1 = longString.size ∨ longString.bytes[4 + 1]? = some '\n'.toUInt8) ∧
      ¬ longString.EndsInEscape ∧
      Token.ofGlyphs (glyphs (longString.above longString))
        = [.unterminated 0 4, .closing .round 6, .unterminated 8 12, .closing .round 14] := by
  obtain ⟨htokens, -, hstrings⟩ := ofGlyphs_above_iff longString longString
  have hmem : ⟨0, 4, .error, "unterminated string literal"⟩ ∈ (ofSource longString).openStrings :=
    mem_openStrings_iff.mpr ⟨0, 4, by decide +kernel, rfl⟩
  have hnewline : longString.bytes[3]? = some '\n'.toUInt8 := by decide +kernel
  have hfound : Token.ofGlyphs (glyphs (longString.above longString))
      = [.unterminated 0 4, .closing .round 6, .unterminated 8 12, .closing .round 14] := by
    decide +kernel
  obtain ⟨first, last, hfirst, hlast, -, -, hend, hinside⟩ := hstrings _ hmem
  obtain rfl : first = 0 := Int.ofNat.inj hfirst.symm
  obtain rfl : last = 4 := Int.ofNat.inj hlast.symm
  refine ⟨hmem, hnewline, hinside 3 (by decide) (by decide) hnewline, hend, htokens.mp ?_, hfound⟩
  rw [hfound]
  decide +kernel

/-- A string that is left open behind a backslash. -/
def openEscape : Source := ⟨"\"\\", none⟩

/-- A quote. -/
def loneQuote : Source := ⟨"\"", none⟩

/-- Above a quote, the backslash takes the newline along, and the quote ends the string instead of
starting one: what is reported of each of the two alone is reported of neither. -/
theorem openStrings_above_openEscape :
    (ofSource openEscape).openStrings = [⟨0, 1, .error, "unterminated string literal"⟩] ∧
      (ofSource loneQuote).openStrings = [⟨0, 0, .error, "unterminated string literal"⟩] ∧
      (ofSource (openEscape.above loneQuote)).openStrings = [] ∧
      Token.ofGlyphs (glyphs (openEscape.above loneQuote))
        ≠ Token.ofGlyphs (glyphs openEscape)
          ++ (Token.ofGlyphs (glyphs loneQuote)).map (Token.shift (openEscape.size + 1)) ∧
      (ofSource (openEscape.above loneQuote)).openStrings
        ≠ (ofSource openEscape).openStrings
          ++ (ofSource loneQuote).openStrings.map (SyntaxReport.shift (openEscape.size + 1)) := by
  rw [openStrings_ofSource, openStrings_ofSource, openStrings_ofSource]
  decide +kernel

end Parse

end StagedDiagnostics
