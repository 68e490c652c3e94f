import Mathlib.Data.List.Flatten
import Mathlib.Data.List.Nodup
import StagedDiagnostics.Proofs.Scan.Characters
import StagedDiagnostics.Publication

/-!
# Proofs/Scan/Order — reports in order, and inside their text

    tokens ──ofTokens──▸ findings ──report?──▸ reports ──toDiagnostic──▸ diagnostics
    start <              starts: Perm          first <                   start <

Tokens start one behind the other: a bracket where it is found, and a string left open at its quote,
in front of which nothing can start any more (`Scanner.earliest`).  Matching brackets mixes them up,
but every token ends up in exactly one finding (`Finding.perm_tokens_ofTokensFrom`), and a finding
is reported at one of its tokens.  So no two reports start at the same offset, and sorting them by
their first offsets orders them strictly.
-/

namespace StagedDiagnostics

/-! ## Tokens start one behind the other -/

/-- The offset a token starts at. -/
def Token.start : Token → Nat
  | opening _ n => n
  | closing _ n => n
  | unterminated first _ => first

namespace Scanner

/-- The least offset at which a token may still start. -/
def earliest (s : Scanner) : Nat := s.mode.quote?.getD s.offset

/-- **A token starts as early as one may, and the next one later.** -/
theorem start_of_emits {s : Scanner} (h : s.Inside) {g : Glyph} {t : Token}
    (ht : s.emits g = some t) : t.start = s.earliest ∧ s.earliest < (s.next g).earliest := by
  obtain ⟨mode, n⟩ := s
  unfold emits at ht
  split at ht
  next d hmode =>
    obtain rfl : mode = .code := hmode
    obtain rfl := Option.some.inj ht
    exact ⟨rfl, Nat.lt_succ_self n⟩
  next d hmode =>
    obtain rfl : mode = .code := hmode
    obtain rfl := Option.some.inj ht
    exact ⟨rfl, Nat.lt_succ_self n⟩
  next first hmode =>
    obtain rfl : mode = .string first := hmode
    obtain rfl := Option.some.inj ht
    exact ⟨rfl, Nat.lt_succ_of_lt (h first rfl)⟩
  next => cases ht

theorem earliest_le_next {s : Scanner} (h : s.Inside) (g : Glyph) :
    s.earliest ≤ (s.next g).earliest := by
  obtain ⟨mode, n⟩ := s
  cases mode with
  | code =>
    cases g with
    | quote => exact Nat.le_refl n
    | newline | hash | backslash | opening d | closing d | plain => exact Nat.le_succ n
  | comment => cases g <;> exact Nat.le_succ n
  | string first =>
    have hfirst : first < n := h first rfl
    cases g with
    | newline | quote => exact Nat.le_succ_of_le (Nat.le_of_lt hfirst)
    | hash | backslash | opening d | closing d | plain => exact Nat.le_refl first
  | escaped first => exact Nat.le_refl first

theorem start_of_emitsAtEnd {s : Scanner} {t : Token} (ht : s.emitsAtEnd = some t) :
    t.start = s.earliest := by
  obtain ⟨mode, n⟩ := s
  cases mode with
  | code | comment => cases ht
  | string first | escaped first =>
    obtain rfl := Option.some.inj ht
    rfl

/-- **Tokens start one behind the other**, and not before the earliest offset. -/
theorem pairwise_start_tokensToEnd {s : Scanner} (h : s.Inside) (gs : List Glyph) :
    (s.tokensToEnd gs).Pairwise (fun t u => t.start < u.start) ∧
      ∀ t ∈ s.tokensToEnd gs, s.earliest ≤ t.start := by
  induction gs generalizing s with
  | nil =>
    rw [tokensToEnd, tokens_nil, List.nil_append, nextAll_nil]
    cases hend : s.emitsAtEnd with
    | none => exact ⟨List.Pairwise.nil, List.forall_mem_nil _⟩
    | some t =>
      refine ⟨List.pairwise_singleton _ _, fun u hu => ?_⟩
      rw [List.mem_singleton.mp hu, start_of_emitsAtEnd hend]
  | cons g gs ih =>
    obtain ⟨hpairwise, hearliest⟩ := ih (h.next g)
    rw [tokensToEnd_cons]
    cases hemits : s.emits g with
    | none => exact ⟨hpairwise, fun t ht => (earliest_le_next h g).trans (hearliest t ht)⟩
    | some t =>
      obtain ⟨hstart, hlt⟩ := start_of_emits h hemits
      have hlater : ∀ u ∈ (s.next g).tokensToEnd gs, t.start < u.start :=
        fun u hu => hstart ▸ hlt.trans_le (hearliest u hu)
      refine ⟨List.pairwise_cons.mpr ⟨hlater, hpairwise⟩, fun u hu => ?_⟩
      rcases List.mem_cons.mp hu with rfl | hu
      · exact hstart.ge
      · exact hstart.ge.trans (hlater u hu).le

end Scanner

/-- **Tokens are inside the text.** -/
theorem Token.located_ofGlyphs (gs : List Glyph) :
    ∀ t ∈ Token.ofGlyphs gs, t.Located (fun n => n < gs.length)
      fun first last => first ≤ last ∧ last < gs.length := by
  intro t ht
  refine (Scanner.located_tokensToEnd Scanner.inside_initial gs t ht).imp ?_ fun first last => ?_
  · rintro n ⟨i, g, rfl, hg, -⟩
    rw [Scanner.offset_initial, Nat.zero_add]
    exact (List.getElem?_eq_some_iff.mp hg).1
  · rw [Scanner.offset_initial, Nat.zero_add]
    exact id

/-! ## Every token in one finding -/

namespace Finding

/-- The offsets at which the tokens of a finding start. -/
def starts : Finding → List Nat
  | matched _ opened closed => [opened, closed]
  | mismatched _ opened _ closed => [opened, closed]
  | unexpected _ closed => [closed]
  | unclosed _ opened => [opened]
  | unterminated first _ => [first]

/-- The tokens that a finding is made of. -/
def tokens : Finding → List Token
  | matched d opened closed => [.opening d opened, .closing d closed]
  | mismatched opener opened closer closed => [.opening opener opened, .closing closer closed]
  | unexpected closer closed => [.closing closer closed]
  | unclosed opener opened => [.opening opener opened]
  | unterminated first last => [.unterminated first last]

theorem starts_eq (f : Finding) : f.starts = f.tokens.map Token.start := by
  cases f <;> rfl

theorem tokens_close (o : Delimiter × Nat) (closer : Delimiter) (closed : Nat) :
    (close o closer closed).tokens = [.opening o.1 o.2, .closing closer closed] := by
  rw [close]
  split
  next h => rw [h]; rfl
  next => rfl

/-- **Findings share out the tokens**, those of the open brackets among them. -/
theorem perm_tokens_ofTokensFrom (stack : Stack) (ts : List Token) :
    ((ofTokensFrom stack ts).flatMap tokens).Perm
      (stack.map (fun o => .opening o.1 o.2) ++ ts) := by
  fun_induction ofTokensFrom stack ts with
  | case1 stack =>
    rw [List.flatMap_map, List.append_nil, List.map_eq_flatMap]
    exact List.Perm.refl _
  | case2 stack d n ts ih => exact ih.trans List.perm_middle.symm
  | case3 o stack d n ts ih =>
    rw [List.flatMap_cons, tokens_close]
    exact ((ih.cons _).trans List.perm_middle.symm).cons _
  | case4 d n ts ih => exact ih.cons _
  | case5 stack first last ts ih => exact (ih.cons _).trans List.perm_middle.symm

theorem perm_tokens_ofTokens (ts : List Token) : ((ofTokens ts).flatMap tokens).Perm ts :=
  perm_tokens_ofTokensFrom [] ts

end Finding

namespace Parse

variable {r : SyntaxReport}

/-- A finding is reported at one of its tokens, if at all. -/
theorem first_report?_sublist (f : Finding) :
    ((report? f).map SyntaxReport.first).toList.Sublist (f.starts.map Int.ofNat) := by
  cases f with
  | matched d o c => exact List.nil_sublist _
  | mismatched opener o closer c => exact List.sublist_cons_self _ _
  | unexpected closer c => exact List.Sublist.refl _
  | unclosed opener o => exact List.Sublist.refl _
  | unterminated first last => exact List.Sublist.refl _

/-! ## Reports in order -/

/-- No two tokens start at the same offset, whatever findings they end up in. -/
theorem nodup_starts_findings (gs : List Glyph) : ((findings gs).flatMap Finding.starts).Nodup := by
  have htokens : ((Token.ofGlyphs gs).map Token.start).Nodup :=
    List.pairwise_map.mpr
      ((Scanner.pairwise_start_tokensToEnd Scanner.inside_initial gs).1.imp Nat.ne_of_lt)
  have hstarts : (findings gs).flatMap Finding.starts
      = ((findings gs).flatMap Finding.tokens).map Token.start := by
    rw [List.map_flatMap]
    exact List.flatMap_congr fun f _ => f.starts_eq
  rw [hstarts]
  exact ((Finding.perm_tokens_ofTokens (Token.ofGlyphs gs)).map Token.start).nodup_iff.mpr htokens

/-- No two reports start at the same offset. -/
theorem nodup_first_findings (gs : List Glyph) :
    (((findings gs).filterMap report?).map SyntaxReport.first).Nodup := by
  have hinjective : Function.Injective Int.ofNat := fun _ _ => Int.ofNat.inj
  have hsublist : (((findings gs).filterMap report?).map SyntaxReport.first).Sublist
      (((findings gs).flatMap Finding.starts).map Int.ofNat) := by
    rw [List.map_filterMap, List.filterMap_eq_flatMap_toList, List.map_flatMap]
    exact List.Sublist.flatMap_right _ fun f _ => first_report?_sublist f
  exact ((nodup_starts_findings gs).map hinjective).sublist hsublist

/-- **Reports start one behind the other.** -/
theorem pairwise_first_reportsOf (gs : List Glyph) :
    (reportsOf gs).Pairwise fun a b => a.first < b.first := by
  have hsorted : (reportsOf gs).Pairwise fun a b => decide (a.first ≤ b.first) = true := by
    refine List.pairwise_mergeSort (fun a b c hab hbc => ?_) (fun a b => ?_) _
    · exact decide_eq_true ((of_decide_eq_true hab).trans (of_decide_eq_true hbc))
    · rw [Bool.or_eq_true, decide_eq_true_eq, decide_eq_true_eq]
      exact Int.le_total a.first b.first
  have hdistinct : (reportsOf gs).Pairwise fun a b => a.first ≠ b.first :=
    List.pairwise_map.mp
      (((List.mergeSort_perm _ _).map SyntaxReport.first).nodup_iff.mpr (nodup_first_findings gs))
  exact hsorted.imp₂ (fun a b hle hne => Int.lt_iff_le_and_ne.mpr ⟨of_decide_eq_true hle, hne⟩)
    hdistinct

/-- **Reports are inside the text.** -/
theorem bounds_of_mem_reportsOf {gs : List Glyph} (hr : r ∈ reportsOf gs) :
    0 ≤ r.first ∧ r.first ≤ r.last ∧ r.last < gs.length := by
  obtain ⟨first, last, hfirst, hlast, h⟩ :=
    exists_offsets_of_mem_reportsOfTokens (Token.located_ofGlyphs gs) hr
  rw [hfirst, hlast]
  rcases h with ⟨rfl, hlt⟩ | ⟨hle, hlt⟩
  · exact ⟨Int.natCast_nonneg _, Int.le_refl _, Int.ofNat_lt.mpr hlt⟩
  · exact ⟨Int.natCast_nonneg _, Int.ofNat_le.mpr hle, Int.ofNat_lt.mpr hlt⟩

/-- A report starts between two characters. -/
theorem first_mem_boundaries {s : Source} (hr : r ∈ (ofSource s).reports) :
    r.first ∈ s.boundaries := by
  have htokens : ∀ t ∈ Token.ofGlyphs (glyphs s), t.Located (fun n => (n : ℤ) ∈ s.boundaries)
      fun first _ => (first : ℤ) ∈ s.boundaries := by
    rw [ofGlyphs_glyphs]
    refine List.forall_mem_map.mpr fun t ht => ?_
    have hlocated := located_ofGlyphs_charGlyphs s t ht
    cases t with
    | opening d n => exact ⟨n, hlocated.1.le, rfl⟩
    | closing d n => exact ⟨n, hlocated.1.le, rfl⟩
    | unterminated first last => exact ⟨first, hlocated.le, rfl⟩
  obtain ⟨n, hfirst, hn⟩ := exists_first_of_mem_reportsOfTokens htokens hr
  rw [hfirst]
  exact hn.elim id fun ⟨_, h⟩ => h

end Parse

/-! ## Diagnostics in order -/

namespace Parse

/-- Every report on a text that is not too long is shown. -/
theorem diagnostics_eq {p : Parse} (h : p.source.size < Position.limit) :
    p.diagnostics = .ok (p.reports.map (SyntaxReport.shown p.source)) := by
  have hconvert : (fun r : SyntaxReport => r.toDiagnostic p.source)
      = fun r => pure (r.shown p.source) := funext (SyntaxReport.toDiagnostic_eq h)
  rw [diagnostics, SyntaxReport.toDiagnostics, hconvert, List.mapM_pure]
  rfl

/-- **Pulled diagnostics are in order and inside their document.**  The reports on a text start one
behind the other, and each of them names bytes of the text, the first not behind the last.  Where
the text is not too long for a client, a pull is answered with one diagnostic for each report: they
start one behind the other, each starts not behind where it stops, and both are inside the text. -/
theorem pairwise_start_answer (s : Source) (uri : Uri) :
    (ofSource s).reports.Pairwise (fun a b => a.first < b.first) ∧
      (∀ r ∈ (ofSource s).reports, 0 ≤ r.first ∧ r.first ≤ r.last ∧ r.last < s.size) ∧
      (s.size < Position.limit → ∃ items,
        Publication.answer (some (ofSource s)) uri = .ok items ∧
        items.length = (ofSource s).reports.length ∧
        items.Pairwise (fun d e => d.range.start.key < e.range.start.key) ∧
        ∀ d ∈ items, d.range.start.key ≤ d.range.stop.key ∧
          s.HasPosition d.range.start ∧ s.HasPosition d.range.stop) := by
  have hpairwise : (ofSource s).reports.Pairwise fun a b => a.first < b.first :=
    pairwise_first_reportsOf (glyphs s)
  have hbounds : ∀ r ∈ (ofSource s).reports,
      0 ≤ r.first ∧ r.first ≤ r.last ∧ r.last < s.size := by
    intro r hr
    have h := bounds_of_mem_reportsOf hr
    rwa [glyphs, List.length_map] at h
  refine ⟨hpairwise, hbounds, fun h => ⟨_, diagnostics_eq h, List.length_map _, ?_, ?_⟩⟩
  · refine List.pairwise_map.mpr (hpairwise.imp_of_mem fun ha hb hab => ?_)
    exact Source.shown_key_lt
      (Source.place_lt_place (first_mem_boundaries ha) (first_mem_boundaries hb) hab)
  · refine List.forall_mem_map.mpr fun r hr => ?_
    exact ⟨Source.shown_key_le (Source.place_mono (hbounds r hr).2.1), s.hasPosition_shown r.first,
      s.hasPosition_shown r.last⟩

/-- A string left open whose last byte is the last one of a character of four: the diagnostic stops
right behind the characters of its line. -/
theorem pairwise_start_answer_escapes :
    escapes.size < Position.limit ∧ ∃ items,
      Publication.answer (some (ofSource escapes)) "file:///w/a.stg" = .ok items ∧
      items.Pairwise (fun d e => d.range.start.key < e.range.start.key) ∧
      (∀ d ∈ items, d.range.start.key ≤ d.range.stop.key ∧
        escapes.HasPosition d.range.start ∧ escapes.HasPosition d.range.stop) ∧
      items.map Diagnostic.range = [⟨⟨0, 1⟩, ⟨0, 1⟩⟩, ⟨⟨1, 1⟩, ⟨1, 4⟩⟩] ∧
      escapes.lineLength 2 = 3 := by
  have hsize : escapes.size < Position.limit := by decide +kernel
  obtain ⟨-, -, h⟩ := pairwise_start_answer escapes "file:///w/a.stg"
  obtain ⟨items, hanswer, -, hpairwise, hinside⟩ := h hsize
  have hitems : items = (ofSource escapes).reports.map (SyntaxReport.shown escapes) :=
    Except.ok.inj (hanswer.symm.trans (diagnostics_eq (p := ofSource escapes) hsize))
  have hsorted : ((findings (glyphs escapes)).filterMap report?).Pairwise
      fun a b => decide (a.first ≤ b.first) = true := by
    decide +kernel
  refine ⟨hsize, items, hanswer, hpairwise, hinside, ?_, by decide +kernel⟩
  rw [hitems, ofSource, reportsOf, List.mergeSort_of_pairwise hsorted]
  decide +kernel

end Parse

end StagedDiagnostics
