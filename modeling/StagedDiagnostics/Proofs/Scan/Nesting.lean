import Mathlib.Data.List.Pairwise
import StagedDiagnostics.Proofs.Scan.Lines

/-!
# Proofs/Scan/Nesting — what becomes of the brackets

    ) ]   ( [ ] ( ) )   { [ ( ] )   {        unexpected, pairs, pairs that do not fit, unclosed

Every bracket outside strings and comments ends up in one finding, and what is reported at it is what
its finding says (`Parse.reportsAt_of_mem`).  Brackets that go together, fitting or not, enclose each
other or stand apart; brackets that stay alone are inside no pair, and the closers among them come
before the openers (`Finding.Nested`).

All of it is one invariant of the stack.  Its brackets are open from the innermost to the outermost,
and all of them were opened before the tokens to come; so a finding is closed before those that come
later, and these open behind it or around it (`Finding.Precedes`,
`Finding.pairwise_precedes_ofTokensFrom`).
-/

namespace StagedDiagnostics

/-! ## Brackets outside strings and comments -/

/-- The token of a bracket at an offset. -/
def Glyph.bracket? : Glyph → Nat → Option Token
  | opening d, n => some (.opening d n)
  | closing d, n => some (.closing d n)
  | newline, _ | quote, _ | hash, _ | backslash, _ | plain, _ => none

namespace Scanner

variable {s : Scanner} {g g' : Glyph} {n : Nat} {t : Token}

theorem emits_eq_bracket_iff (h : g.bracket? n = some t) :
    s.emits g' = some t ↔ s.mode = .code ∧ g' = g ∧ s.offset = n := by
  obtain ⟨mode, m⟩ := s
  cases g with
  | newline | quote | hash | backslash | plain => exact nomatch h
  | opening d | closing d =>
    obtain rfl := Option.some.inj h
    cases mode <;> cases g' <;> simp [emits]

theorem emitsAtEnd_ne_bracket (h : g.bracket? n = some t) : s.emitsAtEnd ≠ some t := by
  obtain ⟨mode, m⟩ := s
  cases g with
  | newline | quote | hash | backslash | plain => exact nomatch h
  | opening d | closing d =>
    obtain rfl := Option.some.inj h
    cases mode <;> simp [emitsAtEnd]

/-- **A bracket is found exactly in code**, outside strings and comments. -/
theorem bracket_mem_ofGlyphs_iff (h : g.bracket? n = some t) (gs : List Glyph) :
    t ∈ Token.ofGlyphs gs ↔ gs[n]? = some g ∧ (initial.nextAll (gs.take n)).mode = .code := by
  have hoffset {m : Nat} {g' : Glyph} (hg : gs[m]? = some g') :
      (initial.nextAll (gs.take m)).offset = m := by
    rw [offset_nextAll_initial, List.length_take_of_le]
    exact (List.getElem?_eq_some_iff.mp hg).1.le
  refine mem_tokensToEnd_iff.trans ((or_iff_left (emitsAtEnd_ne_bracket h)).trans ?_)
  rw [mem_tokens_iff]
  constructor
  · rintro ⟨m, g', hg, hemits⟩
    obtain ⟨hmode, rfl, hm⟩ := (emits_eq_bracket_iff h).mp hemits
    obtain rfl := (hoffset hg).symm.trans hm
    exact ⟨hg, hmode⟩
  · rintro ⟨hg, hmode⟩
    exact ⟨n, g, hg, (emits_eq_bracket_iff h).mpr ⟨hmode, rfl, hoffset hg⟩⟩

end Scanner

namespace Finding

variable {f g : Finding} {stack : Stack} {ts : List Token}

/-! ## Openers and closers -/

/-- The offset of the opener, if there is one. -/
def opened? : Finding → Option Nat
  | matched _ o _ => some o
  | mismatched _ o _ _ => some o
  | unclosed _ o => some o
  | unexpected _ _ => none
  | unterminated _ _ => none

/-- The offset of the closer, if there is one. -/
def closed? : Finding → Option Nat
  | matched _ _ c => some c
  | mismatched _ _ _ c => some c
  | unexpected _ c => some c
  | unclosed _ _ => none
  | unterminated _ _ => none

theorem opened?_close (o : Delimiter × Nat) (d : Delimiter) (n : Nat) :
    (close o d n).opened? = some o.2 := by
  rw [close]
  split <;> rfl

theorem closed?_close (o : Delimiter × Nat) (d : Delimiter) (n : Nat) :
    (close o d n).closed? = some n := by
  rw [close]
  split <;> rfl

theorem exists_opening_of_opened? {o : Nat} (h : f.opened? = some o) :
    ∃ d, .opening d o ∈ f.tokens := by
  cases f with
  | unexpected d c | unterminated first last => exact nomatch h
  | matched d o' c | mismatched d o' e c | unclosed d o' =>
    obtain rfl := Option.some.inj h
    exact ⟨d, List.mem_cons_self⟩

theorem exists_closing_of_closed? {c : Nat} (h : f.closed? = some c) :
    ∃ d, .closing d c ∈ f.tokens := by
  cases f with
  | unclosed d o | unterminated first last => exact nomatch h
  | unexpected d c' =>
    obtain rfl := Option.some.inj h
    exact ⟨d, List.mem_cons_self⟩
  | matched d o c' | mismatched _ o d c' =>
    obtain rfl := Option.some.inj h
    exact ⟨d, List.mem_cons_of_mem _ List.mem_cons_self⟩

/-- The tokens of a finding are open brackets and tokens to come. -/
theorem mem_of_mem_ofTokensFrom (hf : f ∈ ofTokensFrom stack ts) {t : Token} (ht : t ∈ f.tokens) :
    (∃ o ∈ stack, t = .opening o.1 o.2) ∨ t ∈ ts := by
  have hmem := (perm_tokens_ofTokensFrom stack ts).mem_iff.mp (List.mem_flatMap.mpr ⟨f, hf, ht⟩)
  rw [List.mem_append, List.mem_map] at hmem
  exact hmem.imp_left fun ⟨o, ho, heq⟩ => ⟨o, ho, heq.symm⟩

theorem opened?_cases (hf : f ∈ ofTokensFrom stack ts) {o : Nat} (h : f.opened? = some o) :
    (∃ p ∈ stack, p.2 = o) ∨ ∃ t ∈ ts, t.start = o := by
  obtain ⟨d, hd⟩ := exists_opening_of_opened? h
  rcases mem_of_mem_ofTokensFrom hf hd with ⟨p, hp, heq⟩ | hmem
  · exact Or.inl ⟨p, hp, (congrArg Token.start heq).symm⟩
  · exact Or.inr ⟨_, hmem, rfl⟩

theorem exists_of_closed? (hf : f ∈ ofTokensFrom stack ts) {c : Nat} (h : f.closed? = some c) :
    ∃ t ∈ ts, t.start = c := by
  obtain ⟨d, hd⟩ := exists_closing_of_closed? h
  rcases mem_of_mem_ofTokensFrom hf hd with ⟨p, hp, heq⟩ | hmem
  · exact nomatch heq
  · exact ⟨_, hmem, rfl⟩

/-! ## The stack and the tokens to come -/

/-- Brackets that are open, the innermost first, in front of tokens to come. -/
structure Ordered (stack : Stack) (ts : List Token) : Prop where
  opened : stack.Pairwise fun o p => p.2 < o.2
  found : ts.Pairwise fun t u => t.start < u.start
  before : ∀ o ∈ stack, ∀ t ∈ ts, o.2 < t.start

namespace Ordered

variable {t : Token} {o : Delimiter × Nat}

theorem start_lt (h : Ordered stack (t :: ts)) : ∀ u ∈ ts, t.start < u.start :=
  (List.pairwise_cons.mp h.found).1

theorem tail (h : Ordered stack (t :: ts)) : Ordered stack ts where
  opened := h.opened
  found := (List.pairwise_cons.mp h.found).2
  before o ho u hu := h.before o ho u (List.mem_cons_of_mem _ hu)

theorem outer (h : Ordered (o :: stack) ts) : Ordered stack ts where
  opened := (List.pairwise_cons.mp h.opened).2
  found := h.found
  before p hp := h.before p (List.mem_cons_of_mem _ hp)

/-- A bracket that is opened is the innermost one. -/
theorem push {d : Delimiter} {n : Nat} (h : Ordered stack (.opening d n :: ts)) :
    Ordered ((d, n) :: stack) ts where
  opened := List.pairwise_cons.mpr ⟨fun o ho => h.before o ho _ List.mem_cons_self, h.opened⟩
  found := h.tail.found
  before := List.forall_mem_cons.mpr ⟨h.start_lt, h.tail.before⟩

/-- Tokens of a text find no bracket open at its start. -/
theorem ofGlyphs (gs : List Glyph) : Ordered [] (Token.ofGlyphs gs) where
  opened := .nil
  found := (Scanner.pairwise_start_tokensToEnd Scanner.inside_initial gs).1
  before := List.forall_mem_nil _

end Ordered

/-! ## One finding after another -/

/-- What a finding has to do with one that comes later: it is closed first; the later one opens
behind it or around it; and if it is never closed, the later one is not either. -/
structure Precedes (f g : Finding) : Prop where
  closed : ∀ {c c'}, f.closed? = some c → g.closed? = some c' → c < c'
  opened : ∀ {c o'}, f.closed? = some c → g.opened? = some o' →
    c < o' ∨ ∃ o, f.opened? = some o ∧ o' < o
  unclosed : ∀ {o}, f.opened? = some o → f.closed? = none → g.closed? = none

/-- **A closer closes in front of all that is to come**, and inside all that stays open. -/
theorem precedes_of_mem {n : Nat} (hclosed : f.closed? = some n)
    (hstack : ∀ p ∈ stack, ∃ o, f.opened? = some o ∧ p.2 < o) (hts : ∀ t ∈ ts, n < t.start)
    (hg : g ∈ ofTokensFrom stack ts) : Precedes f g where
  closed hc hc' := by
    obtain ⟨t, ht, rfl⟩ := exists_of_closed? hg hc'
    obtain rfl := Option.some.inj (hclosed.symm.trans hc)
    exact hts t ht
  opened hc ho' := by
    obtain rfl := Option.some.inj (hclosed.symm.trans hc)
    rcases opened?_cases hg ho' with ⟨p, hp, rfl⟩ | ⟨t, ht, rfl⟩
    · exact Or.inr (hstack p hp)
    · exact Or.inl (hts t ht)
  unclosed _ hnone := nomatch hclosed.symm.trans hnone

theorem precedes_unclosed (d e : Delimiter) (m n : Nat) :
    Precedes (.unclosed d m) (.unclosed e n) :=
  ⟨nofun, nofun, fun _ _ => rfl⟩

theorem precedes_of_unterminated (first last : Nat) (g : Finding) :
    Precedes (.unterminated first last) g :=
  ⟨nofun, nofun, nofun⟩

/-- **Findings precede each other as they come.** -/
theorem pairwise_precedes_ofTokensFrom (h : Ordered stack ts) :
    (ofTokensFrom stack ts).Pairwise Precedes := by
  fun_induction ofTokensFrom stack ts with
  | case1 stack =>
    exact List.pairwise_map.mpr (h.opened.imp fun _ => precedes_unclosed _ _ _ _)
  | case2 stack d n ts ih => exact ih h.push
  | case3 o stack d n ts ih =>
    have houter : ∀ p ∈ stack, ∃ m, (close o d n).opened? = some m ∧ p.2 < m :=
      fun p hp => ⟨o.2, opened?_close o d n, (List.pairwise_cons.mp h.opened).1 p hp⟩
    refine List.pairwise_cons.mpr ⟨fun g hg => ?_, ih h.outer.tail⟩
    exact precedes_of_mem (closed?_close o d n) houter h.start_lt hg
  | case4 d n ts ih =>
    refine List.pairwise_cons.mpr ⟨fun g hg => ?_, ih h.tail⟩
    exact precedes_of_mem rfl (List.forall_mem_nil _) h.start_lt hg
  | case5 stack first last ts ih =>
    exact List.pairwise_cons.mpr ⟨fun g _ => precedes_of_unterminated first last g, ih h.tail⟩

/-! ## Pairs -/

/-- Two brackets that go together, the opener in front; if they do not fit, they are of different
kinds. -/
def Proper : Finding → Prop
  | matched _ o c => o < c
  | mismatched opener o closer c => o < c ∧ opener ≠ closer
  | unexpected _ _ | unclosed _ _ | unterminated _ _ => True

theorem proper_close {o : Delimiter × Nat} {n : Nat} (h : o.2 < n) (d : Delimiter) :
    (close o d n).Proper := by
  rw [close]
  split
  next => exact h
  next hne => exact ⟨h, hne⟩

theorem proper_of_mem_ofTokensFrom (h : Ordered stack ts) :
    ∀ f ∈ ofTokensFrom stack ts, f.Proper := by
  fun_induction ofTokensFrom stack ts with
  | case1 stack => exact List.forall_mem_map.mpr fun _ _ => trivial
  | case2 stack d n ts ih => exact ih h.push
  | case3 o stack d n ts ih =>
    have hopen : o.2 < n := h.before o List.mem_cons_self _ List.mem_cons_self
    exact List.forall_mem_cons.mpr ⟨proper_close hopen d, ih h.outer.tail⟩
  | case4 d n ts ih => exact List.forall_mem_cons.mpr ⟨trivial, ih h.tail⟩
  | case5 stack first last ts ih => exact List.forall_mem_cons.mpr ⟨trivial, ih h.tail⟩

/-- Brackets that go together, at their offsets. -/
def Spans (f : Finding) (o c : Nat) : Prop := f.opened? = some o ∧ f.closed? = some c

/-- **Findings that share out their text**: pairs of brackets enclose each other or stand apart,
brackets that stay alone are outside of all pairs, and closers that stay alone come before openers
that do. -/
structure Nested (fs : List Finding) : Prop where
  pairs : ∀ f ∈ fs, ∀ g ∈ fs, f ≠ g → ∀ o c o' c', f.Spans o c → g.Spans o' c' →
    c < o' ∨ c' < o ∨ (o < o' ∧ c' < c) ∨ (o' < o ∧ c < c')
  unclosed : ∀ f ∈ fs, ∀ o c, f.Spans o c → ∀ d u, .unclosed d u ∈ fs → u < o ∨ c < u
  unexpected : ∀ f ∈ fs, ∀ o c, f.Spans o c → ∀ d x, .unexpected d x ∈ fs → x < o ∨ c < x
  alone : ∀ d x, .unexpected d x ∈ fs → ∀ e u, .unclosed e u ∈ fs → x < u

/-- **Findings that precede each other share out their text.** -/
theorem nested_of_pairwise {fs : List Finding} (h : fs.Pairwise Precedes) : Nested fs := by
  have hpairwise : fs.Pairwise fun f g => Precedes f g ∨ Precedes g f := h.imp Or.inl
  have : Std.Symm fun f g => Precedes f g ∨ Precedes g f := ⟨fun _ _ => Or.symm⟩
  have hcases : ∀ f ∈ fs, ∀ g ∈ fs, f ≠ g → Precedes f g ∨ Precedes g f :=
    fun f hf g hg hne => hpairwise.forall hf hg hne
  constructor
  case pairs =>
    rintro f hf g hg hne o c o' c' ⟨ho, hc⟩ ⟨ho', hc'⟩
    rcases hcases f hf g hg hne with hfg | hgf
    · have hlt := hfg.closed hc hc'
      rcases hfg.opened hc ho' with hapart | ⟨m, hm, hinside⟩
      · exact Or.inl hapart
      · obtain rfl := Option.some.inj (ho.symm.trans hm)
        exact Or.inr (Or.inr (Or.inr ⟨hinside, hlt⟩))
    · have hlt := hgf.closed hc' hc
      rcases hgf.opened hc' ho with hapart | ⟨m, hm, hinside⟩
      · exact Or.inr (Or.inl hapart)
      · obtain rfl := Option.some.inj (ho'.symm.trans hm)
        exact Or.inr (Or.inr (Or.inl ⟨hinside, hlt⟩))
  case unclosed =>
    rintro f hf o c ⟨ho, hc⟩ d u hu
    have hne : f ≠ .unclosed d u := by
      rintro rfl
      exact nomatch hc
    rcases hcases f hf _ hu hne with hfg | hgf
    · rcases hfg.opened hc rfl with hbehind | ⟨m, hm, hout⟩
      · exact Or.inr hbehind
      · obtain rfl := Option.some.inj (ho.symm.trans hm)
        exact Or.inl hout
    · exact nomatch hc.symm.trans (hgf.unclosed rfl rfl)
  case unexpected =>
    rintro f hf o c ⟨ho, hc⟩ d x hx
    have hne : f ≠ .unexpected d x := by
      rintro rfl
      exact nomatch ho
    rcases hcases f hf _ hx hne with hfg | hgf
    · exact Or.inr (hfg.closed hc rfl)
    · exact Or.inl ((hgf.opened rfl ho).resolve_right fun ⟨m, hm, _⟩ => nomatch hm)
  case alone =>
    intro d x hx e u hu
    rcases hcases _ hx _ hu nofun with hfg | hgf
    · exact (hfg.opened rfl rfl).resolve_right fun ⟨m, hm, _⟩ => nomatch hm
    · exact nomatch hgf.unclosed rfl rfl

end Finding

/-! ## Reports on brackets -/

/-- A report that starts at an offset. -/
def SyntaxReport.startsAt (n : Nat) (r : SyntaxReport) : Bool := r.first = n

/-- The reports that start at an offset. -/
def Parse.reportsAt (p : Parse) (n : Nat) : List SyntaxReport :=
  p.reports.filter (SyntaxReport.startsAt n)

/-- A finding and nothing else is reported at its tokens: nothing about brackets that fit; of two
that do not, the closer, with the one that the opener asks for; and a bracket or a string that stays
alone. -/
def Finding.ReportedIn (p : Parse) : Finding → Prop
  | matched _ o c => p.reportsAt o = [] ∧ p.reportsAt c = []
  | mismatched opener o closer c =>
    p.reportsAt o = [] ∧
      p.reportsAt c = [⟨c, c, .error,
        "mismatched delimiter " ++ shown closer.closing ++ ", expected " ++ shown opener.closing⟩]
  | unexpected closer c =>
    p.reportsAt c = [⟨c, c, .error, "unexpected closing delimiter " ++ shown closer.closing⟩]
  | unclosed opener o =>
    p.reportsAt o = [⟨o, o, .error, "unclosed delimiter " ++ shown opener.opening⟩]
  | unterminated first last =>
    p.reportsAt first = [⟨first, last, .error, "unterminated string literal"⟩]

namespace Parse

variable {s : Source} {f : Finding} {n : Nat}

theorem filter_report?_eq_none (h : n ∉ f.starts) :
    (report? f).filter (SyntaxReport.startsAt n) = none := by
  rw [Option.filter_eq_none_iff]
  intro r hr hstart
  have hfirst : r.first ∈ f.starts.map Int.ofNat := by
    refine (first_report?_sublist f).subset ?_
    rw [hr]
    exact List.mem_singleton_self _
  obtain ⟨m, hm, heq⟩ := List.mem_map.mp hfirst
  obtain rfl := Int.ofNat.inj (heq.trans (of_decide_eq_true hstart))
  exact h hm

/-- **What is reported at a token is what its finding says.** -/
theorem reportsAt_of_mem (hf : f ∈ findings (glyphs s)) (hn : n ∈ f.starts) :
    (ofSource s).reportsAt n = ((report? f).filter (SyntaxReport.startsAt n)).toList := by
  obtain ⟨as, bs, hfs⟩ := List.append_of_mem hf
  have hnodup := nodup_starts_findings (glyphs s)
  rw [hfs, List.flatMap_append, List.flatMap_cons, List.nodup_append] at hnodup
  obtain ⟨-, hbehind, hfront⟩ := hnodup
  have hnone {gs : List Finding} (h : ∀ g ∈ gs, n ∉ g.starts) :
      gs.filterMap (fun g => (report? g).filter (SyntaxReport.startsAt n)) = [] :=
    List.filterMap_eq_nil_iff.mpr fun g hg => filter_report?_eq_none (h g hg)
  have has : ∀ g ∈ as, n ∉ g.starts := fun g hg hmem =>
    hfront n (List.mem_flatMap_of_mem hg hmem) n (List.mem_append_left _ hn) rfl
  have hbs : ∀ g ∈ bs, n ∉ g.starts := fun g hg hmem =>
    (List.nodup_append.mp hbehind).2.2 n hn n (List.mem_flatMap_of_mem hg hmem) rfl
  have hperm : ((ofSource s).reportsAt n).Perm
      ((report? f).filter (SyntaxReport.startsAt n)).toList := by
    refine ((List.mergeSort_perm _ _).filter _).trans ?_
    rw [List.filter_filterMap, hfs, List.filterMap_append, hnone has, List.nil_append,
      List.filterMap_cons, hnone hbs]
    exact List.Perm.refl _
  cases h : (report? f).filter (SyntaxReport.startsAt n) with
  | none =>
    rw [h] at hperm
    exact hperm.eq_nil
  | some r =>
    rw [h] at hperm
    exact List.perm_singleton.mp hperm

/-- **Every finding is reported as it should be.** -/
theorem reportedIn_of_mem (hf : f ∈ findings (glyphs s)) : f.ReportedIn (ofSource s) := by
  have hproper := Finding.proper_of_mem_ofTokensFrom (Finding.Ordered.ofGlyphs (glyphs s)) f hf
  have hat {n : Nat} := reportsAt_of_mem (n := n) hf
  cases f with
  | matched d o c => exact ⟨hat (.head _), hat (.tail _ (.head _))⟩
  | mismatched opener o closer c =>
    have hlt : o < c := hproper.1
    have hne : (c : ℤ) ≠ o := by omega
    refine ⟨(hat (.head _)).trans ?_, (hat (.tail _ (.head _))).trans ?_⟩
    · simp [report?, Finding.fault?, SyntaxReport.startsAt, hne]
    · simp [report?, Finding.fault?, SyntaxReport.startsAt]
  | unexpected closer c =>
    refine (hat (.head _)).trans ?_
    simp [report?, Finding.fault?, SyntaxReport.startsAt]
  | unclosed opener o =>
    refine (hat (.head _)).trans ?_
    simp [report?, Finding.fault?, SyntaxReport.startsAt]
  | unterminated first last =>
    refine (hat (.head _)).trans ?_
    simp [report?, Finding.fault?, SyntaxReport.startsAt]

/-- **Every bracket has one fate.**  Brackets are found where a text has them outside strings and
comments; they are shared out, each to one finding; and every finding is reported as it should be,
with nothing else reported.  Pairs of brackets, fitting or not, enclose each other or stand apart,
the brackets that stay alone are outside of all pairs, and the closers among them come first. -/
theorem nested_findings (s : Source) :
    (∀ d n,
      (.opening d n ∈ Token.ofGlyphs (glyphs s) ↔
        s.bytes[n]? = some d.opening.toUInt8 ∧
          (Scanner.initial.nextAll ((glyphs s).take n)).mode = .code) ∧
      (.closing d n ∈ Token.ofGlyphs (glyphs s) ↔
        s.bytes[n]? = some d.closing.toUInt8 ∧
          (Scanner.initial.nextAll ((glyphs s).take n)).mode = .code)) ∧
    ((findings (glyphs s)).flatMap Finding.tokens).Perm (Token.ofGlyphs (glyphs s)) ∧
    ((findings (glyphs s)).flatMap Finding.starts).Nodup ∧
    (∀ f ∈ findings (glyphs s), f.Proper ∧ f.ReportedIn (ofSource s)) ∧
    (∀ r ∈ (ofSource s).reports, ∃ f ∈ findings (glyphs s), report? f = some r) ∧
    Finding.Nested (findings (glyphs s)) := by
  have hordered := Finding.Ordered.ofGlyphs (glyphs s)
  refine ⟨fun d n => ⟨?_, ?_⟩, Finding.perm_tokens_ofTokens _, nodup_starts_findings _,
    fun f hf => ⟨Finding.proper_of_mem_ofTokensFrom hordered f hf, reportedIn_of_mem hf⟩,
    fun r hr => List.mem_filterMap.mp (List.mem_mergeSort.mp hr),
    Finding.nested_of_pairwise (Finding.pairwise_precedes_ofTokensFrom hordered)⟩
  · rw [Scanner.bracket_mem_ofGlyphs_iff (g := .opening d) rfl, Source.getElem?_glyphs_eq_iff rfl]
  · rw [Scanner.bracket_mem_ofGlyphs_iff (g := .closing d) rfl, Source.getElem?_glyphs_eq_iff rfl]

/-- A closer alone, a pair that does not fit around one that does and one that does not, and two
openers alone. -/
def tangled : Source := ⟨")[()(])(\x7b", none⟩

theorem nested_findings_tangled :
    findings (glyphs tangled)
        = [.unexpected .round 0, .matched .round 2 3, .mismatched .round 4 .square 5,
            .mismatched .square 1 .round 6, .unclosed .curly 8, .unclosed .round 7] ∧
      (ofSource tangled).reportsAt 4 = [] ∧
      (ofSource tangled).reportsAt 5
        = [⟨5, 5, .error, "mismatched delimiter ']', expected ')'"⟩] ∧
      (∃ f ∈ findings (glyphs tangled),
        report? f = some ⟨0, 0, .error, "unexpected closing delimiter ')'"⟩) ∧
      (3 < 1 ∨ 6 < 2 ∨ (2 < 1 ∧ 6 < 3) ∨ (1 < 2 ∧ 3 < 6)) ∧
      (7 < 1 ∨ 6 < 7) ∧ (0 < 1 ∨ 6 < 0) ∧ 0 < 7 := by
  obtain ⟨-, -, -, hreported, hreports, hnested⟩ := nested_findings tangled
  have hfindings : findings (glyphs tangled)
      = [.unexpected .round 0, .matched .round 2 3, .mismatched .round 4 .square 5,
          .mismatched .square 1 .round 6, .unclosed .curly 8, .unclosed .round 7] := by
    decide +kernel
  have hmem : ∀ f ∈ [Finding.unexpected .round 0, .matched .round 2 3,
      .mismatched .round 4 .square 5, .mismatched .square 1 .round 6, .unclosed .curly 8,
      .unclosed .round 7], f ∈ findings (glyphs tangled) := by
    rw [hfindings]
    exact fun _ => id
  have hinner := hmem (.matched .round 2 3) (by decide)
  have houter := hmem (.mismatched .square 1 .round 6) (by decide)
  have hcloser := hmem (.unexpected .round 0) (by decide)
  have hopener := hmem (.unclosed .round 7) (by decide)
  obtain ⟨-, hopened, hclosed⟩ := hreported (.mismatched .round 4 .square 5) (hmem _ (by decide))
  have hreport : ⟨0, 0, .error, "unexpected closing delimiter ')'"⟩ ∈ (ofSource tangled).reports :=
    List.mem_mergeSort.mpr (List.mem_filterMap.mpr ⟨_, hcloser, rfl⟩)
  exact ⟨hfindings, hopened, hclosed, hreports _ hreport,
    hnested.pairs _ hinner _ houter nofun 2 3 1 6 ⟨rfl, rfl⟩ ⟨rfl, rfl⟩,
    hnested.unclosed _ houter 1 6 ⟨rfl, rfl⟩ _ 7 hopener,
    hnested.unexpected _ houter 1 6 ⟨rfl, rfl⟩ _ 0 hcloser,
    hnested.alone _ 0 hcloser _ 7 hopener⟩

end Parse

end StagedDiagnostics
