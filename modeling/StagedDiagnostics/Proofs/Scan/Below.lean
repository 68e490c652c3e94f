import StagedDiagnostics.Proofs.Scan.Lines

/-!
# Proofs/Scan/Below — below a text without a fault

    reports of t ──────toDiagnostic──────▸ diagnostics of t
         │ shift (s.size + 1)                   │ down s.lineCount
         ▾                                      ▾
    reports of s above t ──toDiagnostic──▸ diagnostics of s above t

A text about which nothing is reported leaves no string and no bracket open.  So the scanner starts
anew below it, and matches brackets with an empty stack (`Finding.ofTokensFrom_append`): what it
finds there is what it finds in the text below alone, moved on by what stands above.  A cursor goes
down by the lines above (`Cursor.passAll_down`), and its column is counted from the last newline, so
it stays (`Source.shown_above`).
-/

namespace StagedDiagnostics

/-! ## Brackets below brackets that fit -/

namespace Finding

/-- **Behind brackets that all fit nothing is open.** -/
theorem ofTokensFrom_append {stack : Stack} {ts : List Token} (h : Faultless stack ts)
    (us : List Token) :
    ofTokensFrom stack (ts ++ us) = ofTokensFrom stack ts ++ ofTokens us := by
  unfold Faultless at h
  fun_induction ofTokensFrom stack ts with
  | case1 stack =>
    obtain rfl : stack = [] := faultless_nil_iff.mp h
    rfl
  | case2 stack d n ts ih => exact ih h
  | case3 o stack d n ts ih => exact congrArg (List.cons _) (ih (List.forall_mem_cons.mp h).2)
  | case4 d n ts ih => exact congrArg (List.cons _) (ih (List.forall_mem_cons.mp h).2)
  | case5 stack first last ts ih => cases (List.forall_mem_cons.mp h).1

end Finding

/-! ## Lines below lines -/

/-- A cursor some lines further down. -/
def Cursor.down (k : Nat) (c : Cursor) : Cursor := ⟨c.line + k, c.column⟩

/-- A position some lines further down. -/
def Position.down (k : Nat) (p : Position) : Position := ⟨p.line + k, p.character⟩

/-- A range some lines further down. -/
def Range.down (k : Nat) (r : Range) : Range := ⟨r.start.down k, r.stop.down k⟩

/-- A diagnostic some lines further down. -/
def Diagnostic.down (k : Nat) (d : Diagnostic) : Diagnostic := { d with range := d.range.down k }

theorem Cursor.passAll_down (k : Nat) (c : Cursor) (bs : List UInt8) :
    (c.down k).passAll bs = (c.passAll bs).down k := by
  induction bs generalizing c with
  | nil => rfl
  | cons b bs ih =>
    have hpass : (c.down k).pass b = (c.pass b).down k := by
      rw [pass, pass]
      split_ifs
      · exact congrArg (Cursor.mk · 1) (Nat.add_right_comm c.line k 1)
      · rfl
      · rfl
    rw [passAll_cons, passAll_cons, hpass, ih]

namespace Source

variable {s t : Source}

/-- The lines of a text and a newline lead to the first column below them. -/
theorem passAll_newline (s : Source) :
    Cursor.origin.passAll (s.bytes ++ ['\n'.toUInt8]) = Cursor.origin.down s.lineCount := by
  rw [Cursor.passAll_append, Cursor.origin_passAll]
  exact congrArg (Cursor.mk · 1) (Nat.add_assoc 1 _ 1)

/-- **Below a text the lines count on**, and the columns start anew. -/
theorem cursor_above (s t : Source) (n : Nat) :
    (s.above t).cursor (n + (s.size + 1)) = (t.cursor n).down s.lineCount := by
  have hlength : (s.bytes ++ ['\n'.toUInt8]).length = s.size + 1 := List.length_append
  have hbytes : (s.above t).bytes = (s.bytes ++ ['\n'.toUInt8]) ++ t.bytes := by
    rw [bytes_above, List.append_assoc, List.singleton_append]
  rw [cursor, hbytes, Nat.add_comm, ← hlength, List.take_length_add_append, Cursor.passAll_append,
    passAll_newline, Cursor.passAll_down, cursor]

/-- **Below a text every offset is shown as many lines further down as the text has.** -/
theorem shown_above {offset : ℤ} (h : 0 ≤ offset) :
    (s.above t).shown (offset + (s.size + 1 : Nat)) = (t.shown offset).down s.lineCount := by
  have hclamp : (s.above t).clamp (offset + (s.size + 1 : Nat)) = t.clamp offset + (s.size + 1) := by
    rw [clamp, clamp, size_above]
    omega
  have hcursor := s.cursor_above t (t.clamp offset)
  rw [← hclamp] at hcursor
  have hline : ((s.above t).locate (offset + (s.size + 1 : Nat))).line
      = (t.locate offset).line + s.lineCount := congrArg Cursor.line hcursor
  have hcolumn : ((s.above t).locate (offset + (s.size + 1 : Nat))).column
      = (t.locate offset).column := (congrArg Cursor.column hcursor :)
  rw [shown, hline, hcolumn, Nat.sub_add_comm (t.line_locate offset).1]
  rfl

end Source

/-! ## Reports below a text without a fault -/

/-- Below a text a report is shown as many lines further down as the text has. -/
theorem SyntaxReport.shown_shift {r : SyntaxReport} (s t : Source) (hfirst : 0 ≤ r.first)
    (hlast : 0 ≤ r.last) :
    (r.shift (s.size + 1)).shown (s.above t) = (r.shown t).down s.lineCount := by
  rw [shown, shift, Source.shown_above hfirst, Source.shown_above hlast]
  rfl

namespace Parse

variable {s : Source}

theorem not_endsInEscape_of_reports_eq_nil (h : (ofSource s).reports = []) : ¬ s.EndsInEscape := by
  rintro ⟨⟨first, hmem⟩, -⟩
  have hreport := mem_openStrings_iff.mpr ⟨first, _, hmem, rfl⟩
  rw [openStrings, h] at hreport
  exact nomatch hreport

theorem reportsOfTokens_append {ts : List Token} (h : Finding.Faultless [] ts) (us : List Token) :
    reportsOfTokens (ts ++ us) = reportsOfTokens us := by
  have hnone : (Finding.ofTokensFrom [] ts).filterMap report? = [] := by
    rw [List.filterMap_eq_nil_iff]
    intro f hf
    rw [report?, h f hf, Option.map_none]
  rw [reportsOfTokens, Finding.ofTokens, Finding.ofTokensFrom_append h, List.filterMap_append,
    hnone, List.nil_append, reportsOfTokens]

/-- Further on in a text the same is reported. -/
theorem reportsOfTokens_shift (gs : List Glyph) (d : Nat) :
    reportsOfTokens ((Token.ofGlyphs gs).map (Token.shift d))
      = (reportsOf gs).map (SyntaxReport.shift d) := by
  have hlocated : ∀ t ∈ Token.ofGlyphs gs,
      t.Located (fun n => n < gs.length ∧ n + 1 + d = n + d + 1) fun first _ => first < gs.length :=
    fun t ht => (Token.located_ofGlyphs gs t ht).imp
      (fun n hn => ⟨hn, Nat.add_right_comm n 1 d⟩) fun first last h => h.1.trans_lt h.2
  rw [Token.shift_eq_relocate, reportsOfTokens_relocate hlocated
    fun m _ n _ => Nat.add_le_add_iff_right, ← reportsOf_eq]
  refine List.map_congr_left fun r hr => ?_
  obtain ⟨hfirst, hle, -⟩ := bounds_of_mem_reportsOf hr
  have hstop : ((r.last.toNat + 1 + d - 1 : Nat) : ℤ) = r.last + d := by omega
  have hstart : ((r.first.toNat + d : Nat) : ℤ) = r.first + d := by omega
  rw [SyntaxReport.relocate, SyntaxReport.shift, hstop, hstart]

/-- **Below a text without a fault everything is reported as it is alone, further on.**  All offsets
grow by the bytes above, the newline included.  Where the whole text is not too long for a client,
the diagnostics are those of the text below, as many lines further down as the text above has, with
their characters unchanged. -/
theorem reports_above (s t : Source) (h : (ofSource s).reports = []) :
    (ofSource (s.above t)).reports
        = (ofSource t).reports.map (SyntaxReport.shift (s.size + 1)) ∧
      (s.size + t.size + 1 < Position.limit → ∃ ds,
        (ofSource t).diagnostics = .ok ds ∧
        (ofSource (s.above t)).diagnostics = .ok (ds.map (Diagnostic.down s.lineCount))) := by
  have hfaultless : Finding.Faultless [] (Token.ofGlyphs (glyphs s)) :=
    (reportsOf_eq_nil_iff (glyphs s)).mp h
  have hreports : (ofSource (s.above t)).reports
      = (ofSource t).reports.map (SyntaxReport.shift (s.size + 1)) := by
    change reportsOf (glyphs (s.above t)) = _
    rw [reportsOf_eq, ofGlyphs_above (not_endsInEscape_of_reports_eq_nil h) t,
      reportsOfTokens_append hfaultless, reportsOfTokens_shift]
    rfl
  refine ⟨hreports, fun hlimit => ?_⟩
  have hsize : t.size < Position.limit := by omega
  have hsizes : (s.above t).size < Position.limit := by
    rw [Source.size_above]
    omega
  refine ⟨_, diagnostics_eq (p := ofSource t) hsize, ?_⟩
  rw [diagnostics_eq (p := ofSource (s.above t)) hsizes, hreports, List.map_map, List.map_map]
  refine congrArg Except.ok ?_
  refine List.map_congr_left fun r hr => ?_
  obtain ⟨hfirst, hle, -⟩ := bounds_of_mem_reportsOf hr
  exact SyntaxReport.shown_shift s t hfirst (hfirst.trans hle)

/-- Two lines without a fault, with brackets in a string and in a comment. -/
def balanced : Source := ⟨"f(\n\"]\\\"\") # é (", none⟩

/-- A bracket that closes nothing, and a string left open behind a character of two bytes. -/
def unbalanced : Source := ⟨")é\"é", none⟩

theorem reports_above_balanced :
    (ofSource balanced).reports = [] ∧
      balanced.size + unbalanced.size + 1 < Position.limit ∧
      (ofSource unbalanced).reports.map (fun r => (r.first, r.last)) = [(0, 0), (3, 5)] ∧
      (ofSource (balanced.above unbalanced)).reports.map (fun r => (r.first, r.last))
        = [(17, 17), (20, 22)] ∧
      ∃ ds, (ofSource unbalanced).diagnostics = .ok ds ∧
        (ofSource (balanced.above unbalanced)).diagnostics = .ok (ds.map (Diagnostic.down 2)) := by
  have hclean : (ofSource balanced).reports = [] :=
    (reportsOf_eq_nil_iff (glyphs balanced)).mpr (by decide +kernel)
  have hsize : balanced.size + unbalanced.size + 1 < Position.limit := by decide +kernel
  obtain ⟨hreports, hdiagnostics⟩ := reports_above balanced unbalanced hclean
  have hoffsets : (ofSource unbalanced).reports.map (fun r => (r.first, r.last))
      = [(0, 0), (3, 5)] := by
    have hsorted : ((findings (glyphs unbalanced)).filterMap report?).Pairwise
        fun a b => decide (a.first ≤ b.first) = true := by
      decide +kernel
    rw [ofSource, reportsOf, List.mergeSort_of_pairwise hsorted]
    decide +kernel
  refine ⟨hclean, hsize, hoffsets, ?_, hdiagnostics hsize⟩
  have hshift : (fun r => (r.first, r.last)) ∘ SyntaxReport.shift (balanced.size + 1)
      = Prod.map (· + 17) (· + 17) ∘ fun r => (r.first, r.last) := rfl
  rw [hreports, List.map_map, hshift, ← List.map_map, hoffsets]
  rfl

end Parse

end StagedDiagnostics
