import StagedDiagnostics.Proofs.Scan.Order

/-!
# Proofs/Source/Inside — offsets inside a character

    (  é        😀                   characters
    1  2   3    3   4   4   4        columns of their bytes

The first byte of a character has the column of the character.  Any other byte of it is located with
the character cut in front of it, and a character that is cut has been started, so it counts: such a
byte is located one column further on (`Source.Covers.locate_eq`).  Every report of the scanner ends
with the last byte of a character (`Source.last_eq_of_mem_reports`); its diagnostic stops at the
column of that character if this is a single byte, and one further on if it takes more.
-/

namespace StagedDiagnostics.Source

variable {s : Source} {k n : ℕ} {c : Char}

/-! ## The character of a byte -/

/-- The bytes of a character: an offset is one of them from where the character starts to where the
next one does. -/
def Covers (s : Source) (k n : ℕ) : Prop :=
  k < s.text.toList.length ∧ s.boundary k ≤ n ∧ n < s.boundary (k + 1)

instance : Decidable (s.Covers k n) := inferInstanceAs (Decidable (_ ∧ _ ∧ _))

/-- The line and the column of a character, by the line feeds in front of it and the characters
since the last one. -/
def charCursor (s : Source) (k : ℕ) : Cursor :=
  ⟨1 + (s.text.toList.take k).count '\n',
    1 + ((s.text.toList.take k).rtakeWhile (· ≠ '\n')).length⟩

theorem boundary_length (s : Source) : s.boundary s.text.toList.length = s.size := by
  rw [boundary, List.take_length, size, bytes]

theorem exists_covers {m : ℕ} (hm : m ≤ s.text.toList.length) (hn : n < s.boundary m) :
    ∃ k, s.Covers k n := by
  induction m with
  | zero => exact nomatch hn
  | succ m ih =>
    rcases Nat.lt_or_ge n (s.boundary m) with hlt | hge
    · exact ih (Nat.le_of_succ_le hm) hlt
    · exact ⟨m, hm, hge, hn⟩

theorem Covers.le {j : ℕ} (hk : s.Covers k n) (hj : s.Covers j n) : k ≤ j := by
  have hlt : s.boundary k < s.boundary (j + 1) := hk.2.1.trans_lt hj.2.2
  by_contra hjk
  exact absurd ((boundary_le_boundary_iff hj.1 hk.1.le).mpr (by omega)) (Nat.not_le.mpr hlt)

/-- **Every byte of the text belongs to one character.** -/
theorem existsUnique_covers (hn : n < s.size) : ∃! k, s.Covers k n := by
  obtain ⟨k, hk⟩ := exists_covers le_rfl (s.boundary_length ▸ hn)
  exact ⟨k, hk, fun j hj => (hj.le hk).antisymm (hk.le hj)⟩

theorem Covers.lt_size (h : s.Covers k n) : n < s.size :=
  h.2.2.trans_le (s.boundary_le_size (k + 1))

/-- A character of more than one byte is no line feed. -/
theorem Covers.ne_feed (h : s.Covers k n) (hn : n ≠ s.boundary k)
    (hc : s.text.toList[k]? = some c) : c ≠ '\n' := by
  rintro rfl
  have hend := h.2.2
  rw [boundary_succ hc] at hend
  have hlength : (String.utf8EncodeChar '\n').length = 1 := by decide
  have hstart := h.2.1
  omega

/-! ## The location of a byte -/

/-- A character is where the characters in front of it lead. -/
theorem cursor_boundary_eq (s : Source) (k : ℕ) : s.cursor (s.boundary k) = s.charCursor k := by
  rw [cursor_boundary, Cursor.origin_passChars, charCursor]

/-- **The first byte of a character leads over all of it.** -/
theorem Covers.cursor_eq (h : s.Covers k n) (hn : n ≠ s.boundary k)
    (hc : s.text.toList[k]? = some c) : s.cursor n = (s.charCursor k).passChar c := by
  obtain ⟨hk, hstart, hend⟩ := h
  obtain ⟨m, rfl⟩ := Nat.exists_eq_add_of_le hstart
  have hdrop : s.text.toList.drop k = c :: s.text.toList.drop (k + 1) := by
    obtain ⟨_, rfl⟩ := List.getElem?_eq_some_iff.mp hc
    exact List.drop_eq_getElem_cons hk
  have hm : m ≤ (String.utf8EncodeChar c).length := by
    rw [boundary_succ hc] at hend
    omega
  have hbytes : s.bytes.take (s.boundary k + m)
      = Utf8.encode (s.text.toList.take k) ++ (String.utf8EncodeChar c).take m := by
    rw [s.bytes_eq k, boundary, List.take_length_add_append, hdrop, Utf8.encode_cons,
      List.take_append_of_le_length hm]
  have hne : (String.utf8EncodeChar c).take m ≠ [] := by
    rw [Ne, List.take_eq_nil_iff, not_or]
    exact ⟨fun h => hn (by rw [h, Nat.add_zero]), String.utf8EncodeChar_ne_nil⟩
  rw [cursor, hbytes, Cursor.passAll_append, Cursor.passAll_encode, Cursor.origin_passChars,
    Cursor.passAll_of_prefix_utf8EncodeChar (List.take_prefix _ _) hne, charCursor]

/-- **A byte of a character is located on the line of the character**: the first one at its column,
and the others one column further on. -/
theorem Covers.locate_eq (h : s.Covers k n) :
    (s.locate n).line = (s.charCursor k).line ∧
      (s.locate n).column = (s.charCursor k).column + if n = s.boundary k then 0 else 1 := by
  rw [locate, clamp_ofNat h.lt_size.le]
  split_ifs with hn
  · rw [hn, cursor_boundary_eq]
    exact ⟨rfl, rfl⟩
  · have hc := List.getElem?_eq_getElem h.1
    rw [h.cursor_eq hn hc, Cursor.passChar, if_neg (h.ne_feed hn hc)]
    exact ⟨rfl, rfl⟩

/-- The last byte of a character. -/
theorem covers_last (hc : s.text.toList[k]? = some c) : s.Covers k (s.boundary (k + 1) - 1) := by
  obtain ⟨hk, -⟩ := List.getElem?_eq_some_iff.mp hc
  have hlt := boundary_lt_boundary (Nat.lt_add_one k) hk
  exact ⟨hk, by omega, by omega⟩

theorem last_eq_boundary_iff (hc : s.text.toList[k]? = some c) :
    s.boundary (k + 1) - 1 = s.boundary k ↔ (String.utf8EncodeChar c).length = 1 := by
  rw [boundary_succ hc]
  have hpos := List.length_pos_iff.mpr (String.utf8EncodeChar_ne_nil (c := c))
  omega

/-- **A report stops at the last byte of a character**: that of the bracket, or that of the last
character of a string that is left open. -/
theorem last_eq_of_mem_reports {r : SyntaxReport} (hr : r ∈ (Parse.ofSource s).reports) :
    ∃ k c, s.text.toList[k]? = some c ∧ r.last = (s.boundary (k + 1) : ℤ) - 1 := by
  have htokens : ∀ t ∈ Token.ofGlyphs (Parse.glyphs s),
      t.Located (fun n => ∃ k < s.text.toList.length, n + 1 = s.boundary (k + 1))
        fun _ last => ∃ k < s.text.toList.length, last + 1 = s.boundary (k + 1) := by
    rw [Parse.ofGlyphs_glyphs]
    refine List.forall_mem_map.mpr fun t ht => ?_
    have hbracket := Parse.located_ofGlyphs_charGlyphs s t ht
    have hinside := Token.located_ofGlyphs _ t ht
    rw [Parse.charGlyphs, List.length_map] at hinside
    cases t with
    | opening d n => exact ⟨n, hbracket.1, hbracket.2.symm⟩
    | closing d n => exact ⟨n, hbracket.1, hbracket.2.symm⟩
    | unterminated first last =>
      have hlt := boundary_lt_boundary (Nat.lt_add_one last) hinside.2
      exact ⟨last, hinside.2, Nat.sub_add_cancel (Nat.one_le_of_lt hlt)⟩
  obtain ⟨first, last, -, hlast, h⟩ := Parse.exists_offsets_of_mem_reportsOfTokens htokens hr
  obtain ⟨k, hk, hend⟩ : ∃ k < s.text.toList.length, last + 1 = s.boundary (k + 1) := by
    rcases h with ⟨rfl, h⟩ | h
    · exact h
    · exact h
  exact ⟨k, _, List.getElem?_eq_getElem hk, by omega⟩

/-- **Every byte belongs to one character, and is located at it or right behind it.**  The first byte
of a character is at the column of the character, and the others are one column further on.  So a
diagnostic whose last byte is the last one of a character, as that of every report of the scanner
is, stops at the column of the character exactly if this is a single byte. -/
theorem locate_inside (s : Source) :
    (∀ n < s.size, ∃! k, s.Covers k n) ∧
      (∀ k n, s.Covers k n →
        (s.locate n).line = (s.charCursor k).line ∧
        (s.locate n).column = (s.charCursor k).column + if n = s.boundary k then 0 else 1) ∧
      (∀ r ∈ (Parse.ofSource s).reports,
        ∃ k c, s.text.toList[k]? = some c ∧ r.last = (s.boundary (k + 1) : ℤ) - 1) ∧
      (s.size < Position.limit → ∀ k c, s.text.toList[k]? = some c →
        ∀ r : SyntaxReport, r.last = (s.boundary (k + 1) : ℤ) - 1 →
          ∃ d, r.toDiagnostic s = .ok d ∧
            d.range.stop = ⟨(s.charCursor k).line - 1,
              (s.charCursor k).column
                + if (String.utf8EncodeChar c).length = 1 then 0 else 1⟩) := by
  refine ⟨fun n => existsUnique_covers, fun k n => Covers.locate_eq,
    fun r => last_eq_of_mem_reports, fun h k c hc r hr => ?_⟩
  have hcovers := covers_last hc
  have hlast : r.last = (s.boundary (k + 1) - 1 : ℕ) := by
    have hend := hcovers.2.2
    omega
  obtain ⟨hline, hcolumn⟩ := hcovers.locate_eq
  refine ⟨r.shown s, r.toDiagnostic_eq h, ?_⟩
  simp only [SyntaxReport.shown, shown, hlast, hline, hcolumn, last_eq_boundary_iff hc]

/-- A string left open behind a character of two bytes. -/
def openAccent : Source := ⟨"\"é", none⟩

/-- What the scanner says of it: its last byte is the last one of the character. -/
def openAccentReport : SyntaxReport := ⟨0, 2, .error, "unterminated string literal"⟩

theorem locate_inside_openAccent :
    openAccent.size < Position.limit ∧ (∃! k, openAccent.Covers k 2) ∧ openAccent.Covers 1 2 ∧
      (openAccent.locate 2).line = 1 ∧ (openAccent.locate 2).column = 2 + 1 ∧
      openAccentReport.last = (openAccent.boundary 2 : ℤ) - 1 ∧
      ∃ d, openAccentReport.toDiagnostic openAccent = .ok d ∧ d.range.stop = ⟨0, 2 + 1⟩ := by
  obtain ⟨hunique, hlocate, -, hreport⟩ := locate_inside openAccent
  have hsize : openAccent.size < Position.limit := by decide +kernel
  have hcovers : openAccent.Covers 1 2 := by decide +kernel
  have hlast : openAccentReport.last = (openAccent.boundary 2 : ℤ) - 1 := by decide +kernel
  have hchar : openAccent.text.toList[1]? = some 'é' := by decide +kernel
  obtain ⟨hline, hcolumn⟩ := hlocate 1 2 hcovers
  exact ⟨hsize, hunique 2 (by decide +kernel), hcovers, hline, hcolumn, hlast,
    hreport hsize 1 'é' hchar openAccentReport hlast⟩

/-- **The last byte of a character can have another column than the character**, and the scanner
reports it: the diagnostic of the string stops behind its last character. -/
theorem column_locate_openAccent :
    openAccent.Covers 1 1 ∧ openAccent.Covers 1 2 ∧
      openAccent.charCursor 1 = ⟨1, 2⟩ ∧ (openAccent.locate 1).column = 2 ∧
      (openAccent.locate 2).column ≠ (openAccent.charCursor 1).column ∧
      (Parse.ofSource openAccent).reports = [openAccentReport] ∧
      (openAccentReport.toDiagnostic openAccent).map Diagnostic.range
        = .ok ⟨⟨0, 1⟩, ⟨0, 3⟩⟩ := by
  have hreports : (Parse.ofSource openAccent).reports = [openAccentReport] := by
    have hfound : (Parse.findings (Parse.glyphs openAccent)).filterMap Parse.report?
        = [openAccentReport] := by
      decide +kernel
    rw [Parse.ofSource, Parse.reportsOf, hfound, List.mergeSort_singleton]
  exact ⟨by decide +kernel, by decide +kernel, by decide +kernel, by decide +kernel,
    by decide +kernel, hreports, by decide +kernel⟩

end StagedDiagnostics.Source
