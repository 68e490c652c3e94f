import Mathlib.Data.Set.Function
import StagedDiagnostics.Diagnostic
import StagedDiagnostics.Proofs.Source.Cursor

/-!
# Proofs/Source/Location — places in a text

    offsets between characters ──place──▸ lines and columns     (an order isomorphism)
            all offsets        ──place──▸ lines and columns     (monotone)

Cut at its line feeds, a text offers one place in front of each character of a line and one at the
line's end.  The offsets between characters meet each of these places once, in their order
(`place_orderIso`): going on by one character, a cursor moves to the next place
(`Cursor.onLines_cut_cons`).  An offset inside a character cannot upset the order, since bytes lead
nowhere back; its column is that of the characters read so far, the one it cuts among them
(`column_locate`).  So every offset is shown at a place of the text (`hasPosition_shown`).
-/

namespace StagedDiagnostics

theorem Split.length_cut (sep : Char) (cs : List Char) :
    (cut sep cs).length = cs.count sep + 1 := by
  induction cs with
  | nil => rfl
  | cons c cs ih =>
    rw [cut]
    by_cases h : c = sep
    · rw [if_pos h, h, List.length_cons, ih, List.count_cons_self]
    · obtain ⟨l, ls, hcut⟩ := List.exists_cons_of_ne_nil (cut_ne_nil sep cs)
      rw [if_neg h, List.count_cons_of_ne h, ← ih, hcut]
      rfl

/-! ## The places on some lines -/

namespace Cursor

/-- A cursor on one of some lines, the first of which goes on at `c`. -/
def OnLines (c : Cursor) : List (List Char) → Cursor → Prop
  | [], _ => False
  | l :: ls, d =>
    (d.line = c.line ∧ c.column ≤ d.column ∧ d.column ≤ c.column + l.length) ∨
      OnLines ⟨c.line + 1, 1⟩ ls d

/-- **A character leads to the next place.** -/
theorem onLines_cut_cons (c d : Cursor) (ch : Char) (chs : List Char) :
    c.OnLines (Split.cut '\n' (ch :: chs)) d
      ↔ d = c ∨ (c.passChar ch).OnLines (Split.cut '\n' chs) d := by
  obtain ⟨line, column⟩ := c
  obtain ⟨dline, dcolumn⟩ := d
  rw [Split.cut, passChar, Cursor.mk.injEq]
  by_cases h : ch = '\n'
  · simp only [if_pos h, OnLines, List.length_nil, Nat.add_zero]
    exact or_congr_left (and_congr_right fun _ => ⟨fun h => by omega, fun h => by omega⟩)
  · obtain ⟨l, ls, hcut⟩ := List.exists_cons_of_ne_nil (Split.cut_ne_nil '\n' chs)
    simp only [if_neg h, hcut, Split.addFront, OnLines, List.length_cons, ← or_assoc]
    exact or_congr_left ⟨fun h => by omega, fun h => by omega⟩

/-- Where some of the characters lead is where their lines have places. -/
theorem exists_passChars_iff (c d : Cursor) (chs : List Char) :
    (∃ k ≤ chs.length, c.passChars (chs.take k) = d) ↔ c.OnLines (Split.cut '\n' chs) d := by
  induction chs generalizing c with
  | nil =>
    obtain ⟨line, column⟩ := c
    obtain ⟨dline, dcolumn⟩ := d
    simp only [List.length_nil, Nat.le_zero, exists_eq_left, List.take_nil, passChars_nil,
      Split.cut, OnLines, or_false, Cursor.mk.injEq]
    omega
  | cons ch chs ih =>
    rw [onLines_cut_cons, ← ih]
    constructor
    · rintro ⟨k, hk, rfl⟩
      cases k with
      | zero => exact Or.inl rfl
      | succ k => exact Or.inr ⟨k, Nat.le_of_succ_le_succ hk, rfl⟩
    · rintro (rfl | ⟨k, hk, rfl⟩)
      · exact ⟨0, Nat.zero_le _, rfl⟩
      · exact ⟨k + 1, Nat.succ_le_succ hk, rfl⟩

/-- The places on whole lines: in front of each character, and at the end. -/
theorem onLines_iff (n : ℕ) (ls : List (List Char)) (d : Cursor) :
    OnLines ⟨n, 1⟩ ls d
      ↔ n ≤ d.line ∧ d.line < n + ls.length ∧ 1 ≤ d.column ∧
          d.column ≤ (ls.getD (d.line - n) []).length + 1 := by
  induction ls generalizing n with
  | nil =>
    simp only [OnLines, List.length_nil, false_iff]
    omega
  | cons l ls ih =>
    rw [OnLines, ih, List.length_cons]
    dsimp only
    rcases Nat.lt_trichotomy d.line n with hlt | heq | hgt
    · omega
    · rw [heq, Nat.sub_self, List.getD_cons_zero]
      omega
    · have hsub : d.line - n = d.line - (n + 1) + 1 := by omega
      rw [hsub, List.getD_cons_succ]
      omega

end Cursor

/-- The place of a position in reading order. -/
def Position.key (p : Position) : ℕ ×ₗ ℕ := toLex (p.line, p.character)

namespace Source

variable {s : Source}

/-! ## Lines and boundaries -/

/-- The lines of the text, without the line feeds between them. -/
def lines (s : Source) : List (List Char) := Split.cut '\n' s.text.toList

/-- The number of characters on a line, the line feed aside; lines count from one. -/
def lineLength (s : Source) (line : ℕ) : ℕ := (s.lines.getD (line - 1) []).length

/-- The offset behind the first characters of the text. -/
def boundary (s : Source) (k : ℕ) : ℕ := (Utf8.encode (s.text.toList.take k)).length

/-- The offsets between the characters of the text, with its start and its end. -/
def boundaries (s : Source) : Set ℤ := {offset | ∃ k ≤ s.text.toList.length, offset = s.boundary k}

/-- The lines and columns that a text has: the last column of a line is behind its characters. -/
def places (s : Source) : Set (ℕ ×ₗ ℕ) :=
  {p | 1 ≤ (ofLex p).1 ∧ (ofLex p).1 ≤ s.lineCount ∧
    1 ≤ (ofLex p).2 ∧ (ofLex p).2 ≤ s.lineLength (ofLex p).1 + 1}

/-- The line and the column of an offset, in reading order. -/
def place (s : Source) (offset : ℤ) : ℕ ×ₗ ℕ :=
  toLex ((s.locate offset).line, (s.locate offset).column)

theorem place_eq (s : Source) (offset : ℤ) : s.place offset = (s.cursor (s.clamp offset)).key := rfl

/-- There are as many lines as pieces between line feeds. -/
theorem length_lines (s : Source) : s.lines.length = s.lineCount := by
  have hline : (Cursor.origin.passAll s.bytes).line = (Cursor.origin.passChars s.text.toList).line :=
    congrArg Cursor.line (Cursor.passAll_encode _ _)
  rw [Cursor.origin_passAll, Cursor.origin_passChars] at hline
  have hcount : s.bytes.count 0x0A = s.text.toList.count '\n' := Nat.add_left_cancel hline
  rw [lines, Split.length_cut, lineCount, hcount]

/-- The bytes are those in front of a boundary and those behind it. -/
theorem bytes_eq (s : Source) (k : ℕ) :
    s.bytes = Utf8.encode (s.text.toList.take k) ++ Utf8.encode (s.text.toList.drop k) := by
  rw [← Utf8.encode_append, List.take_append_drop, bytes]

theorem boundary_le_size (s : Source) (k : ℕ) : s.boundary k ≤ s.size := by
  rw [boundary, size, s.bytes_eq k, List.length_append]
  exact Nat.le_add_right _ _

/-- A character lies between two boundaries. -/
theorem boundary_succ {k : ℕ} {c : Char} (h : s.text.toList[k]? = some c) :
    s.boundary (k + 1) = s.boundary k + (String.utf8EncodeChar c).length := by
  rw [boundary, List.take_add_one, h, Utf8.encode_append, List.length_append, boundary]
  simp

/-- Boundaries stand in the order of the characters. -/
theorem boundary_lt_boundary {j k : ℕ} (h : j < k) (hk : k ≤ s.text.toList.length) :
    s.boundary j < s.boundary k := by
  induction k, h using Nat.le_induction with
  | base =>
    have hpos := List.length_pos_iff.mpr (String.utf8EncodeChar_ne_nil (c := s.text.toList[j]))
    rw [boundary_succ (List.getElem?_eq_getElem hk)]
    exact Nat.lt_add_of_pos_right hpos
  | succ k hjk ih =>
    rw [boundary_succ (List.getElem?_eq_getElem hk)]
    exact Nat.lt_add_right _ (ih (Nat.le_of_succ_le hk))

theorem boundary_le_boundary_iff {j k : ℕ} (hj : j ≤ s.text.toList.length)
    (hk : k ≤ s.text.toList.length) : s.boundary j ≤ s.boundary k ↔ j ≤ k := by
  constructor
  · intro h
    by_contra hlt
    exact absurd (boundary_lt_boundary (Nat.lt_of_not_le hlt) hj) (Nat.not_lt.mpr h)
  · intro h
    rcases Nat.eq_or_lt_of_le h with rfl | hlt
    · exact Nat.le_refl _
    · exact Nat.le_of_lt (boundary_lt_boundary hlt hk)

/-- **A boundary is where the characters in front of it lead.** -/
theorem cursor_boundary (s : Source) (k : ℕ) :
    s.cursor (s.boundary k) = Cursor.origin.passChars (s.text.toList.take k) := by
  have hbytes : s.bytes.take (s.boundary k) = Utf8.encode (s.text.toList.take k) := by
    rw [boundary, s.bytes_eq k, List.take_left]
  rw [cursor, hbytes, Cursor.passAll_encode]

theorem place_boundary (s : Source) (k : ℕ) :
    s.place (s.boundary k) = (Cursor.origin.passChars (s.text.toList.take k)).key := by
  rw [place_eq, clamp_ofNat (s.boundary_le_size k), cursor_boundary]

/-! ## Order -/

/-- **Offsets are placed in their order**, inside the text or not, between characters or not. -/
theorem place_mono {a b : ℤ} (h : a ≤ b) : s.place a ≤ s.place b := by
  have hclamp : s.clamp a ≤ s.clamp b := by
    rw [clamp, clamp]
    omega
  obtain ⟨rest, hrest⟩ := List.take_prefix_take_left (l := s.bytes) hclamp
  rw [place_eq, place_eq, cursor, cursor, ← hrest, Cursor.passAll_append]
  exact Cursor.key_le_passAll _ _

/-- Boundaries behind different numbers of characters have different places. -/
theorem place_boundary_lt {j k : ℕ} (h : j < k) (hk : k ≤ s.text.toList.length) :
    s.place (s.boundary j) < s.place (s.boundary k) := by
  obtain ⟨rest, hrest⟩ := List.take_prefix_take_left (l := s.text.toList) h.le
  have hne : rest ≠ [] := by
    rintro rfl
    have hlength := congrArg List.length hrest
    rw [List.append_nil, List.length_take_of_le hk, List.length_take_of_le (h.le.trans hk)]
      at hlength
    omega
  rw [place_boundary, place_boundary, ← hrest, Cursor.passChars_append]
  exact Cursor.key_lt_passChars hne _

/-- **Offsets between characters are placed strictly in their order.** -/
theorem place_lt_place {a b : ℤ} (ha : a ∈ s.boundaries) (hb : b ∈ s.boundaries) (hab : a < b) :
    s.place a < s.place b := by
  obtain ⟨j, hj, rfl⟩ := ha
  obtain ⟨k, hk, rfl⟩ := hb
  rcases Nat.lt_trichotomy j k with hlt | rfl | hgt
  · exact place_boundary_lt hlt hk
  · exact absurd hab (lt_irrefl _)
  · exact absurd (place_mono hab.le) (not_le_of_gt (place_boundary_lt hgt hj))

/-- A place of the text is where some of its characters lead. -/
theorem key_mem_places_iff (s : Source) (d : Cursor) :
    d.key ∈ s.places ↔
      ∃ k ≤ s.text.toList.length, Cursor.origin.passChars (s.text.toList.take k) = d := by
  rw [Cursor.exists_passChars_iff, Cursor.origin, Cursor.onLines_iff]
  change _ ↔ 1 ≤ d.line ∧ d.line < 1 + s.lines.length ∧ 1 ≤ d.column ∧
    d.column ≤ s.lineLength d.line + 1
  rw [length_lines, Nat.lt_one_add_iff]
  rfl

/-- **The offsets between characters meet every place of the text.** -/
theorem image_place (s : Source) : s.place '' s.boundaries = s.places := by
  ext p
  constructor
  · rintro ⟨_, ⟨k, hk, rfl⟩, rfl⟩
    rw [place_boundary, key_mem_places_iff]
    exact ⟨k, hk, rfl⟩
  · intro hp
    obtain ⟨k, hk, hd⟩ := (s.key_mem_places_iff ⟨(ofLex p).1, (ofLex p).2⟩).mp hp
    refine ⟨_, ⟨k, hk, rfl⟩, ?_⟩
    rw [place_boundary, hd]
    rfl

/-- **Every offset has a place of the text**: one inside a character has the place behind it. -/
theorem place_mem_places (s : Source) (offset : ℤ) : s.place offset ∈ s.places := by
  obtain ⟨k, hk, hlead⟩ := Cursor.exists_passAll_eq_passChars
    (List.take_prefix (s.clamp offset) (Utf8.encode s.text.toList))
  have hplace : s.place offset = s.place (s.boundary k) := by
    rw [place_boundary, ← hlead]
    rfl
  rw [hplace, ← image_place]
  exact ⟨_, ⟨k, hk, rfl⟩, rfl⟩

/-! ## Lines as they are read -/

/-- In front of a line there is nothing or a line feed. -/
theorem rdropWhile_eq_nil_or_feed (bs : List UInt8) :
    bs.rdropWhile (· ≠ 0x0A) = [] ∨ (bs.rdropWhile (· ≠ 0x0A)).getLast? = some 0x0A := by
  rcases eq_or_ne (bs.rdropWhile (· ≠ 0x0A)) [] with hnil | hne
  · exact Or.inl hnil
  · have hlast := List.rdropWhile_last_not _ _ hne
    rw [decide_eq_true_eq, not_not] at hlast
    exact Or.inr (by rw [List.getLast?_eq_some_getLast hne, hlast])

/-- The bytes between the start of the line of an offset and the offset. -/
def linePrefix (s : Source) (offset : ℤ) : List UInt8 :=
  (s.bytes.take (s.clamp offset)).rtakeWhile (· ≠ 0x0A)

/-- **The column counts the characters that the start of the line is read as**; one that the offset
cuts is read as a replacement. -/
theorem column_locate (s : Source) (offset : ℤ) :
    (s.locate offset).column = 1 + (Utf8.decode (s.linePrefix offset)).length := by
  have hcolumn : (s.locate offset).column
      = 1 + (s.linePrefix offset).countP fun b => !Utf8.isContinuation b :=
    congrArg Cursor.column (Cursor.origin_passAll _)
  have hstart : (s.bytes.take (s.clamp offset)).rdropWhile (· ≠ 0x0A) ++ s.linePrefix offset
      <+: Utf8.encode s.text.toList := by
    rw [linePrefix, List.rdropWhile_append_rtakeWhile]
    exact List.take_prefix _ _
  obtain ⟨ds, hds⟩ := Utf8.exists_prefix_encode_of_feed hstart (rdropWhile_eq_nil_or_feed _)
  rw [hcolumn, Utf8.length_decode_of_prefix hds]

/-- A line counts the line feeds before the offset. -/
theorem line_locate_eq_count (s : Source) (offset : ℤ) :
    (s.locate offset).line = 1 + (s.bytes.take (s.clamp offset)).count 0x0A :=
  congrArg Cursor.line (Cursor.origin_passAll _)

/-! ## Client positions -/

/-- The line of an offset is one of the lines. -/
theorem line_locate (s : Source) (offset : ℤ) :
    1 ≤ (s.locate offset).line ∧ (s.locate offset).line ≤ s.lineCount := by
  have hcount := (List.take_sublist (s.clamp offset) s.bytes).count_le (0x0A : UInt8)
  rw [line_locate_eq_count, lineCount]
  omega

theorem column_locate_le (s : Source) (offset : ℤ) : (s.locate offset).column ≤ 1 + s.size :=
  (Cursor.column_origin_passAll_le _).trans (Nat.add_le_add_left (List.length_take_le' _ _) 1)

/-- The position of an offset of a text that is not too long. -/
def shown (s : Source) (offset : ℤ) : Position :=
  ⟨(s.locate offset).line - 1, (s.locate offset).column⟩

/-- **A client can name every offset of a text that is not too long.** -/
theorem position_eq (h : s.size < Position.limit) (offset : ℤ) :
    s.position offset = .ok (s.shown offset) := by
  obtain ⟨hpos, hle⟩ := s.line_locate offset
  have hcount : s.lineCount ≤ s.size + 1 := Nat.succ_le_succ List.count_le_length
  have hcolumn := s.column_locate_le offset
  have hcast : ((s.locate offset).line : ℤ) - 1 = ((s.locate offset).line - 1 : ℕ) := by omega
  rw [position, hcast]
  exact Position.checked_ofNat (by omega) (by omega)

theorem place_eq_shown (s : Source) (offset : ℤ) :
    s.place offset = toLex ((s.shown offset).line + 1, (s.shown offset).character) := by
  rw [shown, Nat.sub_add_cancel (s.line_locate offset).1]
  rfl

/-- Positions are in the order of places. -/
theorem shown_key_le {a b : ℤ} (h : s.place a ≤ s.place b) :
    (s.shown a).key ≤ (s.shown b).key := by
  rw [place_eq_shown, place_eq_shown, Prod.Lex.toLex_le_toLex] at h
  rw [Position.key, Position.key, Prod.Lex.toLex_le_toLex]
  simpa using h

theorem shown_key_lt {a b : ℤ} (h : s.place a < s.place b) :
    (s.shown a).key < (s.shown b).key := by
  rw [place_eq_shown, place_eq_shown, Prod.Lex.toLex_lt_toLex] at h
  rw [Position.key, Position.key, Prod.Lex.toLex_lt_toLex]
  simpa using h

/-- A position inside a text: on one of its lines, and at most right behind the characters of that
line, in columns that count from one. -/
def HasPosition (s : Source) (p : Position) : Prop :=
  p.line < s.lineCount ∧ p.character ≤ s.lineLength (p.line + 1) + 1

/-- **Every offset is shown inside the text.** -/
theorem hasPosition_shown (s : Source) (offset : ℤ) : s.HasPosition (s.shown offset) := by
  obtain ⟨-, hline, -, hcolumn⟩ := s.place_eq_shown offset ▸ s.place_mem_places offset
  exact ⟨hline, hcolumn⟩

/-- **Positions keep the order of offsets**, on the lines of the text. -/
theorem exists_position_le (h : s.size < Position.limit) {a b : ℤ} (hab : a ≤ b) :
    ∃ p q, s.position a = .ok p ∧ s.position b = .ok q ∧ p.key ≤ q.key ∧
      p.line < s.lineCount ∧ q.line < s.lineCount :=
  ⟨_, _, position_eq h a, position_eq h b, shown_key_le (place_mono hab),
    (s.hasPosition_shown a).1, (s.hasPosition_shown b).1⟩

end Source

/-- The diagnostic of a report on a text that is not too long. -/
def SyntaxReport.shown (s : Source) (r : SyntaxReport) : Diagnostic :=
  ⟨⟨s.shown r.first, s.shown r.last⟩, r.message, some r.level.severity,
    some Diagnostic.syntaxOrigin, none⟩

theorem SyntaxReport.toDiagnostic_eq {s : Source} (h : s.size < Position.limit)
    (r : SyntaxReport) : r.toDiagnostic s = .ok (r.shown s) := by
  rw [toDiagnostic, Source.position_eq h, Source.position_eq h]
  rfl

namespace Source

/-- **Offsets between characters and places correspond**, in their order, and the place behind some
characters is that of the line feeds among them and of the characters since the last one.  Where
the text is not too long for a client, positions keep the order of all offsets, so a syntax report
whose offsets are in order becomes a diagnostic whose range is. -/
theorem place_orderIso (s : Source) :
    (∀ a ∈ s.boundaries, ∀ b ∈ s.boundaries, a < b → s.place a < s.place b) ∧
      Set.BijOn s.place s.boundaries s.places ∧
      (∀ k ≤ s.text.toList.length,
        (s.locate (s.boundary k)).line = 1 + (s.text.toList.take k).count '\n' ∧
        (s.locate (s.boundary k)).column
          = 1 + ((s.text.toList.take k).rtakeWhile (· ≠ '\n')).length) ∧
      (s.size < Position.limit →
        (∀ a b : ℤ, a ≤ b → ∃ p q, s.position a = .ok p ∧ s.position b = .ok q ∧ p.key ≤ q.key ∧
          p.line < s.lineCount ∧ q.line < s.lineCount) ∧
        ∀ r : SyntaxReport, r.first ≤ r.last →
          ∃ d, r.toDiagnostic s = .ok d ∧ d.range.start.key ≤ d.range.stop.key) := by
  have hmono : StrictMonoOn s.place s.boundaries := fun a ha b hb => place_lt_place ha hb
  refine ⟨fun a ha b hb => place_lt_place ha hb, ?_, fun k _ => ?_,
    fun h => ⟨fun a b => exists_position_le h, ?_⟩⟩
  · rw [← image_place]
    exact hmono.injOn.bijOn_image
  · have hplace := s.place_boundary k
    rw [Cursor.origin_passChars] at hplace
    exact Prod.mk.inj (toLex_inj.mp hplace)
  · intro r hr
    obtain ⟨p, q, hp, hq, hkey, -⟩ := exists_position_le h hr
    refine ⟨⟨⟨p, q⟩, r.message, some r.level.severity, some Diagnostic.syntaxOrigin, none⟩, ?_, hkey⟩
    rw [SyntaxReport.toDiagnostic, hp, hq]
    rfl

/-- Two lines, with characters of one, two and four bytes. -/
def twoLines : Source := ⟨"(é\n😀", none⟩

/-- A report from in front of the text to inside its last character. -/
def outerReport : SyntaxReport := ⟨-3, 6, .error, "unclosed delimiter '('"⟩

theorem place_orderIso_twoLines :
    twoLines.size < Position.limit ∧ outerReport.first ≤ outerReport.last ∧
      (∃ d, outerReport.toDiagnostic twoLines = .ok d ∧ d.range.start.key ≤ d.range.stop.key) ∧
      Set.BijOn twoLines.place twoLines.boundaries twoLines.places ∧
      twoLines.boundary 3 = 4 ∧ twoLines.place 4 = toLex (2, 1) ∧
      twoLines.position (-3) = .ok ⟨0, 1⟩ ∧ twoLines.position 6 = .ok ⟨1, 2⟩ := by
  obtain ⟨-, hbij, -, hpositions⟩ := place_orderIso twoLines
  have hsize : twoLines.size < Position.limit := by decide +kernel
  have hfirst : outerReport.first ≤ outerReport.last := by decide
  exact ⟨hsize, hfirst, (hpositions hsize).2 outerReport hfirst, hbij, by decide +kernel,
    by decide +kernel, by decide +kernel, by decide +kernel⟩

end Source

end StagedDiagnostics
