import Mathlib.Data.List.DropRight
import Mathlib.Data.Prod.Lex
import StagedDiagnostics.Proofs.Text.Utf8
import StagedDiagnostics.Source

/-!
# Proofs/Source/Cursor — lines and columns, byte by byte and character by character

    cursor ──bytes of a character──▸ cursor
       └───────the character──────────┘

A byte never leads backwards in reading order (`key_le_pass`), and the bytes of a character lead on
by that character (`passAll_utf8EncodeChar`).  Characters lead on strictly, which is what tells
places in a text apart (`key_lt_passChar`).
-/

namespace StagedDiagnostics.Cursor

variable {c d : Cursor}

/-! ## Reading order -/

/-- The place of a cursor in reading order: the line comes first. -/
def key (c : Cursor) : ℕ ×ₗ ℕ := toLex (c.line, c.column)

theorem key_le_key_iff :
    c.key ≤ d.key ↔ c.line < d.line ∨ c.line = d.line ∧ c.column ≤ d.column :=
  Prod.Lex.toLex_le_toLex

theorem key_lt_key_iff :
    c.key < d.key ↔ c.line < d.line ∨ c.line = d.line ∧ c.column < d.column :=
  Prod.Lex.toLex_lt_toLex

/-- **A byte leads nowhere back.** -/
theorem key_le_pass (c : Cursor) (b : UInt8) : c.key ≤ (c.pass b).key := by
  rw [key_le_key_iff, pass]
  split_ifs
  · exact Or.inl (Nat.lt_succ_self _)
  · exact Or.inr ⟨rfl, le_rfl⟩
  · exact Or.inr ⟨rfl, Nat.le_succ _⟩

theorem key_le_passAll (c : Cursor) (bs : List UInt8) : c.key ≤ (c.passAll bs).key := by
  induction bs generalizing c with
  | nil => exact le_rfl
  | cons b bs ih => exact (c.key_le_pass b).trans (ih _)

/-- **Where bytes lead**: the line is that of the line feeds passed, and the column that of the bytes
passed since the last of them that start a character. -/
theorem origin_passAll (bs : List UInt8) :
    origin.passAll bs
      = ⟨1 + bs.count 0x0A,
          1 + (bs.rtakeWhile (· ≠ 0x0A)).countP fun b => !Utf8.isContinuation b⟩ := by
  induction bs using List.reverseRecOn with
  | nil => rfl
  | append_singleton bs b ih =>
    rw [passAll_append, ih, passAll_cons, passAll_nil, pass, List.count_append,
      List.count_singleton, List.rtakeWhile_concat]
    by_cases h : b = 0x0A
    · simp [h, Nat.add_assoc]
    · by_cases hb : Utf8.isContinuation b
      · simp [h, hb]
      · simp [h, hb, Nat.add_assoc]

/-- A byte advances the column by one at most. -/
theorem column_origin_passAll_le (bs : List UInt8) :
    (origin.passAll bs).column ≤ 1 + bs.length := by
  rw [origin_passAll]
  exact Nat.add_le_add_left (List.countP_le_length.trans (List.rtakeWhile_suffix _ _).length_le) 1

/-! ## Passing over characters -/

/-- Passes over one character. -/
def passChar (c : Cursor) (ch : Char) : Cursor :=
  if ch = '\n' then ⟨c.line + 1, 1⟩ else ⟨c.line, c.column + 1⟩

/-- Passes over some characters. -/
def passChars (c : Cursor) (chs : List Char) : Cursor := chs.foldl passChar c

@[simp] theorem passChars_nil (c : Cursor) : c.passChars [] = c := rfl

@[simp] theorem passChars_cons (c : Cursor) (ch : Char) (chs : List Char) :
    c.passChars (ch :: chs) = (c.passChar ch).passChars chs := rfl

@[simp] theorem passChars_append (c : Cursor) (chs others : List Char) :
    c.passChars (chs ++ others) = (c.passChars chs).passChars others := List.foldl_append

/-- Bytes that continue a character lead nowhere. -/
theorem passAll_of_isContinuation {bs : List UInt8} (h : ∀ b ∈ bs, Utf8.isContinuation b = true)
    (c : Cursor) : c.passAll bs = c := by
  induction bs with
  | nil => rfl
  | cons b bs ih =>
    obtain ⟨hb, hbs⟩ := List.forall_mem_cons.mp h
    have hfeed : b ≠ 0x0A := by
      rintro rfl
      exact absurd hb (by decide)
    rw [passAll_cons, pass, if_neg hfeed, if_pos hb, ih hbs]

/-- **The bytes of a character lead on by that character.** -/
theorem passAll_utf8EncodeChar (c : Cursor) (ch : Char) :
    c.passAll (String.utf8EncodeChar ch) = c.passChar ch := by
  rcases Utf8.utf8EncodeChar_cases ch with ⟨hascii, hbytes⟩ | ⟨hlong, b, bs, hbytes, hb, hhigh, hbs⟩
  · have hfeed : UInt8.ofNat ch.toNat = 0x0A ↔ ch = '\n' :=
      Utf8.ofNat_toNat_inj (d := '\n') hascii (by decide)
    rw [hbytes, passAll_cons, passAll_nil, pass, passChar]
    simp only [hfeed, Utf8.isContinuation_ofNat_of_lt hascii, Bool.false_eq_true, if_false]
  · have hne : b ≠ 0x0A := by
      rintro rfl
      exact absurd hhigh (by decide)
    have hch : ch ≠ '\n' := by
      rintro rfl
      exact absurd hlong (by decide)
    rw [hbytes, passAll_cons, passAll_of_isContinuation hbs, pass, if_neg hne, hb, passChar,
      if_neg hch]
    rfl

theorem passAll_encode (c : Cursor) (chs : List Char) :
    c.passAll (Utf8.encode chs) = c.passChars chs := by
  induction chs generalizing c with
  | nil => rfl
  | cons ch chs ih =>
    rw [Utf8.encode_cons, passAll_append, passAll_utf8EncodeChar, ih, passChars_cons]

/-- **The first byte of a character leads on by all of it**, and the others lead nowhere. -/
theorem passAll_of_prefix_utf8EncodeChar {bs : List UInt8} {ch : Char}
    (h : bs <+: String.utf8EncodeChar ch) (hne : bs ≠ []) (c : Cursor) :
    c.passAll bs = c.passChar ch := by
  obtain ⟨b, bs, rfl⟩ := List.exists_cons_of_ne_nil hne
  obtain ⟨rest, hrest⟩ := h
  rw [List.cons_append] at hrest
  have hcontinues : ∀ d ∈ bs ++ rest, Utf8.isContinuation d = true := by
    rcases Utf8.utf8EncodeChar_cases ch with ⟨-, hbytes⟩ | ⟨-, lead, tail, hbytes, -, -, htail⟩
    · rw [hbytes, List.cons.injEq] at hrest
      rw [hrest.2]
      exact fun _ hd => nomatch hd
    · rw [hbytes, List.cons.injEq] at hrest
      rw [hrest.2]
      exact htail
  rw [← passAll_utf8EncodeChar, ← hrest, passAll_cons, passAll_cons,
    passAll_of_isContinuation hcontinues,
    passAll_of_isContinuation fun d hd => hcontinues d (List.mem_append_left _ hd)]

/-- **The first bytes of a text lead where some of its characters do.** -/
theorem exists_passAll_eq_passChars {bs : List UInt8} {chs : List Char}
    (h : bs <+: Utf8.encode chs) :
    ∃ k ≤ chs.length, ∀ c : Cursor, c.passAll bs = c.passChars (chs.take k) := by
  induction chs generalizing bs with
  | nil => exact ⟨0, le_rfl, fun c => by rw [List.prefix_nil.mp h]; rfl⟩
  | cons ch chs ih =>
    rw [Utf8.encode_cons] at h
    rcases List.prefix_or_prefix_of_prefix h (List.prefix_append _ _) with hcut | ⟨rest, rfl⟩
    · rcases eq_or_ne bs [] with rfl | hne
      · exact ⟨0, Nat.zero_le _, fun c => rfl⟩
      · exact ⟨1, Nat.succ_le_succ (Nat.zero_le _),
          fun c => passAll_of_prefix_utf8EncodeChar hcut hne c⟩
    · obtain ⟨k, hk, hlead⟩ := ih ((List.prefix_append_right_inj _).mp h)
      refine ⟨k + 1, Nat.succ_le_succ hk, fun c => ?_⟩
      rw [passAll_append, passAll_utf8EncodeChar, hlead]
      rfl

/-- **A character leads on.** -/
theorem key_lt_passChar (c : Cursor) (ch : Char) : c.key < (c.passChar ch).key := by
  rw [key_lt_key_iff, passChar]
  split_ifs
  · exact Or.inl (Nat.lt_succ_self _)
  · exact Or.inr ⟨rfl, Nat.lt_succ_self _⟩

theorem key_lt_passChars {chs : List Char} (h : chs ≠ []) (c : Cursor) :
    c.key < (c.passChars chs).key := by
  obtain ⟨ch, chs, rfl⟩ := List.exists_cons_of_ne_nil h
  rw [passChars_cons, ← passAll_encode]
  exact (c.key_lt_passChar ch).trans_le (key_le_passAll _ _)

/-- **Where characters lead**: the line is that of the line feeds passed, and the column that of the
characters passed since the last of them. -/
theorem origin_passChars (chs : List Char) :
    origin.passChars chs = ⟨1 + chs.count '\n', 1 + (chs.rtakeWhile (· ≠ '\n')).length⟩ := by
  induction chs using List.reverseRecOn with
  | nil => rfl
  | append_singleton chs ch ih =>
    rw [passChars_append, ih, passChars_cons, passChars_nil, passChar, List.count_append,
      List.count_singleton, List.rtakeWhile_concat]
    by_cases h : ch = '\n'
    · simp [h, Nat.add_assoc]
    · simp [h, Nat.add_assoc]

end StagedDiagnostics.Cursor
