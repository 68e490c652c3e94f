import StagedDiagnostics.Proofs.Text.Utf8
import StagedDiagnostics.Uri.Percent

/-!
# Proofs/Uri/Percent — what is written can be read

    characters ──encode──▸ escapes ──decode──▸ the same characters

Reading a written text passes through bytes.  One byte after another, the reader of escapes does
what the reader of bytes does (`decodeFrom_escapes`), and that one reads the bytes of a character as
this character (`Utf8.run_utf8EncodeChar`).
-/

namespace StagedDiagnostics

namespace Percent

/-! ## Reading escapes -/

theorem hexValue?_hexDigit : ∀ n < 16, hexValue? (hexDigit n) = some n := by decide

theorem isPlain_hexDigit : ∀ n < 16, isPlain (hexDigit n) = true ∧ hexDigit n ≠ '/' := by decide

theorem byte?_hexDigit (b : UInt8) :
    byte? (hexDigit (b.toNat / 16)) (hexDigit (b.toNat % 16)) = some b := by
  have hb : b.toNat < 256 := b.toNat_lt
  have hsum : 16 * (b.toNat / 16) + b.toNat % 16 = b.toNat := by omega
  rw [byte?, hexValue?_hexDigit _ (by omega), hexValue?_hexDigit _ (by omega)]
  change some (UInt8.ofNat (16 * (b.toNat / 16) + b.toNat % 16)) = some b
  rw [hsum, UInt8.ofNat_toNat]

/-- **Escapes are read as their bytes.** -/
theorem decodeFrom_escapes (u : Option Utf8.Unfinished) (bs : List UInt8) (cs : List Char) :
    decodeFrom u (bs.flatMap escape ++ cs)
      = (Utf8.run u bs).1 ++ decodeFrom (Utf8.run u bs).2 cs := by
  induction bs generalizing u with
  | nil => rfl
  | cons b bs ih =>
    rw [List.flatMap_cons, List.append_assoc, escape, List.cons_append, List.cons_append,
      List.cons_append, List.nil_append, decodeFrom, byte?_hexDigit]
    dsimp only
    rw [ih, Utf8.run, List.append_assoc]

/-- An ASCII character other than the sign of escapes is read as it is. -/
theorem decodeFrom_ascii {c : Char} (hc : c.toNat < 0x80) (hsign : c ≠ '%') (cs : List Char) :
    decodeFrom none (c :: cs) = c :: decodeFrom none cs := by
  have hread : Utf8.step none (UInt8.ofNat c.toNat) = ([c], none) := by
    rw [Utf8.step, Utf8.start_ofNat (by omega), if_pos hc, c.ofNat_toNat]
  rw [decodeFrom]
  · rw [if_pos hc]
    dsimp only
    rw [hread]
    rfl
  · exact fun _ _ _ h _ => hsign h

/-! ## Reading what was written -/

theorem toNat_lt_of_isPlain {c : Char} (h : isPlain c = true) : c.toNat < 0x80 := by
  rw [isPlain] at h
  delta Char.isAlphanum Char.isAlpha Char.isUpper Char.isLower Char.isDigit at h
  simp only [Bool.or_eq_true, Bool.and_eq_true, decide_eq_true_eq, beq_iff_eq, ge_iff_le,
    UInt32.le_iff_toNat_le] at h
  have hval : c.toNat = c.val.toNat := rfl
  have hZ : 'Z'.val.toNat = 90 := rfl
  have hz : 'z'.val.toNat = 122 := rfl
  have h9 : '9'.val.toNat = 57 := rfl
  rcases h with ((((h | rfl) | rfl) | rfl) | rfl) | rfl
  · omega
  all_goals decide

/-- What is said of an ASCII character can be checked code point by code point. -/
theorem of_ascii {P : Char → Prop} (h : ∀ n < 0x80, P (Char.ofNat n)) {c : Char}
    (hc : c.toNat < 0x80) : P c := by
  have hP := h c.toNat hc
  rwa [c.ofNat_toNat] at hP

theorem ne_percent_of_isPlain {c : Char} (h : isPlain c = true) : c ≠ '%' := by
  rintro rfl
  revert h
  decide

/-- A written character is read as itself. -/
theorem decodeFrom_encodeChar (c : Char) (cs : List Char) :
    decodeFrom none (encodeChar c ++ cs) = c :: decodeFrom none cs := by
  rw [encodeChar]
  split
  · rename_i h
    exact decodeFrom_ascii (toNat_lt_of_isPlain h) (ne_percent_of_isPlain h) cs
  · rw [decodeFrom_escapes, Utf8.run_utf8EncodeChar]
    rfl

/-- A written text is read as itself, whatever follows. -/
theorem decodeFrom_encode (cs ds : List Char) :
    decodeFrom none (encode cs ++ ds) = cs ++ decodeFrom none ds := by
  induction cs with
  | nil => rfl
  | cons c cs ih => rw [encode_cons, List.append_assoc, decodeFrom_encodeChar, ih, List.cons_append]

/-- **Reading undoes writing.** -/
@[simp] theorem decode_encode (cs : List Char) : decode (encode cs) = cs := by
  have h := decodeFrom_encode cs []
  rw [List.append_nil] at h
  rw [decode, h]
  exact List.append_nil cs

/-! ## What a written text is made of -/

theorem mem_encodeChar {c d : Char} (h : d ∈ encodeChar c) :
    d = c ∧ isPlain c = true ∨ d = '%' ∨ isPlain d = true ∧ d ≠ '/' := by
  rw [encodeChar] at h
  split at h
  · rename_i hc
    exact Or.inl ⟨List.mem_singleton.mp h, hc⟩
  · obtain ⟨b, -, hd⟩ := List.mem_flatMap.mp h
    have hb : b.toNat < 256 := b.toNat_lt
    rw [escape, List.mem_cons, List.mem_cons, List.mem_singleton] at hd
    rcases hd with rfl | rfl | rfl
    · exact Or.inr (Or.inl rfl)
    · exact Or.inr (Or.inr (isPlain_hexDigit _ (by omega)))
    · exact Or.inr (Or.inr (isPlain_hexDigit _ (by omega)))

/-- A written text is made of plain characters and signs of escapes. -/
theorem isPlain_of_mem_encode {cs : List Char} {d : Char} (h : d ∈ encode cs) :
    d = '%' ∨ isPlain d = true := by
  obtain ⟨c, -, hd⟩ := List.mem_flatMap.mp h
  rcases mem_encodeChar hd with ⟨rfl, hplain⟩ | hsign | ⟨hplain, -⟩
  · exact Or.inr hplain
  · exact Or.inl hsign
  · exact Or.inr hplain

/-- Writing puts no slash where there was none. -/
theorem slash_mem_of_mem_encode {cs : List Char} (h : '/' ∈ encode cs) : '/' ∈ cs := by
  obtain ⟨c, hc, hd⟩ := List.mem_flatMap.mp h
  rcases mem_encodeChar hd with ⟨rfl, -⟩ | hsign | ⟨-, hne⟩
  · exact hc
  · exact absurd hsign (by decide)
  · exact absurd rfl hne

end Percent

end StagedDiagnostics
