import Mathlib.Data.List.Basic
import Mathlib.Tactic.SplitIfs
import StagedDiagnostics.Text.Utf8

/-!
# Proofs/Text/Utf8 — the bytes of a character

    character ──utf8EncodeChar──▸ a byte that starts it, bytes that continue it

The bytes of a character lead the reader from the state without an open character back to it, with
that character read (`run_utf8EncodeChar`).  Only the first of them starts a character, and none of
them is ASCII unless the character is (`utf8EncodeChar_cases`).  Where a text is cut inside a
character, what is left of this character is read as one replacement (`decode_of_cut`), so the
characters that are read can be counted by the bytes that start one (`length_decode_of_prefix`).
-/

namespace StagedDiagnostics.Utf8

/-! ## Reading the bytes of a character -/

/-- Reads some bytes: the characters they finish, and the one they leave open. -/
def run (u : Option Unfinished) : List UInt8 → List Char × Option Unfinished
  | [] => ([], u)
  | b :: bs => ((step u b).1 ++ (run (step u b).2 bs).1, (run (step u b).2 bs).2)

theorem toNat_ofNat_of_lt {n : Nat} (h : n < 256) : (UInt8.ofNat n).toNat = n := by
  rw [UInt8.toNat_ofNat']
  omega

/-- **A byte in first place**, read off its number. -/
theorem start_ofNat {n : Nat} (h : n < 256) :
    start (UInt8.ofNat n)
      = if n < 0x80 then ([Char.ofNat n], none)
        else if n < 0xC2 then ([replacement], none)
        else if n < 0xE0 then ([], some ⟨n - 0xC0, 1, 0x80, 0xBF⟩)
        else if n < 0xF0 then
          ([], some ⟨n - 0xE0, 2, if n = 0xE0 then 0xA0 else 0x80, if n = 0xED then 0x9F else 0xBF⟩)
        else if n < 0xF5 then
          ([], some ⟨n - 0xF0, 3, if n = 0xF0 then 0x90 else 0x80, if n = 0xF4 then 0x8F else 0xBF⟩)
        else ([replacement], none) := by
  have hb := toNat_ofNat_of_lt h
  have hlt : ∀ b : UInt8, UInt8.ofNat n < b ↔ n < b.toNat := fun b => by
    rw [UInt8.lt_iff_toNat_lt, hb]
  have heq : ∀ b : UInt8, UInt8.ofNat n = b ↔ n = b.toNat := fun b => by
    rw [← UInt8.toNat_inj, hb]
  simp only [start, Lead.ofByte, hlt, heq, hb, UInt8.reduceToNat]
  split_ifs <;> rfl

/-- A byte that continues the open character finishes it or leaves one byte less to come. -/
theorem step_tail {value missing t : Nat} {low high : UInt8} (ht : t < 64)
    (hlow : low.toNat ≤ t + 128) (hhigh : t + 128 ≤ high.toNat) :
    step (some ⟨value, missing, low, high⟩) (UInt8.ofNat (t + 128))
      = if missing = 1 then ([Char.ofNat (value * 64 + t)], none)
        else ([], some ⟨value * 64 + t, missing - 1, 0x80, 0xBF⟩) := by
  have hb : (UInt8.ofNat (t + 128)).toNat = t + 128 := toNat_ofNat_of_lt (by omega)
  have hrange : low ≤ UInt8.ofNat (t + 128) ∧ UInt8.ofNat (t + 128) ≤ high := by
    rw [UInt8.le_iff_toNat_le, UInt8.le_iff_toNat_le, hb]
    exact ⟨hlow, hhigh⟩
  simp only [step, if_pos hrange, hb, Nat.add_sub_cancel]

/-- **The bytes of a character are read as that character**, and leave none open. -/
theorem run_utf8EncodeChar (c : Char) : run none (String.utf8EncodeChar c) = ([c], none) := by
  have hc : Char.ofNat c.val.toNat = c := c.ofNat_toNat
  have hvalid : c.val.toNat < 0xD800 ∨ 0xDFFF < c.val.toNat ∧ c.val.toNat < 0x110000 := c.valid
  rw [String.utf8EncodeChar]
  generalize c.val.toNat = v at hc hvalid
  split_ifs with h1 h2 h3
  · simp only [run, step]
    rw [start_ofNat (by omega), if_pos (by omega), hc]
    rfl
  · have hv : v / 64 % 32 * 64 + v % 64 = v := by omega
    simp only [run]
    rw [step, start_ofNat (by omega), if_neg (by omega), if_neg (by omega), if_pos (by omega),
      Nat.add_sub_cancel]
    dsimp only
    rw [step_tail (by omega) (by change 128 ≤ _; omega) (by change _ ≤ 191; omega), if_pos rfl,
      hv, hc]
    rfl
  · have hv : (v / 4096 % 16 * 64 + v / 64 % 64) * 64 + v % 64 = v := by omega
    -- the range of the second byte is right, since `v` has no shorter form and is no surrogate
    have hlow : (if v / 4096 % 16 + 224 = 224 then (0xA0 : UInt8) else 0x80).toNat
        ≤ v / 64 % 64 + 128 := by
      split_ifs
      · change 160 ≤ _; omega
      · change 128 ≤ _; omega
    have hhigh : v / 64 % 64 + 128
        ≤ (if v / 4096 % 16 + 224 = 237 then (0x9F : UInt8) else 0xBF).toNat := by
      split_ifs
      · change _ ≤ 159; omega
      · change _ ≤ 191; omega
    simp only [run]
    rw [step, start_ofNat (by omega), if_neg (by omega), if_neg (by omega), if_neg (by omega),
      if_pos (by omega), Nat.add_sub_cancel]
    dsimp only
    rw [step_tail (by omega) hlow hhigh, if_neg (by omega)]
    dsimp only
    rw [step_tail (by omega) (by change 128 ≤ _; omega) (by change _ ≤ 191; omega), if_pos rfl,
      hv, hc]
    rfl
  · have hv : ((v / 262144 % 8 * 64 + v / 4096 % 64) * 64 + v / 64 % 64) * 64 + v % 64 = v := by
      omega
    -- …and below the last code point
    have hlow : (if v / 262144 % 8 + 240 = 240 then (0x90 : UInt8) else 0x80).toNat
        ≤ v / 4096 % 64 + 128 := by
      split_ifs
      · change 144 ≤ _; omega
      · change 128 ≤ _; omega
    have hhigh : v / 4096 % 64 + 128
        ≤ (if v / 262144 % 8 + 240 = 244 then (0x8F : UInt8) else 0xBF).toNat := by
      split_ifs
      · change _ ≤ 143; omega
      · change _ ≤ 191; omega
    simp only [run]
    rw [step, start_ofNat (by omega), if_neg (by omega), if_neg (by omega), if_neg (by omega),
      if_neg (by omega), if_pos (by omega), Nat.add_sub_cancel]
    dsimp only
    rw [step_tail (by omega) hlow hhigh, if_neg (by omega)]
    dsimp only
    rw [step_tail (by omega) (by change 128 ≤ _; omega) (by change _ ≤ 191; omega),
      if_neg (by omega)]
    dsimp only
    rw [step_tail (by omega) (by change 128 ≤ _; omega) (by change _ ≤ 191; omega), if_pos rfl,
      hv, hc]
    rfl

/-! ## What the bytes of a character are -/

theorem isContinuation_ofNat_of_lt {n : Nat} (hn : n < 0x80) :
    isContinuation (UInt8.ofNat n) = false := by
  have hb := toNat_ofNat_of_lt (n := n) (by omega)
  have hsmall : ¬ 0x80 ≤ UInt8.ofNat n := by
    rw [UInt8.le_iff_toNat_le, hb]
    exact Nat.not_le.mpr hn
  simp [isContinuation, hsmall]

/-- ASCII characters are told apart by their bytes. -/
theorem ofNat_toNat_inj {c d : Char} (hc : c.toNat < 0x80) (hd : d.toNat < 0x80) :
    UInt8.ofNat c.toNat = UInt8.ofNat d.toNat ↔ c = d := by
  rw [← UInt8.toNat_inj, toNat_ofNat_of_lt (by omega), toNat_ofNat_of_lt (by omega), Char.toNat_inj]

/-- The byte that starts a longer character is neither ASCII nor a continuation. -/
theorem isContinuation_ofNat_of_le {n : Nat} (hlow : 0xC0 ≤ n) (hn : n < 256) :
    isContinuation (UInt8.ofNat n) = false ∧ 0x80 ≤ UInt8.ofNat n := by
  have hb := toNat_ofNat_of_lt hn
  constructor
  · have hlarge : ¬ UInt8.ofNat n < 0xC0 := by
      rw [UInt8.lt_iff_toNat_lt, hb]
      exact Nat.not_lt.mpr hlow
    simp [isContinuation, hlarge]
  · rw [UInt8.le_iff_toNat_le, hb]
    change 128 ≤ n
    omega

theorem isContinuation_tail {t : Nat} (ht : t < 64) :
    isContinuation (UInt8.ofNat (t + 128)) = true := by
  have hb : (UInt8.ofNat (t + 128)).toNat = t + 128 := toNat_ofNat_of_lt (by omega)
  rw [isContinuation, Bool.and_eq_true, decide_eq_true_eq, decide_eq_true_eq,
    UInt8.le_iff_toNat_le, UInt8.lt_iff_toNat_lt, hb]
  change 128 ≤ t + 128 ∧ t + 128 < 192
  omega

/-- **The bytes of a character**: an ASCII character is its own byte; any other one is started by
its first byte and continued by the others. -/
theorem utf8EncodeChar_cases (c : Char) :
    (c.toNat < 0x80 ∧ String.utf8EncodeChar c = [UInt8.ofNat c.toNat]) ∨
      (0x80 ≤ c.toNat ∧ ∃ lead tail, String.utf8EncodeChar c = lead :: tail ∧
        isContinuation lead = false ∧ 0x80 ≤ lead ∧ ∀ b ∈ tail, isContinuation b = true) := by
  have hvalid : c.val.toNat < 0xD800 ∨ 0xDFFF < c.val.toNat ∧ c.val.toNat < 0x110000 := c.valid
  have hnat : c.toNat = c.val.toNat := rfl
  rw [hnat, String.utf8EncodeChar]
  generalize c.val.toNat = v at hvalid
  split_ifs with h1 h2 h3
  · exact Or.inl ⟨by omega, rfl⟩
  · obtain ⟨hlead, hhigh⟩ :=
      isContinuation_ofNat_of_le (n := v / 64 % 32 + 192) (by omega) (by omega)
    refine Or.inr ⟨by omega, _, _, rfl, hlead, hhigh, ?_⟩
    rw [List.forall_mem_singleton]
    exact isContinuation_tail (by omega)
  · obtain ⟨hlead, hhigh⟩ :=
      isContinuation_ofNat_of_le (n := v / 4096 % 16 + 224) (by omega) (by omega)
    refine Or.inr ⟨by omega, _, _, rfl, hlead, hhigh, ?_⟩
    rw [List.forall_mem_cons, List.forall_mem_singleton]
    exact ⟨isContinuation_tail (by omega), isContinuation_tail (by omega)⟩
  · obtain ⟨hlead, hhigh⟩ :=
      isContinuation_ofNat_of_le (n := v / 262144 % 8 + 240) (by omega) (by omega)
    refine Or.inr ⟨by omega, _, _, rfl, hlead, hhigh, ?_⟩
    rw [List.forall_mem_cons, List.forall_mem_cons, List.forall_mem_singleton]
    exact ⟨isContinuation_tail (by omega), isContinuation_tail (by omega),
      isContinuation_tail (by omega)⟩

theorem utf8EncodeChar_of_ascii {c : Char} (hc : c.toNat < 0x80) :
    String.utf8EncodeChar c = [UInt8.ofNat c.toNat] := by
  rcases utf8EncodeChar_cases c with ⟨-, hbytes⟩ | ⟨hlarge, -⟩
  · exact hbytes
  · exact absurd hc (Nat.not_lt.mpr hlarge)

/-! ## Reading the start of a text -/

theorem run_append (u : Option Unfinished) (as bs : List UInt8) :
    run u (as ++ bs)
      = ((run u as).1 ++ (run (run u as).2 bs).1, (run (run u as).2 bs).2) := by
  induction as generalizing u with
  | nil => rfl
  | cons a as ih => rw [List.cons_append, run, ih, run, List.append_assoc]

theorem decodeFrom_eq (u : Option Unfinished) (bs : List UInt8) :
    decodeFrom u bs = (run u bs).1 ++ flush (run u bs).2 := by
  induction bs generalizing u with
  | nil => rfl
  | cons b bs ih => rw [decodeFrom, ih, run, List.append_assoc]

theorem decodeFrom_append (u : Option Unfinished) (as bs : List UInt8) :
    decodeFrom u (as ++ bs) = (run u as).1 ++ decodeFrom (run u as).2 bs := by
  rw [decodeFrom_eq, run_append, decodeFrom_eq, List.append_assoc]

/-- One byte adds one character at most, an open character being counted as its replacement. -/
theorem length_step_le (u : Option Unfinished) (b : UInt8) :
    (step u b).1.length + (flush (step u b).2).length ≤ (flush u).length + 1 := by
  have hstart : (start b).1.length + (flush (start b).2).length = 1 := by
    rw [start]
    cases Lead.ofByte b <;> rfl
  cases u with
  | none => exact Nat.le_of_eq hstart
  | some u =>
    rw [step]
    dsimp only
    split_ifs with hrange hlast
    · exact Nat.le_succ 1
    · exact Nat.le_succ 1
    · simp only [flush, List.length_cons, List.length_nil] at hstart ⊢
      omega

/-- A byte that finishes no character leaves one open. -/
theorem step_opens {u : Option Unfinished} {b : UInt8} (h : (step u b).1 = []) :
    (step u b).2 ≠ none := by
  have hstart : (start b).1 = [] → (start b).2 ≠ none := by
    rw [start]
    cases Lead.ofByte b <;> simp
  cases u with
  | none => exact hstart h
  | some u =>
    rw [step] at h ⊢
    by_cases hrange : u.low ≤ b ∧ b ≤ u.high
    · simp only [if_pos hrange] at h ⊢
      by_cases hlast : u.missing = 1
      · rw [if_pos hlast] at h
        exact absurd h (List.cons_ne_nil _ _)
      · rw [if_neg hlast]
        exact Option.some_ne_none _
    · rw [if_neg hrange] at h
      exact absurd h (List.cons_ne_nil _ _)

/-- **Bytes that finish no character leave one open.** -/
theorem run_opens {bs : List UInt8} (hne : bs ≠ []) {u : Option Unfinished}
    (h : (run u bs).1 = []) : (run u bs).2 ≠ none := by
  induction bs generalizing u with
  | nil => exact absurd rfl hne
  | cons b bs ih =>
    obtain ⟨hstep, hrest⟩ := List.append_eq_nil_iff.mp h
    cases bs with
    | nil => exact step_opens hstep
    | cons b' bs => exact ih (List.cons_ne_nil _ _) hrest

/-- **A character that is cut off is read as one replacement.** -/
theorem decode_of_cut {as bs : List UInt8} {c : Char} (has : as ≠ []) (hbs : bs ≠ [])
    (h : as ++ bs = String.utf8EncodeChar c) : decode as = [replacement] := by
  have hrun := run_utf8EncodeChar c
  rw [← h, run_append, Prod.mk.injEq] at hrun
  have hsecond : (run (run none as).2 bs).1 ≠ [] := fun hnil => run_opens hbs hnil hrun.2
  have hfirst : (run none as).1 = [] := by
    rcases List.append_eq_singleton_iff.mp hrun.1 with ⟨hfirst, -⟩ | ⟨-, hnil⟩
    · exact hfirst
    · exact absurd hnil hsecond
  obtain ⟨u, hu⟩ := Option.ne_none_iff_exists'.mp (run_opens has hfirst)
  rw [decode, decodeFrom_eq, hfirst, hu]
  rfl

/-- The first byte of a character starts it, and the others continue it. -/
theorem exists_utf8EncodeChar_eq (c : Char) :
    ∃ lead tail, String.utf8EncodeChar c = lead :: tail ∧ isContinuation lead = false ∧
      ∀ b ∈ tail, isContinuation b = true := by
  rcases utf8EncodeChar_cases c with ⟨hascii, hbytes⟩ | ⟨-, lead, tail, hbytes, hlead, -, htail⟩
  · exact ⟨_, [], hbytes, isContinuation_ofNat_of_lt hascii, fun _ h => nomatch h⟩
  · exact ⟨lead, tail, hbytes, hlead, htail⟩

/-- One byte of a character starts it, and it is the first. -/
theorem countP_of_prefix {bs : List UInt8} {c : Char} (hne : bs ≠ [])
    (h : bs <+: String.utf8EncodeChar c) : bs.countP (fun b => !isContinuation b) = 1 := by
  obtain ⟨lead, tail, hbytes, hlead, htail⟩ := exists_utf8EncodeChar_eq c
  obtain ⟨b, bs, rfl⟩ := List.exists_cons_of_ne_nil hne
  rw [hbytes, List.cons_prefix_cons] at h
  obtain ⟨rfl, hstart⟩ := h
  have hnone : bs.countP (fun b => !isContinuation b) = 0 := by
    rw [List.countP_eq_zero]
    intro b hb
    simp [htail b (hstart.subset hb)]
  rw [List.countP_cons, hnone, hlead]
  rfl

/-- **The start of a text is read as one character for each byte that starts one**, whether it ends
between characters or inside one. -/
theorem length_decode_of_prefix {bs : List UInt8} {cs : List Char} (h : bs <+: encode cs) :
    (decode bs).length = bs.countP fun b => !isContinuation b := by
  induction cs generalizing bs with
  | nil =>
    obtain rfl := List.prefix_nil.mp h
    rfl
  | cons c cs ih =>
    rw [encode_cons] at h
    have hchar : String.utf8EncodeChar c <+: String.utf8EncodeChar c ++ encode cs :=
      List.prefix_append _ _
    rcases Nat.lt_or_ge bs.length (String.utf8EncodeChar c).length with hlt | hge
    · -- the text ends inside its first character, or in front of it
      have hstart := List.prefix_of_prefix_length_le h hchar (Nat.le_of_lt hlt)
      obtain ⟨rest, hrest⟩ := hstart
      by_cases hne : bs = []
      · rw [hne]
        rfl
      · have hcut : rest ≠ [] := by
          rintro rfl
          rw [← hrest, List.append_nil] at hlt
          exact Nat.lt_irrefl _ hlt
        rw [decode_of_cut hne hcut hrest, countP_of_prefix hne ⟨rest, hrest⟩]
        rfl
    · obtain ⟨rest, rfl⟩ := List.prefix_of_prefix_length_le hchar h hge
      rw [List.prefix_append_right_inj] at h
      have hone := countP_of_prefix (c := c) String.utf8EncodeChar_ne_nil (List.prefix_refl _)
      rw [decode, decodeFrom_append, run_utf8EncodeChar, List.countP_append, hone, ← ih h,
        List.length_append]
      rfl

theorem feed_mem_utf8EncodeChar {c : Char} (h : 0x0A ∈ String.utf8EncodeChar c) :
    String.utf8EncodeChar c = [0x0A] := by
  rcases utf8EncodeChar_cases c with ⟨-, hbytes⟩ | ⟨-, b, bs, hbytes, -, hhigh, hbs⟩
  · rw [hbytes, List.mem_singleton] at h
    rw [hbytes, ← h]
  · rw [hbytes, List.mem_cons] at h
    rcases h with rfl | h
    · exact absurd hhigh (by decide)
    · exact absurd (hbs _ h) (by decide)

/-- What stands behind a line feed is the start of a text again. -/
theorem exists_prefix_encode_of_feed {front line : List UInt8} {cs : List Char}
    (h : front ++ line <+: encode cs) (hfront : front = [] ∨ front.getLast? = some 0x0A) :
    ∃ ds, line <+: encode ds := by
  induction cs generalizing front with
  | nil =>
    obtain ⟨-, rfl⟩ := List.append_eq_nil_iff.mp (List.prefix_nil.mp h)
    exact ⟨[], List.nil_prefix⟩
  | cons c cs ih =>
    rcases hfront with rfl | hlast
    · exact ⟨c :: cs, h⟩
    · rw [encode_cons] at h
      have hchar : String.utf8EncodeChar c <+: String.utf8EncodeChar c ++ encode cs :=
        List.prefix_append _ _
      have hfront := (List.prefix_append front line).trans h
      -- a line feed is a character of its own, so the first character ends in front of it
      have hstart : String.utf8EncodeChar c <+: front := by
        rcases Nat.lt_or_ge front.length (String.utf8EncodeChar c).length with hlt | hge
        · have hcut := List.prefix_of_prefix_length_le hfront hchar (Nat.le_of_lt hlt)
          have hfeed := feed_mem_utf8EncodeChar (hcut.subset (List.mem_of_getLast? hlast))
          rw [hfeed, List.length_singleton, Nat.lt_one_iff, List.length_eq_zero_iff] at hlt
          rw [hlt] at hlast
          exact nomatch hlast
        · exact List.prefix_of_prefix_length_le hchar hfront hge
      obtain ⟨rest, rfl⟩ := hstart
      rw [List.append_assoc, List.prefix_append_right_inj] at h
      refine ih h ?_
      by_cases hne : rest = []
      · exact Or.inl hne
      · rw [List.getLast?_append_of_ne_nil _ hne] at hlast
        exact Or.inr hlast

end StagedDiagnostics.Utf8
