import Mathlib.Data.List.GetD
import StagedDiagnostics.Proofs.Source.Location

/-!
# Proofs/Source/LineTable — an offset is found without passing over the text

    offset ──bisect──▸ line ──lineStarts──▸ start of the line ──decode──▸ column

The offsets at which lines start are indexed once, and a search by halves among them gives the line
of an offset: it counts the starts that are not beyond the offset (`bisect_eq_countP`), and so many
lines a cursor has come to on its way there.  The column is then read off the stretch from the start
of the line to the offset.  Both ways meet in the same place (`locate_eq_bisect`).
-/

namespace StagedDiagnostics

/-! ## Search by halves -/

/-- Halves the stretch from `lo` to `hi` until it is empty, keeping below it numbers that are not
beyond `x` and above it numbers that are. -/
def bisect (xs : List ℕ) (x lo hi : ℕ) : ℕ :=
  if lo < hi then
    if x < xs.getD ((lo + hi) / 2) 0 then bisect xs x lo ((lo + hi) / 2)
    else bisect xs x ((lo + hi) / 2 + 1) hi
  else lo
termination_by hi - lo

/-- The numbers that are not beyond `x` come first, so their count tells where they end. -/
theorem getD_le_iff {xs : List ℕ} (hs : xs.Pairwise (· < ·)) {i x : ℕ} (hi : i < xs.length) :
    xs.getD i 0 ≤ x ↔ i < xs.countP (· ≤ x) := by
  induction hs generalizing i with
  | nil => cases hi
  | @cons y ys hy _ ih =>
    by_cases hx : y ≤ x
    · have hcount : (y :: ys).countP (· ≤ x) = ys.countP (· ≤ x) + 1 :=
        List.countP_cons_of_pos (decide_eq_true hx)
      rw [hcount]
      cases i with
      | zero => simp [hx]
      | succ i => simpa using ih (Nat.lt_of_succ_lt_succ hi)
    · -- what comes after `y` is beyond `x` as well
      have hbeyond : ∀ z ∈ y :: ys, ¬ z ≤ x := by
        intro z hz
        rcases List.mem_cons.mp hz with rfl | hz
        · exact hx
        · exact fun hzx => hx ((hy z hz).le.trans hzx)
      have hcount : (y :: ys).countP (· ≤ x) = 0 :=
        List.countP_eq_zero.mpr fun z hz => by simpa using hbeyond z hz
      rw [hcount, List.getD_eq_getElem _ _ hi]
      exact iff_of_false (hbeyond _ (List.getElem_mem hi)) (Nat.not_lt_zero i)

/-- **The search finds how many numbers are not beyond `x`**, if their end lies in its stretch. -/
theorem bisect_eq_countP {xs : List ℕ} (hs : xs.Pairwise (· < ·)) {x lo hi : ℕ}
    (hlo : lo ≤ xs.countP (· ≤ x)) (hhi : xs.countP (· ≤ x) ≤ hi) (hlen : hi ≤ xs.length) :
    bisect xs x lo hi = xs.countP (· ≤ x) := by
  fun_induction bisect xs x lo hi with
  | case1 lo hi hlt hmid ih =>
    have hend := (getD_le_iff hs (show (lo + hi) / 2 < xs.length by omega)).not.mp hmid.not_ge
    exact ih hlo (Nat.not_lt.mp hend) (by omega)
  | case2 lo hi hlt hmid ih =>
    have hend := (getD_le_iff hs (show (lo + hi) / 2 < xs.length by omega)).mp (Nat.not_lt.mp hmid)
    exact ih hend hhi hlen
  | case3 lo hi hge => omega

namespace Source

/-! ## The table -/

/-- The offsets behind the line feeds of some bytes, the first of which stands at `n`. -/
def startsFrom (n : ℕ) : List UInt8 → List ℕ
  | [] => []
  | b :: bs => if b = 0x0A then (n + 1) :: startsFrom (n + 1) bs else startsFrom (n + 1) bs

/-- The offsets at which the lines of a text start. -/
def lineStarts (s : Source) : List ℕ := 0 :: startsFrom 0 s.bytes

theorem lt_of_mem_startsFrom {n m : ℕ} {bs : List UInt8} (h : m ∈ startsFrom n bs) : n < m := by
  induction bs generalizing n with
  | nil => cases h
  | cons b bs ih =>
    rw [startsFrom] at h
    split at h
    · rcases List.mem_cons.mp h with rfl | h
      · exact Nat.lt_succ_self n
      · exact (Nat.lt_succ_self n).trans (ih h)
    · exact (Nat.lt_succ_self n).trans (ih h)

theorem pairwise_startsFrom (n : ℕ) (bs : List UInt8) : (startsFrom n bs).Pairwise (· < ·) := by
  induction bs generalizing n with
  | nil => exact List.Pairwise.nil
  | cons b bs ih =>
    rw [startsFrom]
    split
    · exact List.pairwise_cons.mpr ⟨fun m hm => lt_of_mem_startsFrom hm, ih (n + 1)⟩
    · exact ih (n + 1)

theorem pairwise_lineStarts (s : Source) : s.lineStarts.Pairwise (· < ·) :=
  List.pairwise_cons.mpr ⟨fun _ hm => lt_of_mem_startsFrom hm, pairwise_startsFrom 0 s.bytes⟩

theorem length_startsFrom (n : ℕ) (bs : List UInt8) :
    (startsFrom n bs).length = bs.count 0x0A := by
  induction bs generalizing n with
  | nil => rfl
  | cons b bs ih =>
    rw [startsFrom]
    by_cases h : b = 0x0A
    · rw [if_pos h, List.length_cons, ih, h, List.count_cons_self]
    · rw [if_neg h, ih, List.count_cons_of_ne h]

/-- **The table has a start for every line.** -/
theorem length_lineStarts (s : Source) : s.lineStarts.length = s.lineCount := by
  rw [lineStarts, List.length_cons, length_startsFrom, lineCount]

theorem startsFrom_append (n : ℕ) (as bs : List UInt8) :
    startsFrom n (as ++ bs) = startsFrom n as ++ startsFrom (n + as.length) bs := by
  induction as generalizing n with
  | nil => rfl
  | cons a as ih =>
    have hlength : n + 1 + as.length = n + (a :: as).length := by
      rw [List.length_cons]
      omega
    rw [List.cons_append, startsFrom, startsFrom, ih, hlength]
    split <;> rfl

/-! ## The line of an offset -/

/-- The starts that are not beyond the first bytes are those behind the line feeds among them. -/
theorem countP_startsFrom (n k : ℕ) (bs : List UInt8) :
    (startsFrom n bs).countP (· ≤ n + k) = (bs.take k).count 0x0A := by
  induction bs generalizing n k with
  | nil => simp [startsFrom]
  | cons b bs ih =>
    cases k with
    | zero =>
      rw [List.take_zero, List.count_nil]
      refine List.countP_eq_zero.mpr fun m hm => ?_
      simpa using lt_of_mem_startsFrom hm
    | succ k =>
      have hrest := ih (n + 1) k
      rw [Nat.succ_add_eq_add_succ] at hrest
      rw [startsFrom, List.take_succ_cons]
      by_cases h : b = 0x0A
      · rw [if_pos h, h, List.count_cons_self, ← hrest, List.countP_cons_of_pos (by simp)]
      · rw [if_neg h, List.count_cons_of_ne h, ← hrest]

/-- A line is the number of starts that are not beyond the offset. -/
theorem line_locate_eq_countP (s : Source) (offset : ℤ) :
    (s.locate offset).line = s.lineStarts.countP (· ≤ s.clamp offset) := by
  have hcount := countP_startsFrom 0 (s.clamp offset) s.bytes
  rw [Nat.zero_add] at hcount
  rw [lineStarts, List.countP_cons_of_pos (by simp), hcount, line_locate_eq_count, Nat.add_comm]

/-! ## The start of its line -/

/-- The last start among some bytes is behind their last line feed. -/
theorem getLast_startsFrom (bs : List UInt8) :
    (0 :: startsFrom 0 bs).getLast (List.cons_ne_nil _ _)
      = (bs.rdropWhile (· ≠ 0x0A)).length := by
  induction bs using List.reverseRecOn with
  | nil => rfl
  | append_singleton bs b ih =>
    rw [List.rdropWhile_concat]
    by_cases h : b = 0x0A
    · simp [startsFrom_append, startsFrom, h]
    · simpa [startsFrom_append, startsFrom, h] using ih

/-- The line of an offset starts where its stretch up to the offset does. -/
theorem getElem?_lineStarts (s : Source) (offset : ℤ) :
    s.lineStarts[(s.locate offset).line - 1]?
      = some ((s.bytes.take (s.clamp offset)).rdropWhile (· ≠ 0x0A)).length := by
  have htable : s.lineStarts = (0 :: startsFrom 0 (s.bytes.take (s.clamp offset)))
      ++ startsFrom (s.bytes.take (s.clamp offset)).length (s.bytes.drop (s.clamp offset)) := by
    rw [List.cons_append, ← Nat.zero_add (List.length _), ← startsFrom_append,
      List.take_append_drop, lineStarts]
  have hindex : (s.locate offset).line - 1
      = (0 :: startsFrom 0 (s.bytes.take (s.clamp offset))).length - 1 := by
    rw [line_locate_eq_count, List.length_cons, length_startsFrom, Nat.add_sub_cancel_left, Nat.add_sub_cancel]
  rw [htable, hindex, List.getElem?_append_left (Nat.sub_one_lt (by simp)),
    ← List.getLast?_eq_getElem?, List.getLast?_eq_some_getLast (List.cons_ne_nil _ _),
    getLast_startsFrom]

/-- What is behind the last line feed is what was taken from the end. -/
theorem drop_length_rdropWhile (p : UInt8 → Bool) (bs : List UInt8) :
    bs.drop (bs.rdropWhile p).length = bs.rtakeWhile p := by
  have hdrop : (bs.rdropWhile p ++ bs.rtakeWhile p).drop (bs.rdropWhile p).length
      = bs.rtakeWhile p := List.drop_left
  rwa [List.rdropWhile_append_rtakeWhile] at hdrop

/-- **An offset lies where the table says**: the search among the line starts gives its line, the
table the start of that line, and the column counts the characters that the bytes from there are
read as. -/
theorem locate_eq_bisect (s : Source) (offset : ℤ) :
    ∃ i start, bisect s.lineStarts (s.clamp offset) 0 s.lineStarts.length = i + 1 ∧
      s.lineStarts[i]? = some start ∧
      s.locate offset
        = ⟨i + 1, 1 + (Utf8.decode ((s.bytes.take (s.clamp offset)).drop start)).length,
            s.clamp offset, s.filename⟩ := by
  obtain ⟨hpos, -⟩ := s.line_locate offset
  have hline := s.line_locate_eq_countP offset
  refine ⟨(s.locate offset).line - 1, _, ?_, s.getElem?_lineStarts offset, ?_⟩
  · rw [bisect_eq_countP s.pairwise_lineStarts (Nat.zero_le _) List.countP_le_length
      (Nat.le_refl _), ← hline, Nat.sub_add_cancel hpos]
  · rw [drop_length_rdropWhile, ← linePrefix, ← column_locate, Nat.sub_add_cancel hpos]
    rfl

end Source

end StagedDiagnostics
