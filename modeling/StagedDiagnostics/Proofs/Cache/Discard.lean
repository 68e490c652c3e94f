import StagedDiagnostics.Proofs.Cache.Lookup

/-!
# Proofs/Cache/Discard — a close tells what it has changed

    before ──discard──▸ after, changed

Nothing is assumed about the cache: an entry may be empty or a mark, it may hold passes of several
entries, and one pass twice.  A close filters every list of passes, so a list that is not told of is
the list it was, and an entry goes only if it is left without passes.  The early exit fits in: it
changes nothing and tells of nothing.

* `mem_changed_iff` — a document is told of if the closed one is known and had started a pass of it;
* `get?_discard_of_not_mem` — every other entry stays, that of the closed document apart.
-/

namespace StagedDiagnostics.Cache

variable {c : Cache} {closed uri : Uri}

/-! ## The documents that are told of -/

theorem mem_changed_iff :
    uri ∈ (c.discard closed).2 ↔
      c.contains closed = true ∧ ∃ p ∈ c.passes uri, p.entry = closed := by
  by_cases hc : c.contains closed = true
  · rw [discard, if_pos hc, mem_startedFrom_iff, and_iff_right hc]
  · rw [discard_of_not_contains hc]
    exact iff_of_false List.not_mem_nil fun h => hc h.1

/-- The documents that are told of stand in the order of the cache. -/
theorem changed_sublist (c : Cache) (closed : Uri) : (c.discard closed).2.Sublist c.keys := by
  by_cases hc : c.contains closed = true
  · rw [discard, if_pos hc]
    exact List.filter_sublist.map Prod.fst
  · rw [discard_of_not_contains hc]
    exact List.nil_sublist c.keys

theorem passes_discard_of_mem (h : uri ∈ (c.discard closed).2) :
    (c.discard closed).1.passes uri = (c.passes uri).filter fun p => p.entry ≠ closed :=
  passes_discard (mem_changed_iff.mp h).1 uri

/-- **A document is told of exactly if its passes are others than before.** -/
theorem mem_changed_iff_passes_ne :
    uri ∈ (c.discard closed).2 ↔ (c.discard closed).1.passes uri ≠ c.passes uri := by
  constructor
  · intro h hsame
    obtain ⟨p, hp, hclosed⟩ := (mem_changed_iff.mp h).2
    rw [passes_discard_of_mem h] at hsame
    exact of_decide_eq_true (List.filter_eq_self.mp hsame p hp) hclosed
  · intro hne
    by_contra h
    exact hne (passes_discard_of_not_mem h)

/-! ## The entries that stay -/

/-- **An entry that is not told of stays as it is**, that of the closed document apart. -/
theorem get?_discard_of_not_mem (huri : uri ≠ closed) (h : uri ∉ (c.discard closed).2) :
    (c.discard closed).1.get? uri = c.get? uri := by
  by_cases hc : c.contains closed = true
  · rw [get?_discard hc]
    cases he : c.get? uri with
    | none => rfl
    | some e =>
      refine remains_eq_self huri fun p hp hclosed => h (mem_changed_iff.mpr ⟨hc, p, ?_, hclosed⟩)
      rwa [passes_eq_of_get? he]
  · rw [discard_of_not_contains hc]

/-- No entry is put in another place. -/
theorem keys_discard_sublist (c : Cache) (closed : Uri) :
    (c.discard closed).1.keys.Sublist c.keys := by
  by_cases hc : c.contains closed = true
  · rw [discard, if_pos hc]
    exact c.keys_filterMap_sublist _
  · simp only [discard_of_not_contains hc, List.Sublist.refl]

/-- A document that is told of, and the closed one, stay known only where a pass is left. -/
theorem contains_discard_iff_passes_ne_nil (h : uri ∈ (c.discard closed).2 ∨ uri = closed) :
    (c.discard closed).1.contains uri = true ↔ (c.discard closed).1.passes uri ≠ [] := by
  by_cases hc : c.contains closed = true
  · have hidle : ¬ (uri ≠ closed ∧ c.contains uri = true ∧ c.passes uri = []) := by
      rintro ⟨hne, -, hnil⟩
      obtain ⟨p, hp, -⟩ := (mem_changed_iff.mp (h.resolve_right hne)).2
      rw [hnil] at hp
      cases hp
    rw [contains_discard_iff hc, or_iff_left hidle, passes_discard hc]
    simp [List.filter_eq_nil_iff]
  · have huri : uri = closed := h.resolve_left fun hmem => hc (mem_changed_iff.mp hmem).1
    rw [discard_of_not_contains hc, huri]
    exact iff_of_false hc fun hne => hne (passes_eq_nil_of_not_contains hc)

/-! ## What a close tells -/

/-- A list of documents tells what the close of a document has made of a cache. -/
structure TellsClose (before : Cache) (closed : Uri) (after : Cache) (changed : List Uri) :
    Prop where
  /-- The documents stand in the order of the cache… -/
  ordered : changed.Sublist before.keys
  /-- …and none of them twice. -/
  nodup : changed.Nodup
  /-- They are those whose list of passes is another one than before. -/
  mem_iff : ∀ uri, uri ∈ changed ↔ after.passes uri ≠ before.passes uri
  /-- A list loses the passes started from the closed document and keeps the others in order. -/
  passes : ∀ uri ∈ changed, after.passes uri = (before.passes uri).filter fun p => p.entry ≠ closed
  /-- If the cache knew the closed document, no pass started from it is left anywhere. -/
  dropped : before.contains closed = true → ∀ uri, ∀ p ∈ after.passes uri, p.entry ≠ closed
  /-- What is left without passes is forgotten. -/
  emptied : ∀ uri, uri ∈ changed ∨ uri = closed →
    (after.contains uri = true ↔ after.passes uri ≠ [])
  /-- Every other entry is what it was, be it empty or a mark. -/
  entry : ∀ uri, uri ≠ closed → uri ∉ changed → after.get? uri = before.get? uri
  /-- The entries that are left stand in the order they had. -/
  keys : after.keys.Sublist before.keys
  /-- A document that is not told of is shown what it was shown. -/
  full : ∀ uri ∉ changed, after.full uri = before.full uri

/-- **A close tells exactly what it has changed**, of every cache and every document. -/
theorem tellsClose_discard (c : Cache) (closed : Uri) :
    TellsClose c closed (c.discard closed).1 (c.discard closed).2 where
  ordered := changed_sublist c closed
  nodup := c.nodup_keys.sublist (changed_sublist c closed)
  mem_iff _ := mem_changed_iff_passes_ne
  passes _ := passes_discard_of_mem
  dropped hc uri p hp := by
    rw [passes_discard hc, List.mem_filter, decide_eq_true_eq] at hp
    exact hp.2
  emptied _ := contains_discard_iff_passes_ne_nil
  entry _ := get?_discard_of_not_mem
  keys := keys_discard_sublist c closed
  full uri h := by rw [Cache.full, passes_discard_of_not_mem h, Cache.full]

/-- An entry without passes and a mark stay; a pass that stands twice goes twice, and one started
from another document stays. -/
example :
    let own : Pass := ⟨"untitled:a", Buckets.seed ["untitled:b", "untitled:c"]⟩
    let other : Pass := ⟨"untitled:b", Buckets.seed ["untitled:b"]⟩
    let c := Table.ofList [("untitled:d", .passes []), ("untitled:b", .passes [own, other, own]),
      ("untitled:a", .outOfScope), ("untitled:e", .outOfScope), ("untitled:c", .passes [own])]
    (discard c "untitled:a").2 = ["untitled:b", "untitled:c"] ∧
      (discard c "untitled:a").1.keys = ["untitled:d", "untitled:b", "untitled:e"] ∧
      ((discard c "untitled:a").1.passes "untitled:b").map Pass.entry = ["untitled:b"] := by
  decide +kernel

end StagedDiagnostics.Cache
