import Mathlib.Tactic.ByContra
import StagedDiagnostics.Publication

/-!
# Proofs/Cache/Lookup — what the writers of the cache do to a single entry

`passes` forgets the difference between a document without passes, one that is not subject to
analysis, and one the cache does not know.  Here it is kept: `get?_record` and `get?_discard` say
what becomes of the entry of *each* document, and everything else about the writers follows from
them.
-/

namespace StagedDiagnostics.Cache

/-! ## One entry after a write -/

theorem get?_append (p : Pass) (c : Cache) (uri other : Uri) :
    (append p c uri).get? other
      = if uri = other then some (.passes (c.passes other ++ [p])) else c.get? other := by
  rw [append, Table.modify, Table.get?_insert]
  split
  · rename_i h
    subst h
    rfl
  · rfl

/-- Putting a pass behind the passes of several documents leaves every other entry alone. -/
theorem get?_foldl_append (p : Pass) {uris : List Uri} (hn : uris.Nodup) (c : Cache)
    (other : Uri) :
    (uris.foldl (append p) c).get? other
      = if other ∈ uris then some (.passes (c.passes other ++ [p])) else c.get? other := by
  induction uris generalizing c with
  | nil => rfl
  | cons uri uris ih =>
    obtain ⟨hmem, hn⟩ := List.nodup_cons.mp hn
    rw [List.foldl_cons, ih hn, passes_append, get?_append]
    by_cases h : uri = other
    · subst h
      simp [hmem]
    · have h' : ¬ other = uri := fun ho => h ho.symm
      simp [h, h']

/-- **A recorded pass replaces the entry of every document it covers**, and takes the earlier pass
of its own entry out of all others. -/
theorem get?_record (c : Cache) (p : Pass) (uri : Uri) :
    (c.record p).get? uri
      = if p.covers uri
        then some (.passes (((c.passes uri).filter fun q => q.entry ≠ p.entry) ++ [p]))
        else (c.get? uri).map (Entry.without p.entry) := by
  rw [record, get?_foldl_append p p.nodup_uris, passes_strip, strip, Table.get?_map]
  simp only [p.mem_uris_iff]

/-- One close leaves a list of passes if one of them stays, or if there was none to lose. -/
theorem remains_passes (closed uri : Uri) (ps : List Pass) :
    remains closed uri (.passes ps)
      = if (∃ p ∈ ps, p.entry ≠ closed) ∨ (ps = [] ∧ uri ≠ closed) then
          some (.passes (ps.filter fun p => p.entry ≠ closed))
        else none := by
  rw [remains, Entry.without]
  cases hkept : ps.filter fun p => p.entry ≠ closed with
  | nil =>
    have hall : ∀ p ∈ ps, p.entry = closed := by simpa using hkept
    cases ps with
    | nil => by_cases h : uri = closed <;> simp [h, Entry.startedFrom]
    | cons p ps =>
      have hnone : ¬ ∃ q ∈ p :: ps, q.entry ≠ closed := by
        rintro ⟨q, hq, hne⟩
        exact hne (hall q hq)
      simp only [hnone, Entry.startedFrom, Entry.toList_passes, List.any_cons,
        hall p List.mem_cons_self, decide_true, Bool.true_or, or_true, if_true, reduceCtorEq,
        false_and, or_false, if_false]
  | cons q qs =>
    have hstays : ∃ p ∈ ps, p.entry ≠ closed := by
      have hq : q ∈ ps.filter fun p => p.entry ≠ closed := hkept ▸ List.mem_cons_self
      exact ⟨q, (List.mem_filter.mp hq).1, of_decide_eq_true (List.mem_filter.mp hq).2⟩
    rw [if_pos (Or.inl hstays)]

/-- An entry that has no pass to lose stays as it is, that of the closed document apart. -/
theorem remains_eq_self {closed uri : Uri} (huri : uri ≠ closed) {e : Entry}
    (he : ∀ p ∈ e.toList, p.entry ≠ closed) : remains closed uri e = some e := by
  cases e with
  | outOfScope => simp [remains, Entry.without, huri]
  | passes ps =>
    have hkept : (ps.filter fun p => p.entry ≠ closed) = ps :=
      List.filter_eq_self.mpr fun p hp => decide_eq_true (he p hp)
    rw [remains_passes, hkept, if_pos]
    cases ps with
    | nil => exact Or.inr ⟨rfl, huri⟩
    | cons p ps => exact Or.inl ⟨p, List.mem_cons_self, he p List.mem_cons_self⟩

/-- **A closed document acts on each entry alone.** -/
theorem get?_discard {c : Cache} {closed : Uri} (h : c.contains closed = true) (uri : Uri) :
    (c.discard closed).1.get? uri = (c.get? uri).bind (remains closed uri) := by
  rw [discard, if_pos h, Table.get?_filterMap]

theorem passes_eq_nil_of_not_contains {c : Cache} {uri : Uri} (h : ¬ c.contains uri = true) :
    c.passes uri = [] := by
  rw [passes, Option.not_isSome_iff_eq_none.mp h]
  rfl

/-- After a record a document holds the new pass, if this covers it, and its passes of other
entries. -/
theorem mem_passes_record_iff {c : Cache} {p q : Pass} {uri : Uri} :
    q ∈ (c.record p).passes uri ↔
      q ∈ c.passes uri ∧ q.entry ≠ p.entry ∨ q = p ∧ p.covers uri = true := by
  rw [passes_record, List.mem_append, List.mem_filter, decide_eq_true_eq]
  split <;> simp_all

/-! ## Which documents the cache knows -/

theorem contains_of_mem_passes {c : Cache} {uri : Uri} {p : Pass} (h : p ∈ c.passes uri) :
    c.contains uri = true := by
  by_contra hc
  rw [passes_eq_nil_of_not_contains hc] at h
  cases h

theorem contains_markOutOfScope_iff (c : Cache) (uri other : Uri) :
    (c.markOutOfScope uri).contains other = true ↔ uri = other ∨ c.contains other = true := by
  rw [markOutOfScope, Table.contains, Table.get?_insert]
  split <;> simp_all [Table.contains]

/-- A recorded pass makes the documents it covers known, and no document unknown. -/
theorem contains_record_iff (c : Cache) (p : Pass) (uri : Uri) :
    (c.record p).contains uri = true ↔ p.covers uri = true ∨ c.contains uri = true := by
  rw [Table.contains, get?_record]
  split <;> simp_all [Table.contains]

/-- **What a close leaves known**: the documents that keep a pass, and those that had no pass to
lose, the closed one apart. -/
theorem contains_discard_iff {c : Cache} {closed : Uri} (h : c.contains closed = true) (uri : Uri) :
    (c.discard closed).1.contains uri = true ↔
      (∃ p ∈ c.passes uri, p.entry ≠ closed) ∨
        uri ≠ closed ∧ c.contains uri = true ∧ c.passes uri = [] := by
  rw [Table.contains, get?_discard h, Table.contains, passes]
  cases c.get? uri with
  | none => simp
  | some e =>
    cases e with
    | outOfScope =>
      by_cases hu : uri = closed <;> simp [remains, Entry.without, hu]
    | passes ps =>
      simp only [Option.bind_some, remains_passes, Option.map_some, Entry.toList_passes,
        Option.getD_some, Option.isSome_some, true_and]
      split
      · rename_i hstays
        exact ⟨fun _ => hstays.imp_right And.symm, fun _ => rfl⟩
      · rename_i hgone
        exact iff_of_false Bool.false_ne_true fun h => hgone (h.imp_right And.symm)

/-! ## Documents that are subject to analysis -/

/-- A document is in scope if the cache has a list of passes for it, be it empty. -/
def InScope (c : Cache) (uri : Uri) : Prop := ∃ ps, c.get? uri = some (.passes ps)

/-- A document that is not in scope is shown nothing. -/
theorem full_eq_nil_of_not_inScope {c : Cache} {uri : Uri} (h : ¬ c.InScope uri) :
    c.full uri = [] := by
  rw [full, passes]
  cases he : c.get? uri with
  | none => rfl
  | some e =>
    cases e with
    | outOfScope => rfl
    | passes ps => exact absurd ⟨ps, he⟩ h

/-- No recorded pass takes a document out of scope. -/
theorem InScope.record {c : Cache} {uri : Uri} (h : c.InScope uri) (p : Pass) :
    (c.record p).InScope uri := by
  obtain ⟨ps, hps⟩ := h
  rw [InScope, get?_record]
  split
  · exact ⟨_, rfl⟩
  · exact ⟨_, by rw [hps]; rfl⟩

/-- The sweep goes over the documents in scope. -/
theorem mem_subjects_iff (c : Cache) (uri : Uri) :
    uri ∈ Publication.subjects c ↔ c.InScope uri := by
  rw [Publication.subjects, List.mem_filterMap, InScope]
  constructor
  · rintro ⟨⟨other, e⟩, hmem, he⟩
    cases e with
    | outOfScope => simp at he
    | passes ps =>
      obtain rfl : other = uri := by simpa using he
      exact ⟨ps, (c.get?_eq_some_iff other _).mpr hmem⟩
  · rintro ⟨ps, hps⟩
    exact ⟨(uri, .passes ps), (c.get?_eq_some_iff uri _).mp hps, rfl⟩

/-- …each of them once, since no key stands twice. -/
theorem nodup_subjects (c : Cache) : (Publication.subjects c).Nodup := by
  have hsub : (Publication.subjects c).Sublist c.keys := by
    rw [Publication.subjects, Table.keys, ← List.filterMap_eq_map]
    induction c.entries with
    | nil => exact List.Sublist.slnil
    | cons e es ih =>
      obtain ⟨uri, e⟩ := e
      cases e with
      | outOfScope => exact ih.cons uri
      | passes ps => exact ih.cons_cons uri
  exact c.nodup_keys.sublist hsub

/-- What a close reports are the documents with a pass started from the closed one. -/
theorem mem_startedFrom_iff (c : Cache) (closed uri : Uri) :
    uri ∈ c.startedFrom closed ↔ ∃ p ∈ c.passes uri, p.entry = closed := by
  rw [startedFrom, List.mem_map]
  constructor
  · rintro ⟨⟨other, e⟩, hmem, rfl⟩
    obtain ⟨hmem, hs⟩ := List.mem_filter.mp hmem
    obtain ⟨p, hp, hclosed⟩ := List.any_eq_true.mp hs
    refine ⟨p, ?_, of_decide_eq_true hclosed⟩
    rwa [passes_eq_of_get? ((c.get?_eq_some_iff other e).mpr hmem)]
  · rintro ⟨p, hp, hclosed⟩
    cases he : c.get? uri with
    | none => simp [passes, he] at hp
    | some e =>
      rw [passes_eq_of_get? he] at hp
      refine ⟨(uri, e), List.mem_filter.mpr ⟨(c.get?_eq_some_iff uri e).mp he, ?_⟩, rfl⟩
      exact List.any_eq_true.mpr ⟨p, hp, decide_eq_true hclosed⟩

/-- A document that a close does not report keeps its passes. -/
theorem passes_discard_of_not_mem {c : Cache} {closed uri : Uri}
    (h : uri ∉ (c.discard closed).2) : (c.discard closed).1.passes uri = c.passes uri := by
  by_cases hc : c.contains closed = true
  · rw [discard, if_pos hc, mem_startedFrom_iff] at h
    rw [passes_discard hc]
    exact List.filter_eq_self.mpr fun p hp => decide_eq_true fun he => h ⟨p, hp, he⟩
  · rw [discard_of_not_contains hc]

end StagedDiagnostics.Cache
