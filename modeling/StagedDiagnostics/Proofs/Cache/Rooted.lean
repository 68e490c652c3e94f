import StagedDiagnostics.Proofs.Cache.Lookup

/-!
# Proofs/Cache/Rooted — every pass stands with its own document

A close looks up the closed document first and does nothing if the cache does not know it.  So it
leaves passes of that document behind wherever others hold them (`holds_discard_iff`).  This is
harmless in a **rooted** cache, where every pass also stands with the document it was started from:
a document the cache does not know has then started no pass of it.  There a close acts on each entry
alone (`Rooted.discard_eq`), and it leaves a rooted cache (`Rooted.discard`).  What other writes have
to respect for this is said exactly by `rooted_record_iff` and `rooted_insert_iff`.
-/

namespace StagedDiagnostics.Cache

/-- Every pass of the cache also stands with the document it was started from. -/
def Rooted (c : Cache) : Prop := ∀ uri, ∀ p ∈ c.passes uri, p ∈ c.passes p.entry

/-- Some document holds a pass started from `entry`. -/
def Holds (c : Cache) (entry : Uri) : Prop := ∃ uri, ∃ p ∈ c.passes uri, p.entry = entry

/-- A rooted cache knows every document whose passes it holds. -/
theorem Rooted.contains_of_holds {c : Cache} (h : c.Rooted) {entry : Uri} (he : c.Holds entry) :
    c.contains entry = true := by
  obtain ⟨uri, p, hp, rfl⟩ := he
  exact contains_of_mem_passes (h uri p hp)

/-- A document the cache does not know has started no pass of it. -/
theorem Rooted.entry_ne {c : Cache} (h : c.Rooted) {closed : Uri}
    (hc : ¬ c.contains closed = true) {uri : Uri} {p : Pass} (hp : p ∈ c.passes uri) :
    p.entry ≠ closed :=
  fun hclosed => hc (h.contains_of_holds ⟨uri, p, hp, hclosed⟩)

/-! ## What a close takes along -/

/-- **A close leaves passes of the closed document behind exactly if the cache holds some and does
not know the document.** -/
theorem holds_discard_iff (c : Cache) (closed : Uri) :
    (c.discard closed).1.Holds closed ↔ ¬ c.contains closed = true ∧ c.Holds closed := by
  by_cases hc : c.contains closed = true
  · refine iff_of_false ?_ fun h => h.1 hc
    rintro ⟨uri, p, hp, hclosed⟩
    rw [passes_discard hc, List.mem_filter, decide_eq_true_eq] at hp
    exact hp.2 hclosed
  · rw [discard_of_not_contains hc, and_iff_right hc]

/-- A close of a rooted cache leaves none behind. -/
theorem Rooted.not_holds_discard {c : Cache} (h : c.Rooted) (closed : Uri) :
    ¬ (c.discard closed).1.Holds closed := by
  intro hleft
  obtain ⟨hunknown, hheld⟩ := (holds_discard_iff c closed).mp hleft
  exact hunknown (h.contains_of_holds hheld)

/-- **A close takes the passes of the closed document along**, whether or not the cache knows the
document. -/
theorem Rooted.passes_discard {c : Cache} (h : c.Rooted) (closed uri : Uri) :
    (c.discard closed).1.passes uri = (c.passes uri).filter fun p => p.entry ≠ closed := by
  by_cases hc : c.contains closed = true
  · exact Cache.passes_discard hc uri
  · rw [discard_of_not_contains hc]
    exact (List.filter_eq_self.mpr fun p hp => decide_eq_true (h.entry_ne hc hp)).symm

/-- …and leaves known what keeps a pass or had none to lose, the closed document apart. -/
theorem Rooted.contains_discard_iff {c : Cache} (h : c.Rooted) (closed uri : Uri) :
    (c.discard closed).1.contains uri = true ↔
      (∃ p ∈ c.passes uri, p.entry ≠ closed) ∨
        uri ≠ closed ∧ c.contains uri = true ∧ c.passes uri = [] := by
  by_cases hc : c.contains closed = true
  · exact Cache.contains_discard_iff hc uri
  · rw [discard_of_not_contains hc]
    constructor
    · intro hu
      rcases List.eq_nil_or_concat (c.passes uri) with hnil | ⟨ps, p, hps⟩
      · exact Or.inr ⟨fun heq => hc (heq ▸ hu), hu, hnil⟩
      · have hp : p ∈ c.passes uri := by simp [hps]
        exact Or.inl ⟨p, hp, h.entry_ne hc hp⟩
    · rintro (⟨p, hp, -⟩ | ⟨-, hu, -⟩)
      · exact contains_of_mem_passes hp
      · exact hu

/-- **A close acts on each entry alone**, whether or not the cache knows the closed document. -/
theorem Rooted.discard_eq {c : Cache} (h : c.Rooted) (closed : Uri) :
    (c.discard closed).1 = c.filterMap (remains closed) := by
  by_cases hc : c.contains closed = true
  · rw [discard, if_pos hc]
  · rw [discard_of_not_contains hc]
    refine (Table.filterMap_eq_self fun uri e he => remains_eq_self ?_ fun p hp => ?_).symm
    · rintro rfl
      exact hc (by rw [Table.contains, he]; rfl)
    · rw [← passes_eq_of_get? he] at hp
      exact h.entry_ne hc hp

/-- A close leaves a rooted cache. -/
theorem Rooted.discard {c : Cache} (h : c.Rooted) (closed : Uri) : (c.discard closed).1.Rooted := by
  intro uri p hp
  rw [h.passes_discard, List.mem_filter] at hp ⊢
  exact ⟨h uri p hp.1, hp.2⟩

/-! ## Writes that keep a cache rooted -/

variable {c : Cache}

/-- A document may take these passes: the ones started from other documents stand there already, and
its own passes that stand elsewhere are among them. -/
def Takes (c : Cache) (uri : Uri) (ps : List Pass) : Prop :=
  (∀ p ∈ ps, p.entry ≠ uri → p ∈ c.passes p.entry) ∧
    ∀ other, other ≠ uri → ∀ p ∈ c.passes other, p.entry = uri → p ∈ ps

theorem rooted_insert_iff (h : c.Rooted) (uri : Uri) (e : Entry) :
    Rooted (c.insert uri e) ↔ c.Takes uri e.toList := by
  have hown : passes (c.insert uri e) uri = e.toList := by rw [passes_insert, if_pos rfl]
  have hother (other : Uri) (hne : other ≠ uri) :
      passes (c.insert uri e) other = c.passes other := by rw [passes_insert, if_neg hne.symm]
  constructor
  · intro hafter
    constructor
    · intro p hp hne
      rw [← hown] at hp
      have hroot := hafter uri p hp
      rwa [hother p.entry hne] at hroot
    · rintro other hne p hp rfl
      rw [← hother other hne] at hp
      have hroot := hafter other p hp
      rwa [hown] at hroot
  · rintro ⟨hforeign, hlocal⟩ other p hp
    by_cases hentry : p.entry = uri
    · rw [hentry, hown]
      by_cases hne : other = uri
      · rwa [hne, hown] at hp
      · exact hlocal other hne p (hother other hne ▸ hp) hentry
    · rw [hother p.entry hentry]
      by_cases hne : other = uri
      · rw [hne, hown] at hp
        exact hforeign p hp hentry
      · exact h other p (hother other hne ▸ hp)

theorem rooted_record_iff (h : c.Rooted) (p : Pass) :
    (c.record p).Rooted ↔ p.covers p.entry = true ∨ p.uris = [] := by
  constructor
  · intro hafter
    rcases List.eq_nil_or_concat p.uris with hnil | ⟨uris, uri, huris⟩
    · exact Or.inr hnil
    · have hcovers : p.covers uri = true := by
        rw [← p.mem_uris_iff, huris]
        simp
      have hmem : p ∈ (c.record p).passes uri := mem_passes_record_iff.mpr (Or.inr ⟨rfl, hcovers⟩)
      -- at its own document the earlier passes of its entry are gone, so it must be the new one
      rcases mem_passes_record_iff.mp (hafter uri p hmem) with ⟨-, hne⟩ | ⟨-, hown⟩
      · exact absurd rfl hne
      · exact Or.inl hown
  · intro hcovers uri q hq
    rw [mem_passes_record_iff] at hq ⊢
    rcases hq with ⟨hq, hne⟩ | ⟨rfl, huri⟩
    · exact Or.inl ⟨h uri q hq, hne⟩
    · have hsome : q.uris ≠ [] := List.ne_nil_of_mem ((q.mem_uris_iff uri).mpr huri)
      exact Or.inr ⟨rfl, hcovers.resolve_right hsome⟩

end StagedDiagnostics.Cache
