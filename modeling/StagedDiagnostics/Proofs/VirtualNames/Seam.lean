import StagedDiagnostics.Proofs.VirtualNames.Cut

/-!
# Proofs/VirtualNames/Seam — shadow names that arise where a real name is put in

    … sᵢ ┊ aᵢ ┊ sᵢ₊₁ ┊ aᵢ₊₁ ┊ sᵢ₊₂ …        aᵢ: real names,  ┊: seams

A text is passed over once, and what is written is not read again.  So a shadow name may stand in a
restored text: never inside a piece, nor inside a real name where none has it inside, but at a seam,
from an end of what stands in front of it and a start of what stands behind.

* `Cut.IsLeftmostLongest.infix_rewrite_iff` — shadow names arise at seams and nowhere else;
* `exists_overlaps_of_arisesAt` — it takes a real name that overlaps the shadow name;
* `restore_suffixed` — a shadow name that is its real name with a suffix arises.
-/

namespace StagedDiagnostics.VirtualNames

variable {names : Set (List Char)} {name : List Char → List Char} {v l r : List Char}

/-! ## Words between two texts -/

/-- The word is an end of the text in front of the seam with a start of the text behind it. -/
def ArisesAt (v : List Char) (seam : List Char × List Char) : Prop :=
  ∃ x y, v = x ++ y ∧ x ≠ [] ∧ y ≠ [] ∧ x <:+ seam.1 ∧ y <+: seam.2

theorem ArisesAt.append_left (h : ArisesAt v (l, r)) (s : List Char) : ArisesAt v (s ++ l, r) := by
  obtain ⟨x, y, hv, hx, hy, hl, hr⟩ := h
  exact ⟨x, y, hv, hx, hy, hl.trans (List.suffix_append s l), hr⟩

/-- **A word of two texts is one of either, or arises between them.** -/
theorem infix_append_iff_arisesAt : v <:+: l ++ r ↔ v <:+: l ∨ v <:+: r ∨ ArisesAt v (l, r) := by
  rw [List.infix_append_iff]
  constructor
  · rintro (h | h | ⟨x, y, rfl, hx, hy⟩)
    · exact Or.inl h
    · exact Or.inr (Or.inl h)
    · rcases eq_or_ne x [] with rfl | hxne
      · exact Or.inr (Or.inl hy.isInfix)
      rcases eq_or_ne y [] with rfl | hyne
      · exact Or.inl ((List.append_nil x).symm ▸ hx.isInfix)
      · exact Or.inr (Or.inr ⟨x, y, rfl, hxne, hyne, hx, hy⟩)
  · rintro (h | h | ⟨x, y, hv, -, -, hx, hy⟩)
    · exact Or.inl h
    · exact Or.inr (Or.inl h)
    · exact Or.inr (Or.inr ⟨x, y, hv, hx, hy⟩)

/-- No name is left in a piece that is copied. -/
theorem Clear.not_infix {s after : List Char} (h : Clear names s after) (hv : v ∈ names)
    (hne : v ≠ []) : ¬ v <:+: s := by
  rintro ⟨p, q, rfl⟩
  rw [List.append_assoc] at h
  refine h (v ++ q) (fun hnil => hne (List.append_eq_nil_iff.mp hnil).1) (List.suffix_append _ _) ?_
  exact ⟨v, hv, hne, List.append_assoc v q after ▸ List.prefix_append _ _⟩

/-! ## Seams -/

namespace Cut

/-- What is written in front of every edge of a real name, and behind it. -/
def seams (name : List Char → List Char) : Cut → List (List Char × List Char)
  | last _ => []
  | before s v rest =>
    (s, name v ++ rest.rewrite id name) :: (s ++ name v, rest.rewrite id name) ::
      (rest.seams name).map fun e => (s ++ (name v ++ e.1), e.2)

/-- A seam is in the text. -/
theorem append_of_mem_seams {c : Cut} {e : List Char × List Char} (h : e ∈ c.seams name) :
    e.1 ++ e.2 = c.rewrite id name := by
  induction c generalizing e with
  | last s => cases h
  | before s w rest ih =>
    simp only [seams, List.mem_cons, List.mem_map] at h
    rcases h with rfl | rfl | ⟨d, hd, rfl⟩
    · rfl
    · exact List.append_assoc _ _ _
    · rw [rewrite, ← ih hd, List.append_assoc, List.append_assoc]
      rfl

/-- **Shadow names arise at seams and nowhere else**, if no real name has one inside. -/
theorem IsLeftmostLongest.infix_rewrite_iff {c : Cut} (hc : c.IsLeftmostLongest names)
    (hv : v ∈ names) (hne : v ≠ []) (hname : ∀ w ∈ names, ¬ v <:+: name w) :
    v <:+: c.rewrite id name ↔ ∃ e ∈ c.seams name, ArisesAt v e := by
  constructor
  · intro h
    induction c with
    | last s => exact absurd h (hc.not_infix hv hne)
    | before s w rest ih =>
      obtain ⟨hs, hw, hrest⟩ := hc
      rw [rewrite, infix_append_iff_arisesAt, infix_append_iff_arisesAt] at h
      rcases h with hpiece | (hreal | hbehind | harises) | harises
      · exact absurd hpiece (hs.not_infix hv hne)
      · exact absurd hreal (hname w hw.mem)
      · obtain ⟨e, he, harises⟩ := ih hrest hbehind
        exact ⟨_, List.mem_cons_of_mem _ (List.mem_cons_of_mem _ (List.mem_map_of_mem he)),
          (harises.append_left (name w)).append_left s⟩
      · exact ⟨_, List.mem_cons_of_mem _ List.mem_cons_self, harises.append_left s⟩
      · exact ⟨_, List.mem_cons_self, harises⟩
  · rintro ⟨e, he, harises⟩
    rw [← append_of_mem_seams he]
    exact infix_append_iff_arisesAt.mpr (Or.inr (Or.inr harises))

/-- A real name stands in front of a seam or behind it. -/
theorem IsLeftmostLongest.exists_name_of_mem_seams {c : Cut} (hc : c.IsLeftmostLongest names)
    {e : List Char × List Char} (he : e ∈ c.seams name) :
    ∃ w ∈ names, name w <:+ e.1 ∨ name w <+: e.2 := by
  induction c generalizing e with
  | last s => cases he
  | before s w rest ih =>
    obtain ⟨-, hw, hrest⟩ := hc
    simp only [seams, List.mem_cons, List.mem_map] at he
    rcases he with rfl | rfl | ⟨d, hd, rfl⟩
    · exact ⟨w, hw.mem, Or.inr (List.prefix_append _ _)⟩
    · exact ⟨w, hw.mem, Or.inl (List.suffix_append _ _)⟩
    · obtain ⟨u, hu, hedge⟩ := ih hrest hd
      refine ⟨u, hu, hedge.imp_left fun h => ?_⟩
      exact (h.trans (List.suffix_append _ _)).trans (List.suffix_append _ _)

end Cut

/-! ## Overlaps -/

/-- The real name is inside the shadow name, or an end of one is a start of the other. -/
def Overlaps (v a : List Char) : Prop :=
  a <:+: v ∨ ∃ z, z ≠ [] ∧ (z <:+ a ∧ z <+: v ∨ z <+: a ∧ z <:+ v)

/-- **A shadow name that arises overlaps a real name.** -/
theorem exists_overlaps_of_arisesAt {c : Cut} (hc : c.IsLeftmostLongest names)
    {e : List Char × List Char} (he : e ∈ c.seams name) (h : ArisesAt v e) :
    ∃ w ∈ names, Overlaps v (name w) := by
  obtain ⟨x, y, rfl, hx, hy, hfront, hbehind⟩ := h
  obtain ⟨w, hw, hedge⟩ := hc.exists_name_of_mem_seams he
  refine ⟨w, hw, ?_⟩
  rcases hedge with hedge | hedge
  · rcases List.suffix_or_suffix_of_suffix hfront hedge with h | h
    · exact Or.inr ⟨x, hx, Or.inl ⟨h, List.prefix_append x y⟩⟩
    · exact Or.inl (h.isInfix.trans (List.prefix_append x y).isInfix)
  · rcases List.prefix_or_prefix_of_prefix hbehind hedge with h | h
    · exact Or.inr ⟨y, hy, Or.inr ⟨h, List.suffix_append x y⟩⟩
    · exact Or.inl (h.isInfix.trans (List.suffix_append x y).isInfix)

/-! ## Restored texts -/

/-- **What is left of shadow names.**  If no name of a mapping is empty and no real name has a
shadow name inside, then a shadow name stands in a restored text exactly if it arises at a seam of
the one leftmost-longest cut, from an end of what is in front of the seam and a start of what is
behind.  It then overlaps a real name; so where none does, no shadow name is left. -/
theorem infix_restore_iff_arisesAt (pairs : List (String × String))
    (hne : ∀ e ∈ (Table.ofList pairs).entries, e.1 ≠ "" ∧ e.2 ≠ "")
    (hapart : ∀ d ∈ (Table.ofList pairs).entries, ∀ e ∈ (Table.ofList pairs).entries,
      ¬ d.2.toList <:+: e.1.toList) (text : String) :
    ∃ c : Cut, c.text = text.toList ∧ c.IsLeftmostLongest (shadows (Table.ofList pairs)) ∧
      ∀ v ∈ shadows (Table.ofList pairs),
        (v <:+: ((ofPairs pairs).restore text).toList
          ↔ ∃ e ∈ c.seams (lastActual (Table.ofList pairs)), ArisesAt v e) ∧
        (v <:+: ((ofPairs pairs).restore text).toList
          → ∃ e ∈ (Table.ofList pairs).entries, Overlaps v e.1.toList) := by
  have hcut := isLeftmostLongest_cut_ofPairs pairs text
  have hnames : ∀ v ∈ shadows (Table.ofList pairs), v ≠ [] := by
    rintro v ⟨d, hd, rfl⟩ hnil
    exact (hne d hd).2 (String.toList_eq_nil_iff.mp hnil)
  have hrestore := toList_restore_ofPairs_of_not_mem pairs text fun h => hnames [] h rfl
  refine ⟨_, text_cut _ text, hcut, fun v hv => ?_⟩
  have hinside : ∀ w ∈ shadows (Table.ofList pairs),
      ¬ v <:+: lastActual (Table.ofList pairs) w := by
    intro w hw
    obtain ⟨d, hd, rfl⟩ := hv
    obtain ⟨e, he, -, hlast⟩ := exists_lastActual_eq hw
    rw [hlast]
    exact hapart d hd e he
  have hiff := hcut.infix_rewrite_iff hv (hnames v hv) hinside
  rw [hrestore]
  refine ⟨hiff, fun hinfix => ?_⟩
  obtain ⟨e, he, harises⟩ := hiff.mp hinfix
  obtain ⟨w, hw, hoverlaps⟩ := exists_overlaps_of_arisesAt hcut he harises
  obtain ⟨d, hd, -, hlast⟩ := exists_lastActual_eq hw
  exact ⟨d, hd, hlast ▸ hoverlaps⟩

/-- A module whose shadow name is its own name with a suffix. -/
def suffixed : List (String × String) := [("Main", "Main#1")]

theorem forall_entries_suffixed {p : String × String → Prop} (h : p ("Main", "Main#1")) :
    ∀ e ∈ (Table.ofList suffixed).entries, p e :=
  List.forall_mem_singleton.mpr h

theorem not_infix_suffixed :
    ∀ d ∈ (Table.ofList suffixed).entries, ∀ e ∈ (Table.ofList suffixed).entries,
      ¬ d.2.toList <:+: e.1.toList :=
  forall_entries_suffixed (forall_entries_suffixed fun h => absurd h.length_le (by decide))

theorem mem_shadows_suffixed : "Main#1".toList ∈ shadows (Table.ofList suffixed) :=
  ⟨("Main", "Main#1"), List.mem_singleton.mpr rfl, rfl⟩

theorem infix_restore_iff_arisesAt_suffixed :
    (∀ e ∈ (Table.ofList suffixed).entries, e.1 ≠ "" ∧ e.2 ≠ "") ∧
      (∀ d ∈ (Table.ofList suffixed).entries, ∀ e ∈ (Table.ofList suffixed).entries,
        ¬ d.2.toList <:+: e.1.toList) ∧
      ∃ c : Cut, c.text = "no Main#1#1".toList ∧
        c.IsLeftmostLongest (shadows (Table.ofList suffixed)) ∧
        (∃ e ∈ c.seams (lastActual (Table.ofList suffixed)), ArisesAt "Main#1".toList e) ∧
        ∃ e ∈ (Table.ofList suffixed).entries, Overlaps "Main#1".toList e.1.toList := by
  have hne : ∀ e ∈ (Table.ofList suffixed).entries, e.1 ≠ "" ∧ e.2 ≠ "" :=
    forall_entries_suffixed (by decide)
  have hrestore : (ofPairs suffixed).restore "no Main#1#1" = "no Main#1" := by decide
  have hleft : "Main#1".toList <:+: ((ofPairs suffixed).restore "no Main#1#1").toList := by
    rw [hrestore]
    exact ⟨"no ".toList, [], rfl⟩
  obtain ⟨c, htext, hcut, h⟩ :=
    infix_restore_iff_arisesAt suffixed hne not_infix_suffixed "no Main#1#1"
  obtain ⟨hiff, hoverlaps⟩ := h _ mem_shadows_suffixed
  exact ⟨hne, not_infix_suffixed, c, htext, hcut, hiff.mp hleft, hoverlaps hleft⟩

/-- **A shadow name is left**, though no name is empty and no real name has it inside: what replaces
it and the rest of the text make it again. -/
theorem restore_suffixed :
    (∀ e ∈ (Table.ofList suffixed).entries, e.1 ≠ "" ∧ e.2 ≠ "") ∧
      (∀ d ∈ (Table.ofList suffixed).entries, ∀ e ∈ (Table.ofList suffixed).entries,
        ¬ d.2.toList <:+: e.1.toList) ∧
      "Main#1".toList ∈ shadows (Table.ofList suffixed) ∧
      (ofPairs suffixed).restore "Main#1#1" = "Main#1" :=
  ⟨forall_entries_suffixed (by decide), not_infix_suffixed, mem_shadows_suffixed, by decide⟩

end StagedDiagnostics.VirtualNames
