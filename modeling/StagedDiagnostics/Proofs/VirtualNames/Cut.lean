import Mathlib.Data.List.MinMax
import Mathlib.Data.Set.Basic
import StagedDiagnostics.VirtualNames

/-!
# Proofs/VirtualNames/Cut — a text is cut at its shadow names

    text  =  s₀ v₁ s₁ … vₙ sₙ   ──rewrite──▸   s₀ a₁ s₁ … aₙ sₙ

A cut is leftmost-longest if no name starts inside a piece `sᵢ`, and each `vᵢ` is the longest name
that starts where it stands.  Both conditions look at the text behind, and not at the piece or the
name alone: a name may start inside a piece and end beyond it.

* `Cut.IsLeftmostLongest.eq_of_text_eq` — a text has at most one such cut;
* `isLeftmostLongest_cutFrom` — it has one, found in one pass;
* `restoreFrom_eq_rewrite` — the pass that restores names writes down that cut, rewritten.

The empty name is never cut out.  Its real name goes in front of every character that is copied and
to the end.
-/

namespace StagedDiagnostics.VirtualNames

/-! ## Names at the start of a text -/

/-- A name that is not empty starts the text. -/
def StartsName (names : Set (List Char)) (text : List Char) : Prop :=
  ∃ v ∈ names, v ≠ [] ∧ v <+: text

/-- The longest name that starts the text, which is not empty. -/
structure IsLongest (names : Set (List Char)) (v text : List Char) : Prop where
  mem : v ∈ names
  ne_nil : v ≠ []
  starts : v <+: text
  longest : ∀ w ∈ names, w <+: text → w.length ≤ v.length

/-- No name that is not empty starts inside `piece`, where `after` stands behind it. -/
def Clear (names : Set (List Char)) (piece after : List Char) : Prop :=
  ∀ t, t ≠ [] → t <:+ piece → ¬ StartsName names (t ++ after)

variable {names : Set (List Char)} {v w cs piece after : List Char}

theorem IsLongest.startsName (h : IsLongest names v cs) : StartsName names cs :=
  ⟨v, h.mem, h.ne_nil, h.starts⟩

/-- **There is one longest name.** -/
theorem IsLongest.eq (hv : IsLongest names v cs) (hw : IsLongest names w cs) : v = w :=
  (List.prefix_of_prefix_length_le hv.starts hw.starts (hw.longest v hv.mem hv.starts)).eq_of_length
    (Nat.le_antisymm (hw.longest v hv.mem hv.starts) (hv.longest w hw.mem hw.starts))

theorem clear_nil : Clear names [] after := fun _ hne ht => absurd (List.suffix_nil.mp ht) hne

theorem clear_cons_iff {c : Char} :
    Clear names (c :: piece) after
      ↔ ¬ StartsName names (c :: piece ++ after) ∧ Clear names piece after := by
  constructor
  · intro h
    exact ⟨h _ (List.cons_ne_nil _ _) (List.suffix_refl _),
      fun t hne ht => h t hne (ht.trans (List.suffix_cons c piece))⟩
  · rintro ⟨hc, hpiece⟩ t hne ht
    rcases List.suffix_cons_iff.mp ht with rfl | ht
    · exact hc
    · exact hpiece t hne ht

/-- A clear piece is over before a name starts. -/
theorem Clear.length_le (h : Clear names piece after) {s rest : List Char}
    (hrest : StartsName names rest) (heq : piece ++ after = s ++ rest) :
    piece.length ≤ s.length := by
  rcases List.append_eq_append_iff.mp heq with ⟨t, rfl, -⟩ | ⟨t, rfl, hafter⟩
  · exact List.length_append ▸ Nat.le_add_right _ _
  · by_contra hlt
    have hne : t ≠ [] := by
      rintro rfl
      exact hlt (by rw [List.append_nil])
    exact h t hne (List.suffix_append s t) (hafter ▸ hrest)

/-! ## Cuts -/

/-- A text cut at names: the pieces around them, and the names. -/
inductive Cut
  | last (piece : List Char)
  | before (piece name : List Char) (rest : Cut)
  deriving DecidableEq, Repr

namespace Cut

/-- The text that is cut. -/
def text : Cut → List Char
  | last s => s
  | before s v rest => s ++ (v ++ rest.text)

/-- The text with its pieces and its names rewritten. -/
def rewrite (piece name : List Char → List Char) : Cut → List Char
  | last s => piece s
  | before s v rest => piece s ++ (name v ++ rest.rewrite piece name)

/-- No name starts inside a piece, and every name is the longest one where it stands. -/
def IsLeftmostLongest (names : Set (List Char)) : Cut → Prop
  | last s => Clear names s []
  | before s v rest =>
    Clear names s (v ++ rest.text) ∧ IsLongest names v (v ++ rest.text) ∧
      rest.IsLeftmostLongest names

/-- Puts a character in front of the first piece. -/
def addFront (c : Char) : Cut → Cut
  | last s => last (c :: s)
  | before s v rest => before (c :: s) v rest

variable {c d : Cut}

theorem text_addFront (ch : Char) (c : Cut) : (c.addFront ch).text = ch :: c.text := by
  cases c <;> rfl

/-- A character at which no name starts belongs to a piece. -/
theorem isLeftmostLongest_addFront_iff {ch : Char} :
    (c.addFront ch).IsLeftmostLongest names
      ↔ ¬ StartsName names (ch :: c.text) ∧ c.IsLeftmostLongest names := by
  cases c with
  | last s => rw [addFront, IsLeftmostLongest, clear_cons_iff, List.append_nil]; rfl
  | before s v rest =>
    rw [addFront, IsLeftmostLongest, IsLeftmostLongest, clear_cons_iff, and_assoc]
    rfl

/-- **A text has one leftmost-longest cut.**  The first pieces of two of them are equally long, as
neither reaches into the name behind the other; then the names are the same. -/
theorem IsLeftmostLongest.eq_of_text_eq (hc : c.IsLeftmostLongest names)
    (hd : d.IsLeftmostLongest names) (h : c.text = d.text) : c = d := by
  induction c generalizing d with
  | last s =>
    cases d with
    | last s' => exact congrArg last h
    | before s' v' rest' =>
      obtain ⟨-, hv', -⟩ := hd
      have hle := hc.length_le hv'.startsName ((List.append_nil s).trans h)
      have hlength := congrArg List.length h
      have hpos := List.length_pos_iff.mpr hv'.ne_nil
      simp only [text, List.length_append] at hlength
      omega
  | before s v rest ih =>
    obtain ⟨hs, hv, hrest⟩ := hc
    cases d with
    | last s' =>
      have hle := hd.length_le hv.startsName ((List.append_nil s').trans h.symm)
      have hlength := congrArg List.length h
      have hpos := List.length_pos_iff.mpr hv.ne_nil
      simp only [text, List.length_append] at hlength
      omega
    | before s' v' rest' =>
      obtain ⟨hs', hv', hrest'⟩ := hd
      have hlength : s.length = s'.length :=
        Nat.le_antisymm (hs.length_le hv'.startsName h) (hs'.length_le hv.startsName h.symm)
      obtain ⟨rfl, hbehind⟩ := List.append_inj h hlength
      obtain rfl := hv.eq (hbehind ▸ hv')
      rw [ih hrest hrest' (List.append_cancel_left hbehind)]

end Cut

/-! ## The pass over a text -/

/-- The names that rules are about. -/
def ruleNames (rules : List Rule) : Set (List Char) := {v | ∃ r ∈ rules, r.1 = v}

variable {rules : List Rule}

theorem foldl_longer_eq_argmax (rs : List Rule) :
    rs.foldl longer none = rs.argmax fun r => r.1.length := by
  have hlonger : longer = List.argAux fun b c : Rule => c.1.length < b.1.length := by
    funext a b
    cases a <;> rfl
  rw [hlonger, List.argmax]

theorem mem_candidates_iff {r : Rule} :
    r ∈ rules.filter (fun r => !r.1.isEmpty && r.1.isPrefixOf cs)
      ↔ r ∈ rules ∧ r.1 ≠ [] ∧ r.1 <+: cs := by
  rw [List.mem_filter, Bool.and_eq_true, Bool.not_eq_true', List.isEmpty_eq_false_iff,
    List.isPrefixOf_iff_prefix]

/-- No rule is found where no name starts. -/
theorem longestAt_eq_none_iff :
    longestAt rules cs = none ↔ ¬ StartsName (ruleNames rules) cs := by
  rw [longestAt, foldl_longer_eq_argmax, List.argmax_eq_none, List.eq_nil_iff_forall_not_mem]
  constructor
  · rintro h ⟨v, ⟨r, hr, rfl⟩, hne, hstarts⟩
    exact h r (mem_candidates_iff.mpr ⟨hr, hne, hstarts⟩)
  · intro h r hr
    obtain ⟨hr, hne, hstarts⟩ := mem_candidates_iff.mp hr
    exact h ⟨r.1, ⟨r, hr, rfl⟩, hne, hstarts⟩

/-- **The rule that is found is one for the longest name.** -/
theorem isLongest_of_longestAt {r : Rule} (h : longestAt rules cs = some r) :
    r ∈ rules ∧ IsLongest (ruleNames rules) r.1 cs := by
  rw [longestAt, foldl_longer_eq_argmax] at h
  obtain ⟨hr, hne, hstarts⟩ := mem_candidates_iff.mp (List.argmax_mem h)
  refine ⟨hr, ⟨r, hr, rfl⟩, hne, hstarts, ?_⟩
  rintro w ⟨q, hq, rfl⟩ hw
  by_cases hnil : q.1 = []
  · rw [hnil]
    exact Nat.zero_le _
  · exact List.le_of_mem_argmax (f := fun r : Rule => r.1.length)
      (mem_candidates_iff.mpr ⟨hq, hnil, hw⟩) h

/-- Cuts a text of which the first `skip` characters belong to a name already cut out. -/
def cutFrom (rules : List Rule) : Nat → List Char → Cut
  | _, [] => .last []
  | skip + 1, _ :: cs => cutFrom rules skip cs
  | 0, c :: cs =>
    match longestAt rules (c :: cs) with
    | some r => .before [] r.1 (cutFrom rules (r.1.length - 1) cs)
    | none => (cutFrom rules 0 cs).addFront c

/-- Behind a name the rest of the text stands. -/
theorem IsLongest.append_drop {c : Char} {cs : List Char} (h : IsLongest names v (c :: cs)) :
    v ++ cs.drop (v.length - 1) = c :: cs := by
  obtain ⟨d, ds, rfl⟩ := List.exists_cons_of_ne_nil h.ne_nil
  exact List.prefix_iff_eq_append.mp h.starts

theorem text_cutFrom (rules : List Rule) (skip : Nat) (text : List Char) :
    (cutFrom rules skip text).text = text.drop skip := by
  fun_induction cutFrom rules skip text with
  | case1 skip => exact List.drop_nil.symm
  | case2 skip c cs ih => exact ih
  | case3 c cs r hr ih =>
    rw [Cut.text, ih, (isLongest_of_longestAt hr).2.append_drop]
    rfl
  | case4 c cs _ ih => rw [Cut.text_addFront, ih]; rfl

/-- **One pass cuts a text leftmost-longest.** -/
theorem isLeftmostLongest_cutFrom (rules : List Rule) (skip : Nat) (text : List Char) :
    (cutFrom rules skip text).IsLeftmostLongest (ruleNames rules) := by
  fun_induction cutFrom rules skip text with
  | case1 skip => exact clear_nil
  | case2 skip c cs ih => exact ih
  | case3 c cs r hr ih =>
    obtain ⟨-, hlongest⟩ := isLongest_of_longestAt hr
    refine ⟨clear_nil, ?_, ih⟩
    rw [text_cutFrom, hlongest.append_drop]
    exact hlongest
  | case4 c cs hnone ih =>
    refine Cut.isLeftmostLongest_addFront_iff.mpr ⟨?_, ih⟩
    rw [text_cutFrom]
    exact longestAt_eq_none_iff.mp hnone

/-- A piece with `gap` in front of each of its characters. -/
def spread (gap piece : List Char) : List Char := piece.flatMap fun c => gap ++ [c]

theorem spread_nil (piece : List Char) : spread [] piece = piece := by
  simp [spread]

theorem rewrite_addFront (gap : List Char) (name : List Char → List Char) (ch : Char) (c : Cut) :
    (c.addFront ch).rewrite (spread gap) name = gap ++ ch :: c.rewrite (spread gap) name := by
  cases c <;> simp [Cut.addFront, Cut.rewrite, spread]

/-- **Restoring names is rewriting the cut.** -/
theorem restoreFrom_eq_rewrite {actual : List Char → List Char}
    (hactual : ∀ r ∈ rules, actual r.1 = r.2) (skip : Nat) (text : List Char) :
    restoreFrom rules skip text
      = (cutFrom rules skip text).rewrite (spread (gap rules)) actual ++ gap rules := by
  fun_induction cutFrom rules skip text with
  | case1 skip => rw [restoreFrom]; rfl
  | case2 skip c cs ih => rw [restoreFrom, ih]
  | case3 c cs r hr ih =>
    have hname := hactual r (isLongest_of_longestAt hr).1
    simp only [restoreFrom, hr, ih, Cut.rewrite, hname]
    simp [spread]
  | case4 c cs hnone ih =>
    simp only [restoreFrom, hnone, ih, rewrite_addFront, List.append_assoc, List.cons_append]

/-! ## The names of a mapping -/

/-- The shadow names of a mapping from real names to shadow names. -/
def shadows (mapping : Table String String) : Set (List Char) :=
  {v | ∃ e ∈ mapping.entries, e.2.toList = v}

/-- The last real name with this shadow name. -/
def lastActual (mapping : Table String String) (shadow : List Char) : List Char :=
  ((mapping.entries.filter fun e => e.2.toList = shadow).getLast?.map fun e => e.1.toList).getD []

/-- A shadow name has a last real name. -/
theorem exists_lastActual_eq {mapping : Table String String} (h : v ∈ shadows mapping) :
    ∃ e ∈ mapping.entries, e.2.toList = v ∧ lastActual mapping v = e.1.toList := by
  obtain ⟨d, hd, hdv⟩ := h
  have hmem : d ∈ mapping.entries.filter fun e => e.2.toList = v :=
    List.mem_filter.mpr ⟨hd, decide_eq_true hdv⟩
  have hlast := List.getLast?_eq_some_getLast (List.ne_nil_of_mem hmem)
  obtain ⟨he, hev⟩ := List.mem_filter.mp (List.mem_of_getLast? hlast)
  refine ⟨_, he, of_decide_eq_true hev, ?_⟩
  rw [lastActual, hlast]
  rfl

/-- The cut of a text at the shadow names. -/
def cut (v : VirtualNames) (text : String) : Cut := cutFrom v.rules 0 text.toList

theorem text_cut (v : VirtualNames) (text : String) : (v.cut text).text = text.toList :=
  text_cutFrom _ _ _

section Pairs

variable (pairs : List (String × String))

theorem ruleNames_rules_ofPairs :
    ruleNames (ofPairs pairs).rules = shadows (Table.ofList pairs) := by
  have hkeys := Table.mem_keys_ofList_iff ((Table.ofList pairs).entries.map fun e => (e.2, e.1))
  ext v
  constructor
  · rintro ⟨r, hr, rfl⟩
    obtain ⟨e, he, rfl⟩ := List.mem_map.mp hr
    obtain ⟨d, hd, hde⟩ := List.mem_map.mp ((hkeys e.1).mp (List.mem_map_of_mem he))
    obtain ⟨f, hf, rfl⟩ := List.mem_map.mp hd
    exact ⟨f, hf, congrArg String.toList hde⟩
  · rintro ⟨e, he, rfl⟩
    have hkey := (hkeys e.2).mpr
      (List.mem_map_of_mem (List.mem_map_of_mem (f := fun e => (e.2, e.1)) he))
    obtain ⟨d, hd, hde⟩ := List.mem_map.mp hkey
    exact ⟨_, List.mem_map_of_mem hd, congrArg String.toList hde⟩

/-- **A shadow name stands for the last real name.** -/
theorem lastActual_eq {r : Rule} (hr : r ∈ (ofPairs pairs).rules) :
    lastActual (Table.ofList pairs) r.1 = r.2 := by
  obtain ⟨e, he, rfl⟩ := List.mem_map.mp hr
  have hget : (ofPairs pairs).actual.get? e.1 = some e.2 := (Table.get?_eq_some_iff _ _ _).mpr he
  rw [ofPairs, Table.get?_ofList, List.filter_map, List.getLast?_map, Option.map_map] at hget
  obtain ⟨d, hd, hde⟩ := Option.map_eq_some_iff.mp hget
  have hfilter : ((Table.ofList pairs).entries.filter fun d => d.2.toList = e.1.toList)
      = (Table.ofList pairs).entries.filter ((fun d => decide (d.1 = e.1)) ∘ fun d => (d.2, d.1)) :=
    List.filter_congr fun d _ => decide_eq_decide.mpr String.toList_inj
  rw [lastActual, hfilter, hd, ← hde]
  rfl

/-- The real name of the empty shadow name goes between characters. -/
theorem gap_rules_ofPairs (h : [] ∈ shadows (Table.ofList pairs)) :
    gap (ofPairs pairs).rules = lastActual (Table.ofList pairs) [] := by
  rw [← ruleNames_rules_ofPairs] at h
  obtain ⟨r, hr, hnil⟩ := h
  have hsome : ((ofPairs pairs).rules.find? fun r => r.1.isEmpty).isSome :=
    List.find?_isSome.mpr ⟨r, hr, List.isEmpty_iff.mpr hnil⟩
  obtain ⟨q, hq⟩ := Option.isSome_iff_exists.mp hsome
  have hname : q.1 = [] :=
    List.isEmpty_iff.mp (List.find?_some (p := fun r : Rule => r.1.isEmpty) hq)
  rw [gap, hq, ← hname, lastActual_eq pairs (List.mem_of_find?_eq_some hq)]
  rfl

/-- Without an empty shadow name nothing goes between characters. -/
theorem gap_rules_ofPairs_of_not_mem (h : [] ∉ shadows (Table.ofList pairs)) :
    gap (ofPairs pairs).rules = [] := by
  rw [← ruleNames_rules_ofPairs] at h
  have hnone : ((ofPairs pairs).rules.find? fun r => r.1.isEmpty) = none :=
    List.find?_eq_none.mpr fun r hr hempty => h ⟨r, hr, List.isEmpty_iff.mp hempty⟩
  rw [gap, hnone]
  rfl

variable (text : String)

theorem isLeftmostLongest_cut_ofPairs :
    ((ofPairs pairs).cut text).IsLeftmostLongest (shadows (Table.ofList pairs)) :=
  ruleNames_rules_ofPairs pairs ▸ isLeftmostLongest_cutFrom _ _ _

theorem toList_restore_ofPairs :
    ((ofPairs pairs).restore text).toList
      = ((ofPairs pairs).cut text).rewrite (spread (gap (ofPairs pairs).rules))
          (lastActual (Table.ofList pairs)) ++ gap (ofPairs pairs).rules := by
  rw [restore, String.toList_ofList, cut]
  exact restoreFrom_eq_rewrite (fun r => lastActual_eq pairs) _ _

/-- Without an empty shadow name pieces stay as they are. -/
theorem toList_restore_ofPairs_of_not_mem (h : [] ∉ shadows (Table.ofList pairs)) :
    ((ofPairs pairs).restore text).toList
      = ((ofPairs pairs).cut text).rewrite id (lastActual (Table.ofList pairs)) := by
  rw [toList_restore_ofPairs, gap_rules_ofPairs_of_not_mem pairs h, List.append_nil,
    funext spread_nil]
  rfl

/-- **Restoring names is leftmost-longest rewriting.**  A text has one cut in which no shadow name
starts inside a piece and every name is the longest where it stands.  Without an empty shadow name
the restored text is that cut with every name replaced by the last real name that has it; the real
name of the empty one goes in front of every character of the pieces, too, and to the end. -/
theorem restore_ofPairs_eq_rewrite :
    (∃! c : Cut, c.text = text.toList ∧ c.IsLeftmostLongest (shadows (Table.ofList pairs))) ∧
      ∀ c : Cut, c.text = text.toList → c.IsLeftmostLongest (shadows (Table.ofList pairs)) →
        ([] ∉ shadows (Table.ofList pairs) →
          ((ofPairs pairs).restore text).toList = c.rewrite id (lastActual (Table.ofList pairs))) ∧
        ([] ∈ shadows (Table.ofList pairs) →
          ((ofPairs pairs).restore text).toList
            = c.rewrite (spread (lastActual (Table.ofList pairs) []))
                (lastActual (Table.ofList pairs)) ++ lastActual (Table.ofList pairs) []) := by
  have htext := (ofPairs pairs).text_cut text
  have hcut := isLeftmostLongest_cut_ofPairs pairs text
  refine ⟨⟨_, ⟨htext, hcut⟩, fun d hd => hd.2.eq_of_text_eq hcut (hd.1.trans htext.symm)⟩, ?_⟩
  intro c hc hleftmost
  obtain rfl := hleftmost.eq_of_text_eq hcut (hc.trans htext.symm)
  refine ⟨toList_restore_ofPairs_of_not_mem pairs text, fun h => ?_⟩
  rw [toList_restore_ofPairs, gap_rules_ofPairs pairs h]

end Pairs

/-- Names that overlap, one name of two modules, and the empty name. -/
def nested : List (String × String) := [("A", "ab"), ("B", "abc"), ("C", "ab"), ("-", "")]

/-- The cut `x|ab||abc|z`. -/
def nestedCut : Cut :=
  .before "x".toList "ab".toList (.before [] "abc".toList (.last "z".toList))

theorem restore_ofPairs_eq_rewrite_nested :
    nestedCut.text = "xababcz".toList ∧
      nestedCut.IsLeftmostLongest (shadows (Table.ofList nested)) ∧
      [] ∈ shadows (Table.ofList nested) ∧
      ((ofPairs nested).restore "xababcz").toList
        = nestedCut.rewrite (spread (lastActual (Table.ofList nested) []))
            (lastActual (Table.ofList nested)) ++ lastActual (Table.ofList nested) [] ∧
      (ofPairs nested).restore "xababcz" = "-xCB-z-" := by
  have hcut : (ofPairs nested).cut "xababcz" = nestedCut := by decide
  have hleftmost : nestedCut.IsLeftmostLongest (shadows (Table.ofList nested)) :=
    hcut ▸ isLeftmostLongest_cut_ofPairs nested "xababcz"
  have hempty : [] ∈ shadows (Table.ofList nested) := ⟨("-", ""), by decide, rfl⟩
  obtain ⟨-, h⟩ := restore_ofPairs_eq_rewrite nested "xababcz"
  exact ⟨by decide, hleftmost, hempty, (h nestedCut (by decide) hleftmost).2 hempty, by decide⟩

end StagedDiagnostics.VirtualNames
