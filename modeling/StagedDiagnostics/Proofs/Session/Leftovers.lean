import StagedDiagnostics.Proofs.Session.Freshness
import StagedDiagnostics.Proofs.Session.LivePasses

/-!
# Proofs/Session/Leftovers — what the cache still knows once everything is closed

The cache knows a document for one of three reasons (`contains_cacheAfter_iff`): a live pass covers
it; it was **set aside**, since nobody could analyze it; or it was **left behind** — the last live
pass to cover it made way for a pass that does not.  A close removes the entries it empties, and
the entry of the closed document, but not an entry that was empty already.  So once everything is
closed the documents left behind, and they alone, are still known, and every later sweep names
them.
-/

namespace StagedDiagnostics

namespace Update

/-! ## Reasons to be known -/

/-- A live pass covers the document. -/
def Covered (us : List Update) (uri : Uri) : Prop := ∃ p ∈ live us, p.covers uri = true

/-- An update after which the cache no longer goes by what it knew of a document: a pass that
covers it has completed, or it was closed. -/
def Settles (uri : Uri) : Update → Prop
  | completed p => p.covers uri = true
  | skipped _ => False
  | closed other => uri = other

/-- The last live pass to cover the document was replaced by a pass that does not cover it, and
nothing has settled it since. -/
def LeftBehind (us : List Update) (uri : Uri) : Prop :=
  Since
    (fun before u => (∃ p, u = completed p) ∧ Covered before uri ∧ ¬ Covered (before ++ [u]) uri)
    (fun _ u => ¬ u.Settles uri) us

/-- Nobody could analyze the document when no live pass covered it, and nothing has settled it
since. -/
def SetAside (us : List Update) (uri : Uri) : Prop :=
  Since (fun before u => u = skipped uri ∧ ¬ Covered before uri) (fun _ u => ¬ u.Settles uri) us

/-- A document with a reason to be known. -/
def Known (us : List Update) (uri : Uri) : Prop :=
  Covered us uri ∨ LeftBehind us uri ∨ SetAside us uri

/-- Whether an update is the close of a document. -/
def closes (uri : Uri) : Update → Bool
  | completed _ => false
  | skipped _ => false
  | closed other => uri = other

/-- The documents an analysis was started from that have not been closed since. -/
def pending : List Update → List Uri
  | [] => []
  | u :: us => (u.analyzed?.toList.filter fun uri => !us.any (closes uri)) ++ pending us

/-! ## One more update -/

theorem covered_concat {us : List Update} {u : Update} {uri : Uri} :
    Covered (us ++ [u]) uri
      ↔ (∃ p ∈ live us, u.ends p.entry = false ∧ p.covers uri = true)
        ∨ ∃ p, u = completed p ∧ p.covers uri = true := by
  rw [Covered, live_concat]
  cases u <;> simp [pass?, or_and_right, exists_or, and_assoc]

/-- Only a pass that covers a document can make it covered. -/
theorem covered_of_covered_concat {us : List Update} {u : Update} {uri : Uri}
    (h : Covered (us ++ [u]) uri) (hu : ¬ u.Settles uri) : Covered us uri := by
  rcases covered_concat.mp h with ⟨p, hp, -, hcovers⟩ | ⟨p, rfl, hcovers⟩
  · exact ⟨p, hp, hcovers⟩
  · exact absurd hcovers hu

theorem leftBehind_concat {us : List Update} {u : Update} {uri : Uri} :
    LeftBehind (us ++ [u]) uri
      ↔ LeftBehind us uri ∧ ¬ u.Settles uri
        ∨ (∃ p, u = completed p) ∧ Covered us uri ∧ ¬ Covered (us ++ [u]) uri := since_concat

theorem setAside_concat {us : List Update} {u : Update} {uri : Uri} :
    SetAside (us ++ [u]) uri
      ↔ SetAside us uri ∧ ¬ u.Settles uri ∨ u = skipped uri ∧ ¬ Covered us uri := since_concat

/-- A document that was left behind or set aside is not covered. -/
theorem not_covered_of_idle {us : List Update} {uri : Uri}
    (h : LeftBehind us uri ∨ SetAside us uri) : ¬ Covered us uri := by
  induction us using List.reverseRecOn with
  | nil => rcases h with h | h <;> exact absurd h not_since_nil
  | append_singleton us u ih =>
    intro hcov
    rw [leftBehind_concat, setAside_concat] at h
    rcases h with (⟨h, hu⟩ | ⟨-, -, h⟩) | (⟨h, hu⟩ | ⟨rfl, h⟩)
    · exact ih (Or.inl h) (covered_of_covered_concat hcov hu)
    · exact h hcov
    · exact ih (Or.inr h) (covered_of_covered_concat hcov hu)
    · exact h (covered_of_covered_concat hcov id)

/-- A completed pass is a reason for the documents it covers and takes no reason away for good: what
it no longer covers is left behind. -/
theorem known_concat_completed {us : List Update} {p : Pass} {uri : Uri} :
    Known (us ++ [completed p]) uri ↔ p.covers uri = true ∨ Known us uri := by
  have hcovers : p.covers uri = true → Covered (us ++ [completed p]) uri :=
    fun hp => covered_concat.mpr (Or.inr ⟨p, rfl, hp⟩)
  rw [Known, leftBehind_concat, setAside_concat]
  constructor
  · rintro (h | (⟨h, -⟩ | ⟨-, h, -⟩) | (⟨h, -⟩ | ⟨heq, -⟩))
    · by_cases hp : p.covers uri = true
      · exact Or.inl hp
      · exact Or.inr (Or.inl (covered_of_covered_concat h hp))
    · exact Or.inr (Or.inr (Or.inl h))
    · exact Or.inr (Or.inl h)
    · exact Or.inr (Or.inr (Or.inr h))
    · cases heq
  · rintro (hp | h)
    · exact Or.inl (hcovers hp)
    · by_cases hnow : Covered (us ++ [completed p]) uri
      · exact Or.inl hnow
      · have hp : ¬ p.covers uri = true := fun hp => hnow (hcovers hp)
        rcases h with h | h | h
        · exact Or.inr (Or.inl (Or.inr ⟨⟨p, rfl⟩, h, hnow⟩))
        · exact Or.inr (Or.inl (Or.inl ⟨h, hp⟩))
        · exact Or.inr (Or.inr (Or.inl ⟨h, hp⟩))

/-- A skipped document is known one way or the other. -/
theorem known_concat_skipped {us : List Update} {other uri : Uri} :
    Known (us ++ [skipped other]) uri ↔ other = uri ∨ Known us uri := by
  have hsame : Covered (us ++ [skipped other]) uri ↔ Covered us uri := by
    rw [covered_concat]
    simp [ends, Covered]
  rw [Known, leftBehind_concat, setAside_concat, hsame]
  constructor
  · rintro (h | (⟨h, -⟩ | ⟨⟨p, heq⟩, -⟩) | (⟨h, -⟩ | ⟨heq, -⟩))
    · exact Or.inr (Or.inl h)
    · exact Or.inr (Or.inr (Or.inl h))
    · cases heq
    · exact Or.inr (Or.inr (Or.inr h))
    · exact Or.inl (skipped.inj heq)
  · rintro (rfl | h | h | h)
    · by_cases hcov : Covered us other
      · exact Or.inl hcov
      · exact Or.inr (Or.inr (Or.inr ⟨rfl, hcov⟩))
    · exact Or.inl h
    · exact Or.inr (Or.inl (Or.inl ⟨h, id⟩))
    · exact Or.inr (Or.inr (Or.inl ⟨h, id⟩))

/-- After a close a document is known if some live pass is left that covers it, or if none did
before and it is not the closed one. -/
theorem known_concat_closed {us : List Update} {other uri : Uri} :
    Known (us ++ [closed other]) uri ↔
      Covered (us ++ [closed other]) uri ∨ uri ≠ other ∧ Known us uri ∧ ¬ Covered us uri := by
  rw [Known, leftBehind_concat, setAside_concat]
  constructor
  · rintro (h | (⟨h, hne⟩ | ⟨⟨p, heq⟩, -⟩) | (⟨h, hne⟩ | ⟨heq, -⟩))
    · exact Or.inl h
    · exact Or.inr ⟨hne, Or.inr (Or.inl h), not_covered_of_idle (Or.inl h)⟩
    · cases heq
    · exact Or.inr ⟨hne, Or.inr (Or.inr h), not_covered_of_idle (Or.inr h)⟩
    · cases heq
  · rintro (h | ⟨hne, h | h | h, hcov⟩)
    · exact Or.inl h
    · exact absurd h hcov
    · exact Or.inr (Or.inl (Or.inl ⟨h, hne⟩))
    · exact Or.inr (Or.inr (Or.inl ⟨h, hne⟩))

theorem pending_concat (us : List Update) (u : Update) :
    pending (us ++ [u]) = ((pending us).filter fun uri => !u.closes uri) ++ u.analyzed?.toList := by
  induction us with
  | nil => simp [pending]
  | cons v us ih =>
    simp only [List.cons_append, pending, ih, List.any_append, List.any_cons, List.any_nil,
      Bool.or_false, Bool.not_or, List.filter_append, List.filter_filter, List.append_assoc]
    simp [Bool.and_comm]

theorem mem_pending_or_of_mem_concat {us : List Update} {u : Update} {uri : Uri}
    (h : uri ∈ pending (us ++ [u])) : uri ∈ pending us ∨ u.analyzed? = some uri := by
  rw [pending_concat, List.mem_append, List.mem_filter, Option.mem_toList] at h
  exact h.imp_left And.left

theorem not_mem_pending_concat_closed (us : List Update) (uri : Uri) :
    uri ∉ pending (us ++ [closed uri]) := by
  rw [pending_concat, List.mem_append, List.mem_filter]
  rintro (⟨-, h⟩ | h)
  · simp [closes] at h
  · cases h

/-- The entry of a live pass has not been closed. -/
theorem entry_mem_pending {us : List Update} {p : Pass} (h : p ∈ live us) :
    p.entry ∈ pending us := by
  induction us using List.reverseRecOn with
  | nil => cases h
  | append_singleton us u ih =>
    rw [live_concat, List.mem_append, List.mem_filter] at h
    rw [pending_concat, List.mem_append, List.mem_filter]
    rcases h with ⟨h, hu⟩ | h
    · refine Or.inl ⟨ih h, ?_⟩
      cases u with
      | closed other => exact hu
      | completed q => rfl
      | skipped other => rfl
    · obtain rfl : u = completed p := by cases u <;> simp_all [pass?]
      exact Or.inr (List.mem_singleton_self _)

/-- A document that was set aside has not been closed. -/
theorem mem_pending_of_setAside {us : List Update} {uri : Uri} (h : SetAside us uri) :
    uri ∈ pending us := by
  induction us using List.reverseRecOn with
  | nil => exact absurd h not_since_nil
  | append_singleton us u ih =>
    rw [pending_concat, List.mem_append, List.mem_filter]
    rcases setAside_concat.mp h with ⟨h, hu⟩ | ⟨rfl, -⟩
    · refine Or.inl ⟨ih h, ?_⟩
      cases u with
      | closed other => simpa [closes, Settles] using hu
      | completed q => rfl
      | skipped other => rfl
    · exact Or.inr (List.mem_singleton_self _)

/-! ## What the cache knows -/

theorem covered_iff_passes {us : List Update} (h : SelfCovering us) (uri : Uri) :
    Covered us uri ↔ (cacheAfter us).passes uri ≠ [] := by
  rw [passes_cacheAfter h, Covered]
  simp [List.filter_eq_nil_iff]

/-- **The cache knows a document if a live pass covers it, or it was left behind or set aside.** -/
theorem contains_cacheAfter_iff {us : List Update} (h : SelfCovering us) (uri : Uri) :
    (cacheAfter us).contains uri = true ↔ Known us uri := by
  induction us using List.reverseRecOn with
  | nil => simp [Known, Covered, LeftBehind, SetAside, live, Table.contains]
  | append_singleton us u ih =>
    have ih := ih h.of_concat
    rw [cacheAfter_concat]
    cases u with
    | completed p => rw [apply, Cache.contains_record_iff, known_concat_completed, ih]
    | skipped other => rw [contains_apply_skipped_iff, known_concat_skipped, ih]
    | closed other =>
      have hkept : Covered (us ++ [closed other]) uri
          ↔ ∃ p ∈ (cacheAfter us).passes uri, p.entry ≠ other := by
        rw [covered_concat, passes_cacheAfter h.of_concat]
        simp [ends, and_assoc, and_comm]
      have hnil : (cacheAfter us).passes uri = [] ↔ ¬ Covered us uri := by
        rw [covered_iff_passes h.of_concat, not_not]
      rw [apply, (rooted_cacheAfter h.of_concat).contains_discard_iff, known_concat_closed, ih,
        hkept, hnil]

/-- Where nothing is pending, only the documents left behind are known. -/
theorem contains_cacheAfter_iff_of_pending {us : List Update} (h : SelfCovering us)
    (hclosed : pending us = []) (uri : Uri) :
    (cacheAfter us).contains uri = true ↔ LeftBehind us uri := by
  have hcov : ¬ Covered us uri := fun ⟨p, hp, _⟩ =>
    List.ne_nil_of_mem (entry_mem_pending hp) hclosed
  have haside : ¬ SetAside us uri := fun hs =>
    List.ne_nil_of_mem (mem_pending_of_setAside hs) hclosed
  rw [contains_cacheAfter_iff h, Known, or_iff_right hcov, or_iff_left haside]

end Update

namespace Session

/-! ## Documents that are closed -/

/-- An analysis is started from the document that was touched. -/
theorem analyzed?_of_updateOf? {s : Session} {analyzer : Option Analyzer} {t : Touch} {u : Update}
    (h : s.updateOf? analyzer t = some u) {uri : Uri} (hu : u.analyzed? = some uri) :
    t.uri = uri := by
  cases t with
  | opened other text | saved other text =>
    exact Option.some.inj ((analyzed?_of_analysis? h).symm.trans hu)
  | changed other text => cases h
  | closed other =>
    obtain rfl := Option.some.inj h
    cases hu

/-- A document an analysis was started from has a text, until it is closed. -/
theorem exists_held_of_mem_pending {dir : String} {es : Run} {uri : Uri}
    (h : uri ∈ Update.pending ((initial dir).history es)) :
    ∃ text, Store.Held uri text (es.map Prod.fst) := by
  induction es using List.reverseRecOn with
  | nil => cases h
  | append_singleton es e ih =>
    rw [history_concat, update?, documents_after] at h
    rw [List.map_append, List.map_singleton]
    by_cases htouches : Store.Touches uri (es.map Prod.fst) e.1
    · obtain ⟨t, ht, rfl⟩ := htouches
      cases hnew : t.text? with
      | some text => exact ⟨text, (Store.held_concat_of_touch? ht text).mpr hnew⟩
      | none =>
        obtain ⟨uri, rfl⟩ := Touch.eq_closed_of_text?_eq_none hnew
        rw [ht] at h
        exact absurd h (Update.not_mem_pending_concat_closed _ uri)
    · have hbefore : uri ∈ Update.pending ((initial dir).history es) := by
        cases hu : ((Store.after (es.map Prod.fst)).touch? e.1).bind
            (((initial dir).after es).updateOf? e.2) with
        | none => simpa [hu] using h
        | some u =>
          rw [hu, Option.toList_some] at h
          refine (Update.mem_pending_or_of_mem_concat h).resolve_right fun hstarted => ?_
          obtain ⟨t, ht, hut⟩ := Option.bind_eq_some_iff.mp hu
          exact htouches ⟨t, ht, analyzed?_of_updateOf? hut hstarted⟩
      obtain ⟨text, hheld⟩ := ih hbefore
      exact ⟨text, (Store.held_concat_of_not_touches htouches).mpr hheld⟩

/-- **What a session still knows.**  After every run the cache knows a document exactly if a live
pass covers it, or it was left behind or set aside.  Once every document has been closed, under
every URI it was opened, changed or saved under, the documents left behind are all that is known,
and the cache is empty exactly if there are none. -/
theorem contains_iff_leftBehind (dir : String) (es : Run) :
    (∀ uri, ((initial dir).after es).cache.contains uri = true ↔
        Update.Covered ((initial dir).history es) uri ∨
          Update.LeftBehind ((initial dir).history es) uri ∨
            Update.SetAside ((initial dir).history es) uri) ∧
      ((∀ uri text, ¬ Store.Held uri text (es.map Prod.fst)) →
        (∀ uri, ((initial dir).after es).cache.contains uri = true ↔
            Update.LeftBehind ((initial dir).history es) uri) ∧
          (((initial dir).after es).cache.keys = [] ↔
            ∀ uri, ¬ Update.LeftBehind ((initial dir).history es) uri)) := by
  have hself := (initial dir).selfCovering_history es
  rw [cache_after]
  refine ⟨Update.contains_cacheAfter_iff hself, fun hclosed => ?_⟩
  have hpending : Update.pending ((initial dir).history es) = [] := by
    refine List.eq_nil_iff_forall_not_mem.mpr fun uri hmem => ?_
    obtain ⟨text, hheld⟩ := exists_held_of_mem_pending hmem
    exact hclosed uri text hheld
  have hknown := Update.contains_cacheAfter_iff_of_pending hself hpending
  refine ⟨hknown, ?_⟩
  rw [List.eq_nil_iff_forall_not_mem]
  exact forall_congr' fun uri => not_congr <|
    (Table.contains_iff _ uri).symm.trans (hknown uri)

/-- A program that goes over two files when it is opened, and over one of them when it is saved. -/
def shrinkingRun : Run :=
  let answering (files : List String) : Option Analyzer := some fun _ _ => .ok (.clean files)
  [(.atRoot (.start none none), none),
    (.atRoot (.didOpen "file:///w/a.stg" ""), answering ["/w/a.stg", "/w/b.stg"]),
    (.atRoot (.didSave "file:///w/a.stg"), answering ["/w/a.stg"]),
    (.atRoot (.didClose "file:///w/a.stg"), none)]

theorem not_held_shrinkingRun (uri : Uri) (text : String) :
    ¬ Store.Held uri text (shrinkingRun.map Prod.fst) := by
  intro h
  obtain rfl : "file:///w/a.stg" = uri := by
    simpa [shrinkingRun, Occasion.atRoot, Event.uri?] using Store.exists_mem_of_held h
  have hclose : (Store.after (shrinkingRun.dropLast.map Prod.fst)).touch?
      (.atRoot (.didClose "file:///w/a.stg")) = some (.closed "file:///w/a.stg") := by
    decide +kernel
  cases (Store.held_concat_of_touch? hclose text).mp h

theorem contains_iff_leftBehind_shrinkingRun :
    (∀ uri text, ¬ Store.Held uri text (shrinkingRun.map Prod.fst)) ∧
      ∀ uri, ((initial "/").after shrinkingRun).cache.contains uri = true ↔
        Update.LeftBehind ((initial "/").history shrinkingRun) uri :=
  ⟨not_held_shrinkingRun, ((contains_iff_leftBehind "/" shrinkingRun).2 not_held_shrinkingRun).1⟩

/-- **Closing everything does not empty the cache**: the file that the second pass no longer goes
over is still known. -/
theorem keys_shrinkingRun :
    (∀ uri, ¬ Store.IsOpen uri (shrinkingRun.map Prod.fst)) ∧
      ((initial "/").after shrinkingRun).cache.keys = ["file:///w/b.stg"] := by
  refine ⟨fun uri hopen => ?_, by decide +kernel⟩
  obtain ⟨text, hheld⟩ := Store.exists_held_of_isOpen hopen
  exact not_held_shrinkingRun uri text hheld

end Session

end StagedDiagnostics
