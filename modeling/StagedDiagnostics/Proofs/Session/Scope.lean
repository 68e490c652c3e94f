import Mathlib.Tactic.ByContra
import StagedDiagnostics.Proofs.Buckets.Attribution
import StagedDiagnostics.Proofs.Session.Freshness
import StagedDiagnostics.Proofs.Uri.File

/-!
# Proofs/Session/Scope — which documents are marked as not subject to analysis

The mark is written only where the cache knows nothing of a document, a pass that covers the
document would overwrite it, and only a close takes it off.  It stays truthful because the two sides
never meet: as long as there is an analyzer at every event, or at none, no document is both skipped
and covered (`apart_history`).  For that the resolver matters, since a pass covers what its reports
resolve to, and whatever a file resolves to can be analyzed.

* `get?_cacheAfter_eq_outOfScope_iff` — a document bears the mark from being skipped to being
  closed;
* `offered_iff` — if the store takes changes and saves of open documents only, the documents offered
  for analysis and not closed since are those that their last touch left with a text.
-/

namespace StagedDiagnostics

/-! ## Skipped and covered documents -/

namespace Update

/-- Updates that skip only documents that are `out`, and complete passes over other documents
only. -/
structure Apart (out : Uri → Prop) (us : List Update) : Prop where
  skipped : ∀ uri, skipped uri ∈ us → out uri
  completed : ∀ p, completed p ∈ us → ∀ uri, p.covers uri = true → ¬ out uri

/-- A document was skipped and has not been closed since. -/
def Marked (us : List Update) (uri : Uri) : Prop :=
  Since (fun _ u => u = skipped uri) (fun _ u => u ≠ closed uri) us

variable {out : Uri → Prop} {us : List Update} {u : Update} {uri : Uri}

theorem Apart.of_concat (h : Apart out (us ++ [u])) : Apart out us where
  skipped uri hu := h.skipped uri (List.mem_append_left _ hu)
  completed p hp := h.completed p (List.mem_append_left _ hp)

theorem marked_concat :
    Marked (us ++ [u]) uri ↔ Marked us uri ∧ u ≠ closed uri ∨ u = skipped uri := since_concat

theorem marked_append_toList {u : Option Update} :
    Marked (us ++ u.toList) uri
      ↔ Marked us uri ∧ u ≠ some (closed uri) ∨ u = some (skipped uri) := by
  cases u with
  | none => simp
  | some u => simp [marked_concat]

theorem Apart.out_of_marked (h : Apart out us) (hm : Marked us uri) : out uri := by
  obtain ⟨before, u, after, rfl, rfl, -⟩ := hm
  exact h.skipped uri (List.mem_append_right before List.mem_cons_self)

theorem get?_apply_skipped (c : Cache) (other uri : Uri) :
    ((skipped other).apply c).get? uri
      = if other = uri then some ((c.get? uri).getD .outOfScope) else c.get? uri := by
  rw [apply]
  by_cases hu : other = uri
  · subst hu
    rw [if_pos rfl]
    split
    · rename_i hc
      obtain ⟨e, he⟩ := Option.isSome_iff_exists.mp hc
      rw [he, Option.getD_some]
    · rename_i hc
      rw [Option.not_isSome_iff_eq_none.mp hc, Cache.markOutOfScope, Table.get?_insert, if_pos rfl]
      rfl
  · rw [if_neg hu]
    split
    · rfl
    · rw [Cache.markOutOfScope, Table.get?_insert, if_neg hu]

/-- A close takes the mark off its own document and off no other. -/
theorem get?_apply_closed_eq_outOfScope_iff (c : Cache) (other uri : Uri) :
    ((closed other).apply c).get? uri = some .outOfScope
      ↔ c.get? uri = some .outOfScope ∧ uri ≠ other := by
  rw [apply]
  by_cases hc : c.contains other = true
  · rw [Cache.get?_discard hc]
    cases c.get? uri with
    | none => simp
    | some e =>
      cases e with
      | outOfScope => by_cases hu : uri = other <;> simp [Cache.remains, Entry.without, hu]
      | passes ps =>
        simp only [Option.bind_some, Cache.remains, Entry.without]
        split <;> simp_all
  · rw [Cache.discard_of_not_contains hc]
    refine ⟨fun h => ⟨h, ?_⟩, And.left⟩
    rintro rfl
    exact hc (by rw [Table.contains, h]; rfl)

/-- Only a pass that covers a document brings it into scope. -/
theorem inScope_of_inScope_apply {c : Cache} (h : (u.apply c).InScope uri) :
    c.InScope uri ∨ ∃ p, u = completed p ∧ p.covers uri = true := by
  obtain ⟨ps, hps⟩ := h
  cases u with
  | completed p =>
    rw [apply, Cache.get?_record] at hps
    split at hps
    · exact Or.inr ⟨p, rfl, ‹_›⟩
    · obtain ⟨e, he, hkept⟩ := Option.map_eq_some_iff.mp hps
      cases e with
      | outOfScope => cases hkept
      | passes qs => exact Or.inl ⟨qs, he⟩
  | skipped other =>
    rw [get?_apply_skipped] at hps
    split at hps
    · cases he : c.get? uri with
      | none => simp [he] at hps
      | some e => exact Or.inl ⟨ps, by simpa [he] using hps⟩
    · exact Or.inl ⟨ps, hps⟩
  | closed other =>
    rw [apply] at hps
    by_cases hc : c.contains other = true
    · rw [Cache.get?_discard hc] at hps
      obtain ⟨e, he, hleft⟩ := Option.bind_eq_some_iff.mp hps
      cases e with
      | outOfScope => by_cases hu : uri = other <;> simp [Cache.remains, Entry.without, hu] at hleft
      | passes qs => exact Or.inl ⟨qs, he⟩
    · rw [Cache.discard_of_not_contains hc] at hps
      exact Or.inl ⟨ps, hps⟩

theorem Apart.not_inScope (h : Apart out us) (hout : out uri) :
    ¬ (cacheAfter us).InScope uri := by
  induction us using List.reverseRecOn with
  | nil => simp [Cache.InScope]
  | append_singleton us u ih =>
    rw [cacheAfter_concat]
    intro hin
    rcases inScope_of_inScope_apply hin with hin | ⟨p, rfl, hp⟩
    · exact ih h.of_concat hin
    · exact h.completed p (List.mem_append_right us (List.mem_singleton_self _)) uri hp hout

/-- **A document bears the mark from being skipped to being closed.** -/
theorem get?_cacheAfter_eq_outOfScope_iff (h : Apart out us) (uri : Uri) :
    (cacheAfter us).get? uri = some .outOfScope ↔ Marked us uri := by
  induction us using List.reverseRecOn with
  | nil => simp [Marked]
  | append_singleton us u ih =>
    have hmark := ih h.of_concat
    rw [cacheAfter_concat, marked_concat, ← hmark]
    cases u with
    | completed p =>
      rw [apply, Cache.get?_record]
      by_cases hp : p.covers uri = true
      · have hin : ¬ out uri := h.completed p (List.mem_append_right us (by simp)) uri hp
        have hno : ¬ Marked us uri := fun hm => hin (h.of_concat.out_of_marked hm)
        simp [hp, hmark, hno]
      · rw [if_neg hp]
        cases (cacheAfter us).get? uri with
        | none => simp
        | some e => cases e <;> simp [Entry.without]
    | skipped other =>
      rw [get?_apply_skipped]
      by_cases hu : other = uri
      · subst hu
        have hin := h.of_concat.not_inScope (h.skipped other (List.mem_append_right us (by simp)))
        rw [if_pos rfl]
        cases he : (cacheAfter us).get? other with
        | none => simp
        | some e =>
          cases e with
          | outOfScope => simp
          | passes ps => exact absurd ⟨ps, he⟩ hin
      · simp [hu]
    | closed other =>
      rw [get?_apply_closed_eq_outOfScope_iff]
      simp [eq_comm]

/-- **A notification never names a document that bears the mark**, before it or after it. -/
theorem not_marked_of_mem_published (h : Apart out (us ++ [u])) {n : Publication}
    (hn : n ∈ u.published (cacheAfter us)) :
    ¬ Marked us n.uri ∧ ¬ Marked (us ++ [u]) n.uri := by
  have hafter := get?_cacheAfter_eq_outOfScope_iff h n.uri
  have hbefore := get?_cacheAfter_eq_outOfScope_iff h.of_concat n.uri
  rw [marked_concat] at hafter ⊢
  cases u with
  | skipped other => cases hn
  | completed p =>
    obtain ⟨uri, huri, rfl⟩ := List.mem_map.mp hn
    obtain ⟨ps, hps⟩ := (Cache.mem_subjects_iff _ _).mp huri
    rw [cacheAfter_concat, apply, hps] at hafter
    simpa using hafter
  | closed other =>
    obtain ⟨uri, huri, rfl⟩ := List.mem_map.mp hn
    rw [List.mem_eraseDups, Cache.discard] at huri
    split at huri
    · obtain ⟨p, hp, -⟩ := (Cache.mem_startedFrom_iff _ _ _).mp huri
      have hno : ¬ Marked us uri := by
        intro hm
        rw [Cache.passes_eq_of_get? (hbefore.mpr hm)] at hp
        cases hp
      exact ⟨hno, by simp [hno]⟩
    · cases huri

end Update

/-! ## Open documents and the store -/

/-- The document that an event changes or saves. -/
def Event.resumed? : Event → Option Uri
  | .didChange uri _ | .didSave uri => some uri
  | .start _ _ | .didOpen _ _ | .didClose _ | .pull _ => none

namespace Store

theorem resumed?_of_touch?_eq_changed {d : Store} {o : Occasion} {uri : Uri} {text : String}
    (h : d.touch? o = some (.changed uri text)) : o.event.resumed? = some uri := by
  rcases touch?_cases h with ⟨_, _, _, -, heq, -⟩ | ⟨other, edits, old, ho, heq, -⟩ |
    ⟨_, _, -, heq, -⟩ | ⟨_, -, heq⟩
  · cases heq
  · obtain ⟨rfl, -⟩ := Touch.changed.inj heq
    rw [ho]
    rfl
  · cases heq
  · cases heq

/-- The store has accepted an open or a save of a document, upon which it is analyzed. -/
def Offers (uri : Uri) (before : List Occasion) (o : Occasion) : Prop :=
  ∃ text, (after before).touch? o = some (.opened uri text) ∨
    (after before).touch? o = some (.saved uri text)

/-- A document was offered for analysis and not closed since, both under this very URI. -/
def Offered (uri : Uri) (es : List Occasion) : Prop :=
  Since (Offers uri) (fun before o => (after before).touch? o ≠ some (.closed uri)) es

/-- The store accepts no change and no save of a document that is not open, a document being what
one URI names. -/
def Guarded (es : List Occasion) : Prop :=
  ∀ before o after, es = before ++ o :: after → ∀ uri, o.event.resumed? = some uri →
    ¬ IsOpen uri before → (Store.after before).touch? o = none

theorem guarded_nil : Guarded [] := fun before o after h =>
  absurd h.symm (List.append_ne_nil_of_right_ne_nil before (List.cons_ne_nil o after))

theorem guarded_concat {es : List Occasion} {o : Occasion} :
    Guarded (es ++ [o]) ↔ Guarded es ∧ ∀ uri, o.event.resumed? = some uri →
      ¬ IsOpen uri es → (after es).touch? o = none := by
  constructor
  · intro h
    refine ⟨fun before x rest heq => h before x (rest ++ [o]) (by simp [heq]), h es o [] rfl⟩
  · rintro ⟨h, he⟩ before x rest heq
    rcases List.eq_nil_or_concat rest with rfl | ⟨init, y, rfl⟩
    · obtain ⟨rfl, rfl⟩ := List.append_singleton_inj.mp heq
      exact he
    · rw [List.concat_eq_append, ← List.cons_append, ← List.append_assoc] at heq
      exact h before x init (List.append_singleton_inj.mp heq).1

theorem offered_concat {uri : Uri} {es : List Occasion} {o : Occasion} :
    Offered uri (es ++ [o])
      ↔ Offered uri es ∧ (after es).touch? o ≠ some (.closed uri) ∨ Offers uri es o := since_concat

/-- **What is offered is held** where changes and saves are of open documents. -/
theorem offered_iff {uri : Uri} {es : List Occasion} (h : Guarded es) :
    Offered uri es ↔ ∃ text, Held uri text es := by
  induction es using List.reverseRecOn with
  | nil => simp [Offered, Held]
  | append_singleton es o ih =>
    obtain ⟨hbefore, hguard⟩ := guarded_concat.mp h
    have ih := ih hbefore
    rw [offered_concat]
    by_cases htouches : Touches uri es o
    · obtain ⟨t, ht, rfl⟩ := htouches
      simp only [held_concat_of_touch? ht, Offers, ht]
      cases t with
      | opened uri text | saved uri text => simp [Touch.uri, Touch.text?]
      | changed uri text =>
        have hopen : IsOpen uri es := by
          by_contra hclosed
          rw [hguard uri (resumed?_of_touch?_eq_changed ht) hclosed] at ht
          cases ht
        have hoffered : Offered uri es := ih.mpr (exists_held_of_isOpen hopen)
        simp [Touch.uri, Touch.text?, hoffered]
      | closed uri => simp [Touch.uri, Touch.text?]
    · simp only [held_concat_of_not_touches htouches, ih]
      have hoffers : ¬ Offers uri es o := by
        rintro ⟨text, ht | ht⟩
        · exact htouches ⟨_, ht, rfl⟩
        · exact htouches ⟨_, ht, rfl⟩
      have hclosed : (after es).touch? o ≠ some (.closed uri) :=
        fun ht => htouches ⟨_, ht, rfl⟩
      simp [hoffers, hclosed]

end Store

/-! ## Runs with or without an analyzer -/

/-- Nobody can analyze a document: there is no analyzer, or none that would know it by a name. -/
def Unanalyzable (present : Bool) (uri : Uri) : Prop :=
  ∃ name, Uri.filename? uri = .ok name ∧ (present = false ∨ name = none)

/-- There is an analyzer at every event of a run, or at none.  What it answers may change. -/
def Run.Steady (present : Bool) (es : Run) : Prop := ∀ e ∈ es, e.2.isSome = present

theorem Run.Steady.of_concat {present : Bool} {es : Run} {e : Occasion × Option Analyzer}
    (h : Run.Steady present (es ++ [e])) : Run.Steady present es ∧ e.2.isSome = present :=
  ⟨fun x hx => h x (List.mem_append_left _ hx), h e (List.mem_append_right _ (by simp))⟩

namespace Session

variable {s : Session} {analyzer : Option Analyzer} {o : Occasion} {uri : Uri}

/-- A document without a text is refused. -/
theorem exists_sourceOf_eq_error {documents : Table String String} {disk : Disk}
    (h : Store.source? (some documents) disk uri = none) :
    ∃ fault, sourceOf documents disk uri = .error fault := by
  cases hsource : sourceOf documents disk uri with
  | error fault => exact ⟨fault, rfl⟩
  | ok text => exact absurd h (by simp [Store.source?, hsource, Except.toOption])

/-- A change or a save that the store does not accept is refused, and nothing else comes of it. -/
theorem exists_step_eq_refused (hresumed : o.event.resumed? = some uri)
    (htouch : Store.touch? s.documents o = none) :
    ∃ fault, s.step analyzer o = s.refused fault := by
  obtain ⟨e, disk, directory⟩ := o
  cases e with
  | start | didOpen | didClose | pull => cases hresumed
  | didChange other edits =>
    cases hd : s.documents with
    | none => exact ⟨.notInitialized, by simp only [step, didChange, hd]⟩
    | some t =>
      have hsame : { s with documents := some t } = s := by rw [← hd]
      rw [hd] at htouch
      cases ht : t.get? (Uri.plain other) with
      | some old => simp [Store.touch?, Store.text?, ht] at htouch
      | none =>
        cases edits with
        | cons edit edits =>
          exact ⟨.notOpen (Uri.plain other), by simp [step, didChange, hd, edited, ht]⟩
        | nil =>
          have hnone : Store.source? (some t) disk other = none := by
            simpa [Store.touch?, Store.text?, ht] using htouch
          obtain ⟨fault, hfault⟩ := exists_sourceOf_eq_error hnone
          refine ⟨fault, ?_⟩
          simp only [step, didChange, hd, edited, ht, List.isEmpty_nil, if_true, hfault, hsame]
  | didSave other =>
    cases hd : s.documents with
    | none => exact ⟨.notInitialized, by simp only [step, didSave, hd]⟩
    | some t =>
      rw [hd, Store.touch?, Option.map_eq_none_iff] at htouch
      obtain ⟨fault, hfault⟩ := exists_sourceOf_eq_error htouch
      exact ⟨fault, by simp only [step, didSave, hd, hfault]⟩

/-! ## Analyses -/

theorem analysis?_eq_skipped_iff {text : String} {other : Uri} :
    s.analysis? analyzer uri text = some (.skipped other)
      ↔ uri = other ∧ Unanalyzable analyzer.isSome uri := by
  rw [Unanalyzable]
  unfold analysis?
  cases Uri.filename? uri with
  | error fault => simp
  | ok name =>
    cases name with
    | none => simp
    | some name =>
      cases analyzer with
      | none => simp
      | some analyzer =>
        dsimp only
        cases s.passOf analyzer uri name text <;> simp

/-- **A pass covers documents with a name only**, and there is an analyzer to make it. -/
theorem not_unanalyzable_of_analysis? {text : String} {p : Pass}
    (h : s.analysis? analyzer uri text = some (.completed p)) {other : Uri}
    (hcovers : p.covers other = true) : ¬ Unanalyzable analyzer.isSome other := by
  have hname : analyzer.isSome = true ∧ ∃ name, Uri.filename? uri = .ok (some name) := by
    unfold analysis? at h
    split at h
    · cases h
    · exact ⟨rfl, _, ‹_›⟩
    · cases h
  have hother : ∃ name, Uri.filename? other = .ok (some name) := by
    rcases analysis?_cases h with heq | ⟨q, result, heq, hq⟩
    · cases heq
    · obtain rfl := Update.completed.inj heq
      rcases Pass.eq_or_exists_resolve_of_covers hq hcovers with rfl | ⟨file, hfile⟩
      · exact hname.2
      · exact Resolver.exists_filename?_of_resolve hfile
  obtain ⟨name, hname'⟩ := hother
  rintro ⟨found, hfound, hnone⟩
  obtain rfl := Except.ok.inj (hname'.symm.trans hfound)
  rcases hnone with hnone | hnone
  · rw [hname.1] at hnone
    cases hnone
  · cases hnone

/-! ## What an event does to the marks -/

theorem update?_eq_closed_iff :
    s.update? analyzer o = some (.closed uri)
      ↔ Store.touch? s.documents o = some (.closed uri) := by
  rw [update?, Option.bind_eq_some_iff]
  constructor
  · rintro ⟨t, ht, hu⟩
    cases t with
    | opened other text | saved other text =>
      have hstarted := analyzed?_of_analysis? hu
      cases hstarted
    | changed other text => cases hu
    | closed other =>
      obtain rfl := Update.closed.inj (Option.some.inj hu)
      exact ht
  · exact fun ht => ⟨_, ht, rfl⟩

theorem update?_eq_skipped_iff :
    s.update? analyzer o = some (.skipped uri)
      ↔ (∃ text, Store.touch? s.documents o = some (.opened uri text) ∨
          Store.touch? s.documents o = some (.saved uri text)) ∧
        Unanalyzable analyzer.isSome uri := by
  rw [update?, Option.bind_eq_some_iff]
  constructor
  · rintro ⟨t, ht, hu⟩
    cases t with
    | opened other text =>
      obtain ⟨rfl, hout⟩ := analysis?_eq_skipped_iff.mp hu
      exact ⟨⟨text, Or.inl ht⟩, hout⟩
    | saved other text =>
      obtain ⟨rfl, hout⟩ := analysis?_eq_skipped_iff.mp hu
      exact ⟨⟨text, Or.inr ht⟩, hout⟩
    | changed other text => cases hu
    | closed other => cases hu
  · rintro ⟨⟨text, ht | ht⟩, hout⟩
    · exact ⟨_, ht, analysis?_eq_skipped_iff.mpr ⟨rfl, hout⟩⟩
    · exact ⟨_, ht, analysis?_eq_skipped_iff.mpr ⟨rfl, hout⟩⟩

theorem not_unanalyzable_of_update? {p : Pass}
    (h : s.update? analyzer o = some (.completed p)) {other : Uri}
    (hcovers : p.covers other = true) : ¬ Unanalyzable analyzer.isSome other := by
  obtain ⟨t, -, hu⟩ := Option.bind_eq_some_iff.mp h
  cases t with
  | opened | saved => exact not_unanalyzable_of_analysis? hu hcovers
  | changed | closed => cases hu

/-! ## Runs -/

variable (dir : String) {present : Bool} {es : Run}

/-- **A run skips only documents nobody can analyze, and covers none of them.** -/
theorem apart_history (h : Run.Steady present es) :
    Update.Apart (Unanalyzable present) ((initial dir).history es) := by
  induction es using List.reverseRecOn with
  | nil => exact ⟨by simp [history], by simp [history]⟩
  | append_singleton es e ih =>
    obtain ⟨hbefore, rfl⟩ := h.of_concat
    obtain ⟨hskipped, hcompleted⟩ := ih hbefore
    rw [history_concat]
    constructor
    · intro uri hmem
      rcases List.mem_append.mp hmem with hmem | hmem
      · exact hskipped uri hmem
      · exact (update?_eq_skipped_iff.mp (Option.mem_toList.mp hmem)).2
    · intro p hmem other hcovers
      rcases List.mem_append.mp hmem with hmem | hmem
      · exact hcompleted p hmem other hcovers
      · exact not_unanalyzable_of_update? (Option.mem_toList.mp hmem) hcovers

/-- The documents with a mark are those offered for analysis that nobody can analyze. -/
theorem marked_history_iff (h : Run.Steady present es) (uri : Uri) :
    Update.Marked ((initial dir).history es) uri
      ↔ Store.Offered uri (es.map Prod.fst) ∧ Unanalyzable present uri := by
  induction es using List.reverseRecOn with
  | nil => simp [history, Update.Marked, Store.Offered]
  | append_singleton es e ih =>
    obtain ⟨hbefore, rfl⟩ := h.of_concat
    rw [history_concat, Update.marked_append_toList, ih hbefore, ne_eq, update?_eq_closed_iff,
      update?_eq_skipped_iff, documents_after, List.map_append, List.map_singleton,
      Store.offered_concat, Store.Offers, or_and_right]
    rw [and_right_comm]

theorem get?_after_eq_outOfScope_iff (h : Run.Steady present es) (uri : Uri) :
    ((initial dir).after es).cache.get? uri = some .outOfScope
      ↔ Store.Offered uri (es.map Prod.fst) ∧ Unanalyzable present uri := by
  rw [cache_after, Update.get?_cacheAfter_eq_outOfScope_iff (apart_history dir h),
    marked_history_iff dir h]

/-- The documents with a live parse are those with a name that their last touch left with a text. -/
theorem exists_get?_parses_after_iff (dir : String) (es : Run) (uri : Uri) :
    (∃ p, ((initial dir).after es).parses.get? uri = some p)
      ↔ (∃ text, Store.Held uri text (es.map Prod.fst)) ∧ ∃ name, Uri.filename? uri = .ok name := by
  simp only [get?_parses_after, parseOf_eq_ok_iff]
  constructor
  · rintro ⟨p, text, hheld, name, hname, -⟩
    exact ⟨⟨text, hheld⟩, name, hname⟩
  · rintro ⟨⟨text, hheld⟩, name, hname⟩
    exact ⟨_, text, hheld, name, hname, rfl⟩

/-- Nobody can analyze a document that has a name or turns out to have none, unless there is an
analyzer and a name. -/
theorem unanalyzable_iff (present : Bool) (uri : Uri) :
    Unanalyzable present uri ↔ (∃ name, Uri.filename? uri = .ok name) ∧
      (present = false ∨ Uri.filename? uri = .ok none) := by
  rw [Unanalyzable]
  cases Uri.filename? uri <;> simp

/-- A step never notifies about a document that bears the mark, before it or after it. -/
theorem get?_ne_outOfScope_of_mem_published {e : Occasion × Option Analyzer}
    (h : Run.Steady present (es ++ [e])) {n : Publication}
    (hn : n ∈ (((initial dir).after es).step e.2 e.1).published) :
    ((initial dir).after es).cache.get? n.uri ≠ some .outOfScope ∧
      ((initial dir).after (es ++ [e])).cache.get? n.uri ≠ some .outOfScope := by
  have hapart := apart_history dir h
  rw [(((initial dir).after es).performs_step e.2 e.1).published, cache_after] at hn
  rw [cache_after, cache_after, ne_eq, ne_eq,
    Update.get?_cacheAfter_eq_outOfScope_iff (apart_history dir h.of_concat.1),
    Update.get?_cacheAfter_eq_outOfScope_iff hapart]
  rw [history_concat] at hapart ⊢
  cases hu : ((initial dir).after es).update? e.2 e.1 with
  | none =>
    rw [hu] at hn
    cases hn
  | some u =>
    rw [hu] at hn hapart
    exact Update.not_marked_of_mem_published hapart hn

/-- **Out of scope means open and not analyzable.**  In a run with an analyzer at every event or at
none, the documents out of scope are those that were offered for analysis by an open or a save, that
were not closed since, and that nobody can analyze.  If the store accepts changes and saves of open
documents only, these are the documents with a live parse that nobody can analyze.  No step notifies
about a document that is out of scope before it or after it. -/
theorem outOfScope_iff (h : Run.Steady present es) :
    (∀ uri, ((initial dir).after es).cache.get? uri = some .outOfScope ↔
        Store.Offered uri (es.map Prod.fst) ∧ Unanalyzable present uri) ∧
      (Store.Guarded (es.map Prod.fst) →
        ∀ uri, ((initial dir).after es).cache.get? uri = some .outOfScope ↔
          (∃ p, ((initial dir).after es).parses.get? uri = some p) ∧
            (present = false ∨ Uri.filename? uri = .ok none)) ∧
      ∀ before e after, es = before ++ e :: after →
        ∀ n ∈ (((initial dir).after before).step e.2 e.1).published,
          ((initial dir).after before).cache.get? n.uri ≠ some .outOfScope ∧
            ((initial dir).after (before ++ [e])).cache.get? n.uri ≠ some .outOfScope := by
  refine ⟨get?_after_eq_outOfScope_iff dir h, fun hguarded uri => ?_, ?_⟩
  · rw [get?_after_eq_outOfScope_iff dir h, Store.offered_iff hguarded, unanalyzable_iff,
      exists_get?_parses_after_iff, and_assoc]
  · rintro before e after rfl n hn
    have hprefix : Run.Steady present (before ++ [e]) := by
      intro x hx
      refine h x ?_
      rw [List.append_cons]
      exact List.mem_append_left after hx
    exact get?_ne_outOfScope_of_mem_published dir hprefix hn

/-- An analyzer that goes over the document alone is at work; of two open documents it can analyze
one, and the other is changed. -/
def remoteRun : Run :=
  let analyzer : Option Analyzer := some fun name _ => .ok (.clean [name])
  [(.atRoot (.start none none), analyzer), (.atRoot (.didOpen "http://h/a.stg" ""), analyzer),
    (.atRoot (.didOpen "file:///w/a.stg" ""), analyzer),
    (.atRoot (.didChange "http://h/a.stg" [⟨none, "("⟩]), analyzer)]

theorem guarded_remoteRun : Store.Guarded (remoteRun.map Prod.fst) := by
  have hopened : (Store.after [.atRoot (.start none none)]).touch?
      (.atRoot (.didOpen "http://h/a.stg" "")) = some (.opened "http://h/a.stg" "") := by
    decide +kernel
  have hother : (Store.after [.atRoot (.start none none),
      .atRoot (.didOpen "http://h/a.stg" "")]).touch? (.atRoot (.didOpen "file:///w/a.stg" ""))
        = some (.opened "file:///w/a.stg" "") := by decide +kernel
  have hopen : Store.IsOpen "http://h/a.stg" [.atRoot (.start none none),
      .atRoot (.didOpen "http://h/a.stg" ""), .atRoot (.didOpen "file:///w/a.stg" "")] :=
    since_concat.mpr (Or.inl ⟨Store.isOpen_concat_of_opened hopened, by simp [hother]⟩)
  change Store.Guarded ((([] ++ [.atRoot (.start none none)])
    ++ [.atRoot (.didOpen "http://h/a.stg" "")]) ++ [.atRoot (.didOpen "file:///w/a.stg" "")]
    ++ [.atRoot (.didChange "http://h/a.stg" [⟨none, "("⟩])])
  simp only [Store.guarded_concat, Occasion.atRoot, Event.resumed?]
  refine ⟨⟨⟨⟨Store.guarded_nil, by simp⟩, by simp⟩, by simp⟩, ?_⟩
  rintro uri heq hclosed
  obtain rfl := Option.some.inj heq
  exact absurd hopen hclosed

theorem outOfScope_iff_remoteRun :
    Run.Steady true remoteRun ∧ Store.Guarded (remoteRun.map Prod.fst) ∧
      ((initial "/").after remoteRun).cache.get? "http://h/a.stg" = some .outOfScope ∧
      ((initial "/").after remoteRun).cache.get? "file:///w/a.stg" ≠ some .outOfScope := by
  have hsteady : Run.Steady true remoteRun := by
    simp [Run.Steady, remoteRun]
  have hscope := (outOfScope_iff "/" hsteady).2.1 guarded_remoteRun
  refine ⟨hsteady, guarded_remoteRun, ?_, ?_⟩
  · refine (hscope _).mpr ⟨Option.isSome_iff_exists.mp (by decide +kernel), Or.inr ?_⟩
    decide +kernel
  · rw [ne_eq, hscope]
    rintro ⟨-, habsent⟩
    revert habsent
    decide +kernel

/-- A document that is changed under another URI than it was opened under has a live parse and no
mark there. -/
example :
    let s := (initial "/").after [(.atRoot (.start none none), none),
      (.atRoot (.didOpen "file:///w/a.stg" ""), none),
      (.atRoot (.didChange "file:///w/%61.stg" []), none)]
    (s.parses.get? "file:///w/%61.stg").isSome = true ∧
      s.cache.contains "file:///w/%61.stg" = false := by
  decide +kernel

end Session

end StagedDiagnostics
