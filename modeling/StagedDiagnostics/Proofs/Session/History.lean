import StagedDiagnostics.Proofs.Cache.Lookup
import StagedDiagnostics.Proofs.Session.Store

/-!
# Proofs/Session/History — what a step does, and a run as the cache sees it

    occasion ──touch?──▸ touch ──updateOf?──▸ update ──apply──▸ cache
                                                     ──published──▸ notifications

An event changes the cache in one of three ways: a pass has completed, a document was skipped since
nobody can analyze it, or a document was closed.  Whether it does, and how, is read off the touch
the event is to the store and off the analyzer, never off the cache (`update?`).  Two theorems
reduce a session to its updates:

* `performs_step` — what a step does to the documents, the live parses and the cache and what it
  sends is what the store, its touch and its update do and send;
* `cache_after` — the cache after a run is what the updates of the run make of the empty cache.
-/

namespace StagedDiagnostics

/-! ## Updates -/

/-- What an event does to the cache. -/
inductive Update
  | completed (p : Pass)
  /-- An analysis of a document nobody can analyze. -/
  | skipped (uri : Uri)
  | closed (uri : Uri)

namespace Update

/-- The cache after an update. -/
def apply (c : Cache) : Update → Cache
  | completed p => c.record p
  | skipped uri => if c.contains uri then c else c.markOutOfScope uri
  | closed uri => (c.discard uri).1

/-- The notifications an update sends. -/
def published (c : Cache) : Update → List Publication
  | completed p => Publication.sweep (c.record p)
  | skipped _ => []
  | closed uri => Publication.ofUris (c.discard uri).1 (c.discard uri).2

/-- The cache that updates make of the empty one. -/
def cacheAfter (us : List Update) : Cache := us.foldl apply Table.empty

@[simp] theorem cacheAfter_nil : cacheAfter [] = Table.empty := rfl

@[simp] theorem cacheAfter_concat (us : List Update) (u : Update) :
    cacheAfter (us ++ [u]) = u.apply (cacheAfter us) := by
  rw [cacheAfter, List.foldl_append]
  rfl

/-- The document an update comes from an analysis of. -/
def analyzed? : Update → Option Uri
  | completed p => some p.entry
  | skipped uri => some uri
  | closed _ => none

/-- A document is skipped without any document losing or gaining a pass. -/
theorem passes_apply_skipped (c : Cache) (uri other : Uri) :
    ((skipped uri).apply c).passes other = c.passes other := by
  rw [apply]
  by_cases h : c.contains uri = true
  · rw [if_pos h]
  · rw [if_neg h, Cache.passes_markOutOfScope]
    by_cases hu : uri = other
    · subst hu
      rw [if_pos rfl, Cache.passes_eq_nil_of_not_contains h]
    · rw [if_neg hu]

theorem contains_apply_skipped_iff (c : Cache) (uri other : Uri) :
    ((skipped uri).apply c).contains other = true ↔ uri = other ∨ c.contains other = true := by
  rw [apply]
  by_cases h : c.contains uri = true
  · rw [if_pos h]
    exact ⟨Or.inr, fun ho => ho.elim (fun heq => heq ▸ h) id⟩
  · rw [if_neg h, Cache.contains_markOutOfScope_iff]

end Update

theorem Pass.exists_of_ofResult {entry : Uri} {result : AnalysisResult} {resolver : Resolver}
    {p : Pass} (h : Pass.ofResult entry result resolver = .ok p) :
    ∃ b : Buckets, p = ⟨entry, b.ensure entry⟩ := by
  rw [Pass.ofResult] at h
  cases hb : Buckets.ofResult result resolver with
  | error fault =>
    rw [hb] at h
    cases h
  | ok b =>
    rw [hb] at h
    exact ⟨b, (Except.ok.inj h).symm⟩

/-- A pass made of a result covers the document it was started from. -/
theorem Pass.covers_of_ofResult {entry : Uri} {result : AnalysisResult} {resolver : Resolver}
    {p : Pass} (h : Pass.ofResult entry result resolver = .ok p) : p.covers p.entry = true := by
  obtain ⟨b, rfl⟩ := Pass.exists_of_ofResult h
  rw [Pass.covers, Table.contains_iff, Buckets.keys_ensure]
  split
  · assumption
  · exact List.mem_append_right _ (List.mem_singleton_self entry)

namespace Session

/-! ## The update of an event -/

/-- What an analysis does to the cache: nothing if it is refused. -/
def analysis? (s : Session) (analyzer : Option Analyzer) (uri : Uri) (text : String) :
    Option Update :=
  match Uri.filename? uri, analyzer with
  | .error _, _ => none
  | .ok (some name), some analyzer =>
    match s.passOf analyzer uri name text with
    | .error _ => none
    | .ok p => some (.completed p)
  | .ok _, _ => some (.skipped uri)

/-- What a touch does to the cache: a change alone does nothing. -/
def updateOf? (s : Session) (analyzer : Option Analyzer) : Touch → Option Update
  | .opened uri text | .saved uri text => s.analysis? analyzer uri text
  | .changed _ _ => none
  | .closed uri => some (.closed uri)

/-- What an event does to the cache, if anything. -/
def update? (s : Session) (analyzer : Option Analyzer) (o : Occasion) : Option Update :=
  (Store.touch? s.documents o).bind (s.updateOf? analyzer)

/-- The updates of a run, in order. -/
def history (s : Session) : Run → List Update
  | [] => []
  | e :: es => (s.update? e.2 e.1).toList ++ (s.step e.2 e.1).session.history es

/-! ## One step -/

/-- An outcome leaves these documents and these live parses, leaves the cache that an update makes
of `c`, and sends what the update sends. -/
structure Performs (d : Store) (parses : Table Uri Parse) (c : Cache) (u : Option Update)
    (o : Outcome) : Prop where
  documents : o.session.documents = d
  parses : o.session.parses = parses
  cache : o.session.cache = u.elim c (Update.apply c)
  published : o.published = u.elim [] (Update.published c)

theorem performs_skip (s : Session) (uri : Uri) :
    Performs s.documents s.parses s.cache (some (.skipped uri)) (s.markUnknown uri).accepted := by
  simp only [accepted, markUnknown]
  split
  · rename_i h
    exact ⟨rfl, rfl, (if_pos h).symm, rfl⟩
  · rename_i h
    exact ⟨rfl, rfl, (if_neg h).symm, rfl⟩

theorem performs_analyze (s : Session) (analyzer : Option Analyzer) (uri : Uri) (text : String) :
    Performs s.documents s.parses s.cache (s.analysis? analyzer uri text)
      (s.analyze analyzer uri text) := by
  unfold analyze analysis?
  cases Uri.filename? uri with
  | error fault => exact ⟨rfl, rfl, rfl, rfl⟩
  | ok name =>
    cases name with
    | none => exact s.performs_skip uri
    | some name =>
      cases analyzer with
      | none => exact s.performs_skip uri
      | some analyzer =>
        dsimp only
        cases s.passOf analyzer uri name text <;> exact ⟨rfl, rfl, rfl, rfl⟩

/-- A document that is parsed and analyzed keeps its new parse whatever becomes of the analysis. -/
theorem performs_parseAndAnalyze (s : Session) (analyzer : Option Analyzer) (uri : Uri)
    (text : String) :
    Performs s.documents (Touch.reparse s.parses uri text) s.cache (s.analysis? analyzer uri text)
      (s.parseAndAnalyze analyzer uri text) := by
  rw [parseAndAnalyze, Touch.reparse]
  cases hf : Uri.filename? uri with
  | error fault =>
    simp only [parseOf, analysis?, hf, Except.map]
    exact ⟨rfl, rfl, rfl, rfl⟩
  | ok name =>
    simp only [parseOf, hf, Except.map]
    exact (s.withParse uri (Parse.ofText text name)).performs_analyze analyzer uri text

theorem performs_parseOnly (s : Session) (uri : Uri) (text : String) :
    Performs s.documents (Touch.reparse s.parses uri text) s.cache none (s.parseOnly uri text) := by
  rw [parseOnly, Touch.reparse]
  cases parseOf uri text <;> exact ⟨rfl, rfl, rfl, rfl⟩

/-- A change is either of a document in the store, which then has the new text, or without edits of
one that is not, which is read from disk and not stored. -/
theorem performs_didChange (s : Session) (disk : Disk) (directory : String) (uri : Uri)
    (edits : List Edit) :
    Performs (Store.step s.documents ⟨.didChange uri edits, disk, directory⟩)
      ((Store.touch? s.documents ⟨.didChange uri edits, disk, directory⟩).elim s.parses
        (Touch.apply s.parses)) s.cache none (s.didChange disk uri edits) := by
  simp only [didChange, Store.step, Store.touch?, Store.text?]
  cases hd : s.documents with
  | none => cases edits <;> exact ⟨hd, rfl, rfl, rfl⟩
  | some t =>
    cases ht : t.get? (Uri.plain uri) with
    | some old =>
      have hsource : sourceOf (t.insert (Uri.plain uri) (Edit.applyAll old edits)) disk uri
          = .ok (Edit.applyAll old edits) := by
        rw [sourceOf, Table.get?_insert_self]
      simp only [edited, ht, hsource, Option.bind_some, Option.elim_some, Store.apply,
        Store.text?, Option.isSome_some, if_true]
      exact (s.withText t uri (Edit.applyAll old edits)).performs_parseOnly uri _
    | none =>
      cases edits with
      | cons edit edits =>
        simp only [edited, ht, Option.bind_some, List.isEmpty_cons, Bool.false_eq_true, if_false]
        exact ⟨hd, rfl, rfl, rfl⟩
      | nil =>
        simp only [edited, ht, Option.bind_some, List.isEmpty_nil, if_true, Store.source?]
        cases sourceOf t disk uri with
        | error fault => exact ⟨rfl, rfl, rfl, rfl⟩
        | ok text =>
          simp only [Except.toOption, Option.map_some, Option.elim_some, Store.apply, Store.text?,
            Option.bind_some, ht, Option.isSome_none, Bool.false_eq_true, if_false]
          exact { s with documents := some t }.performs_parseOnly uri text

/-- **A step does to the documents what the store does by itself, to the live parses what its touch
does, and to the cache what its update does**, and it sends what the update sends. -/
theorem performs_step (s : Session) (analyzer : Option Analyzer) (o : Occasion) :
    Performs (Store.step s.documents o)
      ((Store.touch? s.documents o).elim s.parses (Touch.apply s.parses)) s.cache
      (s.update? analyzer o) (s.step analyzer o) := by
  unfold update?
  obtain ⟨e, disk, directory⟩ := o
  cases e with
  | start rootUri rootPath =>
    simp only [step, start, Store.step, Store.touch?]
    cases rootOf rootUri rootPath <;> exact ⟨rfl, rfl, rfl, rfl⟩
  | didOpen uri text =>
    simp only [step, didOpen, Store.step, Store.touch?]
    cases hd : s.documents with
    | none => exact ⟨hd, rfl, rfl, rfl⟩
    | some t =>
      cases Uri.diskPath uri with
      | error fault => exact ⟨hd, rfl, rfl, rfl⟩
      | ok path => exact (s.withText t uri text).performs_parseAndAnalyze analyzer uri text
  | didChange uri edits =>
    have hidle : (Store.touch? s.documents ⟨.didChange uri edits, disk, directory⟩).bind
        (s.updateOf? analyzer) = none := by
      refine Option.bind_eq_none_iff.mpr fun t ht => ?_
      rcases Store.touch?_cases ht with ⟨_, _, _, he, -⟩ | ⟨_, _, _, -, rfl, -⟩ | ⟨_, _, he, -⟩ |
        ⟨_, he, -⟩
      · cases he
      · rfl
      · cases he
      · cases he
    rw [hidle]
    exact s.performs_didChange disk directory uri edits
  | didSave uri =>
    simp only [step, didSave, Store.step, Store.touch?, Store.source?]
    cases hd : s.documents with
    | none => exact ⟨hd, rfl, rfl, rfl⟩
    | some t =>
      simp only [Option.bind_some]
      cases sourceOf t disk uri with
      | error fault => exact ⟨hd, rfl, rfl, rfl⟩
      | ok text => exact hd ▸ s.performs_parseAndAnalyze analyzer uri text
  | didClose uri =>
    simp only [step, didClose, Store.step, Store.touch?]
    cases hd : s.documents with
    | none => exact ⟨hd, rfl, rfl, rfl⟩
    | some t => exact ⟨rfl, rfl, rfl, rfl⟩
  | pull uri => exact ⟨rfl, rfl, rfl, rfl⟩

/-- An analysis makes a pass of some result, or it skips the document. -/
theorem analysis?_cases {s : Session} {analyzer : Option Analyzer} {uri : Uri} {text : String}
    {u : Update} (h : s.analysis? analyzer uri text = some u) :
    u = .skipped uri ∨
      ∃ p result, u = .completed p ∧ Pass.ofResult uri result s.resolver = .ok p := by
  unfold analysis? at h
  split at h
  · cases h
  · rename_i name analyzer _
    cases hp : s.passOf analyzer uri name text with
    | error fault =>
      rw [hp] at h
      cases h
    | ok p =>
      rw [hp] at h
      rw [passOf] at hp
      cases hr : analyzer name text with
      | error fault =>
        rw [hr] at hp
        cases hp
      | ok result =>
        rw [hr] at hp
        exact Or.inr ⟨p, result, (Option.some.inj h).symm, hp⟩
  · exact Or.inl (Option.some.inj h).symm

/-- What an analysis does to the cache it does in the name of the document it was started from. -/
theorem analyzed?_of_analysis? {s : Session} {analyzer : Option Analyzer} {uri : Uri}
    {text : String} {u : Update} (h : s.analysis? analyzer uri text = some u) :
    u.analyzed? = some uri := by
  rcases analysis?_cases h with rfl | ⟨p, result, rfl, hp⟩
  · rfl
  · obtain ⟨b, rfl⟩ := Pass.exists_of_ofResult hp
    rfl

theorem covers_of_analysis? {s : Session} {analyzer : Option Analyzer} {uri : Uri} {text : String}
    {p : Pass} (h : s.analysis? analyzer uri text = some (.completed p)) :
    p.covers p.entry = true := by
  rcases analysis?_cases h with heq | ⟨q, result, heq, hq⟩
  · cases heq
  · obtain rfl := Update.completed.inj heq
    exact Pass.covers_of_ofResult hq

/-- A step keeps the invariant that a completed pass covers the document it was started from. -/
theorem covers_of_update? {s : Session} {analyzer : Option Analyzer} {o : Occasion} {p : Pass}
    (h : s.update? analyzer o = some (.completed p)) : p.covers p.entry = true := by
  obtain ⟨t, -, h⟩ := Option.bind_eq_some_iff.mp h
  cases t with
  | opened | saved => exact covers_of_analysis? h
  | changed | closed => cases h

/-! ## Runs -/

theorem after_concat (s : Session) (es : Run) (e : Occasion × Option Analyzer) :
    s.after (es ++ [e]) = ((s.after es).step e.2 e.1).session := s.after_append es [e]

/-- Every outcome of a run is that of a step. -/
theorem exists_of_mem_outcomes {s : Session} {es : Run} {o : Outcome} (h : o ∈ s.outcomes es) :
    ∃ (t : Session) (e : Occasion × Option Analyzer), o = t.step e.2 e.1 := by
  induction es generalizing s with
  | nil => cases h
  | cons e es ih =>
    rcases List.mem_cons.mp h with h | h
    · exact ⟨s, e, h⟩
    · exact ih h

theorem history_append (s : Session) (es fs : Run) :
    s.history (es ++ fs) = s.history es ++ (s.after es).history fs := by
  induction es generalizing s with
  | nil => rfl
  | cons e es ih =>
    rw [List.cons_append, history, ih, history, List.append_assoc]
    rfl

theorem history_concat (s : Session) (es : Run) (e : Occasion × Option Analyzer) :
    s.history (es ++ [e]) = s.history es ++ ((s.after es).update? e.2 e.1).toList := by
  rw [history_append, history, history, List.append_nil]

/-- **The cache after a run is the cache its updates make.** -/
theorem cache_after (dir : String) (es : Run) :
    ((initial dir).after es).cache = Update.cacheAfter ((initial dir).history es) := by
  induction es using List.reverseRecOn with
  | nil => rfl
  | append_singleton es e ih =>
    have hstep := (((initial dir).after es).performs_step e.2 e.1).cache
    rw [after_concat, history_concat, hstep, ih]
    cases ((initial dir).after es).update? e.2 e.1 with
    | none => simp
    | some u => simp

/-- Every pass that a run completes covers the document it was started from. -/
theorem covers_of_mem_history {s : Session} {es : Run} {p : Pass}
    (h : .completed p ∈ s.history es) : p.covers p.entry = true := by
  induction es generalizing s with
  | nil => cases h
  | cons e es ih =>
    rw [history, List.mem_append, Option.mem_toList] at h
    rcases h with h | h
    · exact covers_of_update? h
    · exact ih h

end Session

end StagedDiagnostics
