import StagedDiagnostics.Proofs.Cache.Discard
import StagedDiagnostics.Proofs.Session.LivePasses
import StagedDiagnostics.Proofs.Session.Shown

/-!
# Proofs/Session/Closing — documents may be closed in any order

    close a, close b, …        ══        what is left when all of them are closed

A close may remove the very entry that the next close looks for before it acts.  This does no harm
in a session: every pass of the cache stands with the document it was started from
(`Cache.Rooted`), so a document the cache does not know has no pass to take along.  Then a close
acts on each entry alone, and closes one after another leave of an entry what the **set** of the
closed documents says (`remainsAll`), as they do with the texts and the live parses.

* `after_closeAll` — the session after any number of closes, in closed form;
* `mem_sent_closeAll_iff` — which documents they notify about.
-/

namespace StagedDiagnostics

/-! ## Tables without some of their keys -/

namespace Table

variable {κ α : Type} [DecidableEq κ]

/-- Removes some keys. -/
def eraseAll (t : Table κ α) (ks : List κ) : Table κ α :=
  t.filterMap fun k v => if k ∈ ks then none else some v

@[simp] theorem eraseAll_nil (t : Table κ α) : t.eraseAll [] = t :=
  filterMap_eq_self fun _ _ _ => if_neg List.not_mem_nil

/-- Removing one key and then others is removing them all. -/
theorem eraseAll_erase (t : Table κ α) (k : κ) (ks : List κ) :
    (t.erase k).eraseAll ks = t.eraseAll (k :: ks) := by
  rw [eraseAll, erase, filterMap_filterMap, eraseAll]
  congr 1
  funext j v
  by_cases h : j = k <;> simp [h]

theorem eraseAll_congr {ks js : List κ} (h : ∀ k, k ∈ ks ↔ k ∈ js) (t : Table κ α) :
    t.eraseAll ks = t.eraseAll js := by
  simp only [eraseAll, h]

end Table

/-! ## Entries after several closes -/

namespace Cache

/-- What is left of the entry of `uri` when all of some documents are closed: an entry goes if it
has lost its passes, or had none and is the entry of a closed document. -/
def remainsAll (closed : List Uri) (uri : Uri) : Entry → Option Entry
  | .outOfScope => if uri ∈ closed then none else some .outOfScope
  | .passes ps =>
    if (∃ p ∈ ps, p.entry ∉ closed) ∨ (ps = [] ∧ uri ∉ closed) then
      some (.passes (ps.filter fun p => p.entry ∉ closed))
    else none

theorem remainsAll_congr {closed others : List Uri} (h : ∀ uri, uri ∈ closed ↔ uri ∈ others) :
    remainsAll closed = remainsAll others := by
  funext uri e
  cases e <;> simp only [remainsAll, h]

@[simp] theorem remainsAll_nil (uri : Uri) (e : Entry) : remainsAll [] uri e = some e := by
  cases e with
  | outOfScope => rfl
  | passes ps => cases ps <;> simp [remainsAll]

/-- **One close and then others are one close of them all.** -/
theorem bind_remains_remainsAll (closed : Uri) (others : List Uri) (uri : Uri) (e : Entry) :
    (remains closed uri e).bind (remainsAll others uri) = remainsAll (closed :: others) uri e := by
  cases e with
  | outOfScope => by_cases h : uri = closed <;> simp [remains, Entry.without, remainsAll, h]
  | passes ps =>
    rw [remains_passes]
    by_cases hstays : ∃ p ∈ ps, p.entry ≠ closed
    · -- the passes that stay are not none, so the second close is decided by them alone
      have hne : ps ≠ [] := by
        rintro rfl
        simp at hstays
      rw [if_pos (Or.inl hstays), Option.bind_some, remainsAll, remainsAll, List.filter_filter]
      have hkept : (ps.filter fun p => p.entry ≠ closed) ≠ [] := by
        obtain ⟨p, hp, hclosed⟩ := hstays
        exact List.ne_nil_of_mem (List.mem_filter.mpr ⟨hp, decide_eq_true hclosed⟩)
      simp only [hne, hkept, false_and, or_false, List.mem_filter, List.mem_cons, not_or,
        decide_eq_true_eq, and_assoc, Bool.decide_and, Bool.and_comm]
    · have hall : ¬ ∃ p ∈ ps, p.entry ∉ closed :: others := by
        rintro ⟨p, hp, hclosed⟩
        exact hstays ⟨p, hp, fun heq => hclosed (heq ▸ List.mem_cons_self)⟩
      rw [remainsAll]
      by_cases hidle : ps = [] ∧ uri ≠ closed
      · obtain ⟨rfl, huri⟩ := hidle
        simp [remainsAll, huri]
      · have hgone : ¬ (ps = [] ∧ uri ∉ closed :: others) := by
          rintro ⟨hnil, huri⟩
          exact hidle ⟨hnil, fun heq => huri (heq ▸ List.mem_cons_self)⟩
        rw [if_neg (not_or.mpr ⟨hstays, hidle⟩), if_neg (not_or.mpr ⟨hall, hgone⟩)]
        rfl

end Cache

namespace Session

/-! ## Sessions after several closes -/

/-- The closes of some documents, one after another. -/
def closeAll (uris : List Uri) (disk : Disk) (directory : String) (analyzer : Option Analyzer) :
    Run :=
  uris.map fun uri => (⟨.didClose uri, disk, directory⟩, analyzer)

/-- The session with all of some documents closed; before the start there is nothing to close. -/
def closed (s : Session) (uris : List Uri) : Session :=
  match s.documents with
  | none => s
  | some documents =>
    { s with
      documents := some (documents.eraseAll (uris.map Uri.plain))
      parses := s.parses.eraseAll uris
      cache := s.cache.filterMap (Cache.remainsAll uris) }

theorem closed_congr {uris others : List Uri} (h : ∀ uri, uri ∈ uris ↔ uri ∈ others)
    (s : Session) : s.closed uris = s.closed others := by
  have hplain : ∀ name, name ∈ uris.map Uri.plain ↔ name ∈ others.map Uri.plain := by
    simp only [List.mem_map, h, implies_true]
  rw [closed, closed]
  cases s.documents with
  | none => rfl
  | some documents =>
    simp only [Table.eraseAll_congr hplain, Table.eraseAll_congr h, Cache.remainsAll_congr h]

theorem closed_nil (s : Session) : s.closed [] = s := by
  have hcache : s.cache.filterMap (Cache.remainsAll []) = s.cache :=
    Table.filterMap_eq_self fun uri e _ => Cache.remainsAll_nil uri e
  rw [closed]
  cases hd : s.documents with
  | none => rfl
  | some documents =>
    simp only [List.map_nil, Table.eraseAll_nil, hcache, ← hd]

/-- **One close and then others**, of a session whose cache is rooted. -/
theorem closed_didClose {s : Session} (h : s.cache.Rooted) (uri : Uri) (uris : List Uri) :
    (s.didClose uri).session.closed uris = s.closed (uri :: uris) := by
  rw [didClose]
  cases hd : s.documents with
  | none => simp only [refused, closed, hd]
  | some documents =>
    simp only [closed, hd, h.discard_eq, Table.filterMap_filterMap,
      Cache.bind_remains_remainsAll, Table.eraseAll_erase, List.map_cons]

/-- A close leaves a session with a rooted cache. -/
theorem rooted_didClose {s : Session} (h : s.cache.Rooted) (uri : Uri) :
    (s.didClose uri).session.cache.Rooted := by
  rw [didClose]
  cases s.documents with
  | none => exact h
  | some documents => exact h.discard uri

/-- **Closes one after another close them all**, whatever is on disk and whoever could analyze. -/
theorem after_closeAll {s : Session} (h : s.cache.Rooted) (uris : List Uri) (disk : Disk)
    (directory : String) (analyzer : Option Analyzer) :
    s.after (closeAll uris disk directory analyzer) = s.closed uris := by
  induction uris generalizing s with
  | nil => exact s.closed_nil.symm
  | cons uri uris ih => exact (ih (rooted_didClose h uri)).trans (closed_didClose h uri uris)

/-! ## What closes notify about -/

/-- A close notifies about the documents that lose a pass. -/
theorem mem_published_didClose_iff {s : Session} (h : s.cache.Rooted) (closed uri : Uri) :
    uri ∈ (s.didClose closed).published.map Publication.uri ↔
      s.documents.isSome ∧ ∃ p ∈ s.cache.passes uri, p.entry = closed := by
  rw [didClose]
  cases s.documents with
  | none => simp [refused]
  | some documents =>
    have hknown : (∃ p ∈ s.cache.passes uri, p.entry = closed) → s.cache.contains closed = true :=
      fun hlost => h.contains_of_holds ⟨uri, hlost⟩
    rw [Publication.map_uri_ofUris, List.mem_eraseDups, Cache.mem_changed_iff,
      and_iff_right_of_imp hknown, Option.isSome_some, and_iff_right rfl]

/-- **Closes notify about the documents that lose a pass to one of them**, whatever their order. -/
theorem mem_sent_closeAll_iff {s : Session} (h : s.cache.Rooted) (uris : List Uri) (disk : Disk)
    (directory : String) (analyzer : Option Analyzer) (uri : Uri) :
    uri ∈ (s.sent (closeAll uris disk directory analyzer)).map Publication.uri ↔
      s.documents.isSome ∧ ∃ p ∈ s.cache.passes uri, p.entry ∈ uris := by
  induction uris generalizing s with
  | nil => simp [closeAll, sent, outcomes]
  | cons closed uris ih =>
    have hsent : s.sent (closeAll (closed :: uris) disk directory analyzer)
        = (s.didClose closed).published
          ++ (s.didClose closed).session.sent (closeAll uris disk directory analyzer) := rfl
    rw [hsent, List.map_append, List.mem_append, mem_published_didClose_iff h,
      ih (rooted_didClose h closed)]
    cases hd : s.documents with
    | none => simp [didClose, hd, refused]
    | some documents =>
      simp only [didClose, hd, Option.isSome_some, true_and, h.passes_discard, List.mem_filter,
        decide_eq_true_eq, List.mem_cons]
      constructor
      · rintro (⟨p, hp, hclosed⟩ | ⟨p, ⟨hp, -⟩, hclosed⟩)
        · exact ⟨p, hp, Or.inl hclosed⟩
        · exact ⟨p, hp, Or.inr hclosed⟩
      · rintro ⟨p, hp, hclosed⟩
        by_cases heq : p.entry = closed
        · exact Or.inl ⟨p, hp, heq⟩
        · exact Or.inr ⟨p, ⟨hp, heq⟩, hclosed.resolve_left heq⟩

/-! ## Closes after a run -/

/-- Every cache of a session is rooted. -/
theorem rooted_after (dir : String) (es : Run) : ((initial dir).after es).cache.Rooted := by
  rw [cache_after]
  exact Update.rooted_cacheAfter ((initial dir).selfCovering_history es)

/-- **In a session that has started a close is complete**: it leaves no pass of the closed document
behind, though its early exit might. -/
theorem not_holds_after_didClose (dir : String) (es : Run) (uri : Uri)
    (hd : ((initial dir).after es).documents.isSome) :
    ¬ (((initial dir).after es).didClose uri).session.cache.Holds uri := by
  obtain ⟨documents, hd⟩ := Option.isSome_iff_exists.mp hd
  rw [didClose, hd]
  exact (rooted_after dir es).not_holds_discard uri

/-- **The order of closes does not matter.**  After every run, closing the same documents in two
ways leads to one session, with the same texts, live parses and cache, each in the same order.
Both ways notify about the same documents, and afterwards every document is shown the same. -/
theorem after_closeAll_congr (dir : String) (es : Run) {uris others : List Uri}
    (h : ∀ uri, uri ∈ uris ↔ uri ∈ others) (disk otherDisk : Disk)
    (directory otherDirectory : String) (analyzer otherAnalyzer : Option Analyzer) :
    let closes := closeAll uris disk directory analyzer
    let otherCloses := closeAll others otherDisk otherDirectory otherAnalyzer
    (initial dir).after (es ++ closes) = (initial dir).after (es ++ otherCloses) ∧
      (∀ uri, uri ∈ (((initial dir).after es).sent closes).map Publication.uri ↔
        uri ∈ (((initial dir).after es).sent otherCloses).map Publication.uri) ∧
      ∀ uri, Publication.shown ((initial dir).sent (es ++ closes)) uri
        = Publication.shown ((initial dir).sent (es ++ otherCloses)) uri := by
  intro closes otherCloses
  have hrooted := rooted_after dir es
  have hsession : (initial dir).after (es ++ closes) = (initial dir).after (es ++ otherCloses) := by
    rw [after_append, after_append, after_closeAll hrooted, after_closeAll hrooted,
      closed_congr h]
  refine ⟨hsession, fun uri => ?_, fun uri => ?_⟩
  · simp only [closes, otherCloses, mem_sent_closeAll_iff hrooted, h]
  · have hshown : Publication.shown ((initial dir).sent (es ++ closes)) uri
        = ((initial dir).after (es ++ closes)).cache.full uri :=
      (initial dir).shown_sent [] rfl _
    rw [hsession] at hshown
    exact hshown.trans ((initial dir).shown_sent [] rfl _).symm

/-- Three programs, the second of which is known only by a pass of the first, while the third was
never opened but saved on disk. -/
def sharedRun : Run :=
  [(.atRoot (.start none none), none),
    (.atRoot (.didOpen "untitled:Untitled-1" ""),
      some fun _ _ => .ok (.clean ["Untitled-1", "Untitled-2"])),
    (.atRoot (.didOpen "untitled:Untitled-2" ""), some fun _ _ => .error .notInitialized),
    (⟨.didSave "untitled:Untitled-3", fun _ => .ok "", "/"⟩,
      some fun _ _ => .ok (.clean ["Untitled-3"]))]

theorem after_closeAll_congr_sharedRun :
    let closing (uris : List Uri) : Session :=
      (initial "/").after (sharedRun ++ closeAll uris .empty "/" none)
    (∀ uri, uri ∈ ["untitled:Untitled-1", "untitled:Untitled-2"] ↔
        uri ∈ ["untitled:Untitled-2", "untitled:Untitled-1"]) ∧
      closing ["untitled:Untitled-1", "untitled:Untitled-2"]
        = closing ["untitled:Untitled-2", "untitled:Untitled-1"] ∧
      -- on the way the second document goes with the first, or stays when it is closed first
      (closing ["untitled:Untitled-1"]).cache.keys = ["untitled:Untitled-3"] ∧
      (closing ["untitled:Untitled-2"]).cache.keys
        = ["untitled:Untitled-1", "untitled:Untitled-2", "untitled:Untitled-3"] := by
  intro closing
  have hsame : ∀ uri, uri ∈ ["untitled:Untitled-1", "untitled:Untitled-2"] ↔
      uri ∈ ["untitled:Untitled-2", "untitled:Untitled-1"] := by simp [or_comm]
  obtain ⟨hsession, -⟩ := after_closeAll_congr "/" sharedRun hsame .empty .empty "/" "/" none none
  refine ⟨hsame, hsession, ?_, ?_⟩
  · decide +kernel
  · decide +kernel

end Session

end StagedDiagnostics
