import StagedDiagnostics.Proofs.Cache.Lookup
import StagedDiagnostics.Proofs.Session.History

/-!
# Proofs/Session/Shown — a client shows what the cache says

A client replaces what it shows for a document whenever it is notified about it, and keeps it
otherwise.  So it stays right if every step **accounts** for what it does to the cache: each
notification carries what the cache says afterwards, and a document without one is shown the same
as before (`Accounts`).

* a recorded pass is followed by a sweep; what the sweep leaves out was shown nothing before;
* a close notifies about the documents that lose a pass, and the others keep theirs.
-/

namespace StagedDiagnostics

namespace Publication

/-- What a client shows for a document: the list of the last notification about it, and nothing
before the first one. -/
def shown (sent : List Publication) (uri : Uri) : List Diagnostic :=
  ((sent.filter fun p => p.uri = uri).getLast?.map Publication.diagnostics).getD []

/-- Notifications account for a change of the cache. -/
structure Accounts (before after : Cache) (sent : List Publication) : Prop where
  nodup : (sent.map Publication.uri).Nodup
  current : ∀ p ∈ sent, p.diagnostics = after.full p.uri
  silent : ∀ uri ∉ sent.map Publication.uri, after.full uri = before.full uri

/-! ## What a client shows -/

/-- Documents without a new notification keep what they show. -/
theorem shown_append_of_not_mem {sent : List Publication} {uri : Uri}
    (h : uri ∉ sent.map Publication.uri) (earlier : List Publication) :
    shown (earlier ++ sent) uri = shown earlier uri := by
  have hnone : (sent.filter fun p => p.uri = uri) = [] := by
    refine List.filter_eq_nil_iff.mpr fun p hp hu => h ?_
    exact of_decide_eq_true hu ▸ List.mem_map_of_mem hp
  rw [shown, List.filter_append, hnone, List.append_nil, shown]

/-- A document shows the list of some notification about it, if there are any. -/
theorem exists_shown_append {sent : List Publication} {uri : Uri}
    (h : uri ∈ sent.map Publication.uri) (earlier : List Publication) :
    ∃ p ∈ sent, p.uri = uri ∧ shown (earlier ++ sent) uri = p.diagnostics := by
  obtain ⟨q, hq, rfl⟩ := List.mem_map.mp h
  have hne : (sent.filter fun p => p.uri = q.uri) ≠ [] :=
    List.ne_nil_of_mem (List.mem_filter.mpr ⟨hq, decide_eq_true rfl⟩)
  obtain ⟨hmem, huri⟩ := List.mem_filter.mp (List.getLast_mem hne)
  refine ⟨_, hmem, of_decide_eq_true huri, ?_⟩
  rw [shown, List.filter_append, List.getLast?_append, List.getLast?_eq_some_getLast hne]
  rfl

/-- **A client that was right stays right.** -/
theorem Accounts.shown_append {before after : Cache} {sent : List Publication}
    (h : Accounts before after sent) {earlier : List Publication} {uri : Uri}
    (hright : shown earlier uri = before.full uri) :
    shown (earlier ++ sent) uri = after.full uri := by
  by_cases hmem : uri ∈ sent.map Publication.uri
  · obtain ⟨p, hp, rfl, hshown⟩ := exists_shown_append hmem earlier
    rw [hshown, h.current p hp]
  · rw [shown_append_of_not_mem hmem, hright, h.silent uri hmem]

/-! ## The steps account for what they do -/

@[simp] theorem map_uri_sweep (c : Cache) : (sweep c).map Publication.uri = subjects c := by
  rw [sweep, List.map_map]
  exact List.map_id _

@[simp] theorem map_uri_ofUris (c : Cache) (uris : List Uri) :
    (ofUris c uris).map Publication.uri = uris.eraseDups := by
  rw [ofUris, List.map_map]
  exact List.map_id _

/-- No element is left twice. -/
theorem nodup_eraseDups {α : Type} [BEq α] [LawfulBEq α] : ∀ xs : List α, xs.eraseDups.Nodup
  | [] => List.nodup_nil
  | x :: xs => by
    rw [List.eraseDups_cons, List.nodup_cons, List.mem_eraseDups]
    exact ⟨by simp, nodup_eraseDups _⟩
termination_by xs => xs.length
decreasing_by exact Nat.lt_succ_of_le (List.length_filter_le ..)

theorem accounts_nil {before after : Cache} (h : ∀ uri, after.full uri = before.full uri) :
    Accounts before after [] where
  nodup := List.nodup_nil
  current := by simp
  silent uri _ := h uri

/-- A sweep accounts for a recorded pass. -/
theorem accounts_record (c : Cache) (p : Pass) : Accounts c (c.record p) (sweep (c.record p)) where
  nodup := by
    rw [map_uri_sweep]
    exact Cache.nodup_subjects (c.record p)
  current q hq := by
    obtain ⟨uri, -, rfl⟩ := List.mem_map.mp hq
    rfl
  silent uri huri := by
    rw [map_uri_sweep, Cache.mem_subjects_iff] at huri
    -- a recorded pass takes nothing out of scope, so nothing was shown before either
    rw [Cache.full_eq_nil_of_not_inScope huri,
      Cache.full_eq_nil_of_not_inScope fun h => huri (h.record p)]

/-- The documents a close reports account for it. -/
theorem accounts_discard (c : Cache) (closed : Uri) :
    Accounts c (c.discard closed).1 (ofUris (c.discard closed).1 (c.discard closed).2) where
  nodup := by
    rw [map_uri_ofUris]
    exact nodup_eraseDups _
  current q hq := by
    obtain ⟨uri, -, rfl⟩ := List.mem_map.mp hq
    rfl
  silent uri huri := by
    rw [map_uri_ofUris, List.mem_eraseDups] at huri
    rw [Cache.full, Cache.passes_discard_of_not_mem huri, Cache.full]

end Publication

namespace Session

/-- All notifications of a run, in the order in which they were sent. -/
def sent (s : Session) (es : Run) : List Publication := (s.outcomes es).flatMap Outcome.published

/-- **Every step accounts for what it does to the cache**, the refused ones included. -/
theorem accounts_step (s : Session) (analyzer : Option Analyzer) (o : Occasion) :
    Publication.Accounts s.cache (s.step analyzer o).session.cache
      (s.step analyzer o).published := by
  obtain ⟨-, -, hcache, hpublished⟩ := s.performs_step analyzer o
  rw [hcache, hpublished]
  cases s.update? analyzer o with
  | none => exact Publication.accounts_nil fun _ => rfl
  | some u =>
    cases u with
    | completed p => exact Publication.accounts_record s.cache p
    | skipped uri =>
      refine Publication.accounts_nil fun other => ?_
      simp only [Option.elim, Cache.full, Update.passes_apply_skipped]
    | closed uri => exact Publication.accounts_discard s.cache uri

/-- A client that starts right is right after a run. -/
theorem shown_sent (s : Session) (earlier : List Publication) {uri : Uri}
    (hright : Publication.shown earlier uri = s.cache.full uri) (es : Run) :
    Publication.shown (earlier ++ s.sent es) uri = (s.after es).cache.full uri := by
  induction es generalizing s earlier with
  | nil => rwa [sent, outcomes, List.flatMap_nil, List.append_nil, after_nil]
  | cons e es ih =>
    have hstep := (s.accounts_step e.2 e.1).shown_append hright
    rw [sent, outcomes, List.flatMap_cons, ← List.append_assoc]
    exact ih _ _ hstep

/-- **A client shows what the cache says.**  After every run no step has notified about a document
twice, and what the last notification about a document said, if there was one, is what the cache
says about it now. -/
theorem shown_eq_full (dir : String) (es : Run) :
    (∀ o ∈ (initial dir).outcomes es, (o.published.map Publication.uri).Nodup) ∧
      ∀ uri, Publication.shown ((initial dir).sent es) uri
        = ((initial dir).after es).cache.full uri := by
  refine ⟨fun o ho => ?_, fun uri => shown_sent (initial dir) [] rfl es⟩
  obtain ⟨s, e, rfl⟩ := exists_of_mem_outcomes ho
  exact (s.accounts_step e.2 e.1).nodup

end Session

end StagedDiagnostics
