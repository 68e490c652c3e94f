import StagedDiagnostics.Proofs.Cache.Rooted
import StagedDiagnostics.Proofs.Session.History

/-!
# Proofs/Session/LivePasses — the cache holds the live passes and no others

A pass is **live** as long as no later pass of the same entry has completed and its entry has not
been closed.  Which passes are live is read off the updates of a run alone (`live`), without any
cache; `passes_cacheAfter` says that the cache agrees, document by document and in order.

The invariant behind it is that a pass covers the document it was started from, so that every cache
of a session is rooted (`Cache.Rooted`) and the early exit of a close is harmless.
-/

namespace StagedDiagnostics

namespace Update

/-! ## Live passes -/

/-- An update that puts an end to the passes started from a document. -/
def ends (entry : Uri) : Update → Bool
  | completed p => entry = p.entry
  | skipped _ => false
  | closed uri => entry = uri

/-- The passes that no later update has put an end to, in the order of their completion. -/
def live : List Update → List Pass
  | [] => []
  | completed p :: us => if us.any (ends p.entry) then live us else p :: live us
  | skipped _ :: us => live us
  | closed _ :: us => live us

/-- The pass an update adds. -/
def pass? : Update → Option Pass
  | completed p => some p
  | skipped _ => none
  | closed _ => none

/-- **One more update puts an end to some live passes and may add one.** -/
theorem live_concat (us : List Update) (u : Update) :
    live (us ++ [u]) = ((live us).filter fun p => !u.ends p.entry) ++ u.pass?.toList := by
  induction us with
  | nil => cases u <;> rfl
  | cons v us ih =>
    cases v with
    | completed p =>
      simp only [List.cons_append, live, ih, List.any_append, List.any_cons, List.any_nil,
        Bool.or_false, Bool.or_eq_true]
      by_cases hlater : us.any (ends p.entry) = true
      · simp [hlater]
      · by_cases hnow : u.ends p.entry = true <;> simp [hlater, hnow]
    | skipped uri => exact ih
    | closed uri => exact ih

/-- A live pass has completed. -/
theorem mem_of_mem_live {us : List Update} {p : Pass} (h : p ∈ live us) : completed p ∈ us := by
  induction us using List.reverseRecOn with
  | nil => cases h
  | append_singleton us u ih =>
    rw [live_concat, List.mem_append, Option.mem_toList] at h
    rcases h with h | h
    · exact List.mem_append_left _ (ih (List.mem_filter.mp h).1)
    · cases u with
      | completed q =>
        obtain rfl : q = p := Option.some.inj h
        simp
      | skipped uri => cases h
      | closed uri => cases h

/-! ## The cache and the live passes -/

/-- Updates whose passes cover the documents they were started from. -/
def SelfCovering (us : List Update) : Prop := ∀ p, completed p ∈ us → p.covers p.entry = true

theorem SelfCovering.of_concat {us : List Update} {u : Update} (h : SelfCovering (us ++ [u])) :
    SelfCovering us := fun p hp => h p (List.mem_append_left _ hp)

/-- A cache that holds the live passes holds each of them with its own entry. -/
theorem rooted_of_passes {us : List Update} (h : SelfCovering us) {c : Cache}
    (hpasses : ∀ uri, c.passes uri = (live us).filter fun p => p.covers uri) : c.Rooted := by
  intro uri p hp
  rw [hpasses] at hp ⊢
  have hlive := (List.mem_filter.mp hp).1
  exact List.mem_filter.mpr ⟨hlive, h p (mem_of_mem_live hlive)⟩

/-- **A document has the live passes that cover it, in the order of their completion.** -/
theorem passes_cacheAfter {us : List Update} (h : SelfCovering us) (uri : Uri) :
    (cacheAfter us).passes uri = (live us).filter fun p => p.covers uri := by
  induction us using List.reverseRecOn generalizing uri with
  | nil => rfl
  | append_singleton us u ih =>
    have ih := ih h.of_concat
    rw [cacheAfter_concat, live_concat, List.filter_append, List.filter_filter]
    cases u with
    | completed p =>
      rw [apply, Cache.passes_record, ih, List.filter_filter]
      congr 1
      · refine List.filter_congr fun q _ => ?_
        simp [ends, Bool.and_comm]
      · simp [pass?, List.filter_cons]
    | skipped other => simp [passes_apply_skipped, ih, ends, pass?]
    | closed other =>
      rw [apply, (rooted_of_passes h.of_concat ih).passes_discard, ih, List.filter_filter]
      simp [ends, pass?, Bool.and_comm]

theorem rooted_cacheAfter {us : List Update} (h : SelfCovering us) : (cacheAfter us).Rooted :=
  rooted_of_passes h fun uri => passes_cacheAfter h uri

end Update

namespace Session

theorem selfCovering_history (s : Session) (es : Run) : Update.SelfCovering (s.history es) :=
  fun _ hp => covers_of_mem_history hp

/-- **The cache is the live passes.**  After every run a document has those passes that were the
last to complete for their entry, whose entry has not been closed since, and that cover it, in the
order of their completion; and it is shown what they say about it, one after another. -/
theorem passes_eq_live (dir : String) (es : Run) (uri : Uri) :
    ((initial dir).after es).cache.passes uri
        = ((Update.live ((initial dir).history es)).filter fun p => p.covers uri) ∧
      ((initial dir).after es).cache.full uri
        = ((Update.live ((initial dir).history es)).filter fun p => p.covers uri).flatMap
            fun p => p.diagnosticsFor uri := by
  have hpasses := Update.passes_cacheAfter ((initial dir).selfCovering_history es) uri
  rw [← cache_after] at hpasses
  exact ⟨hpasses, by rw [Cache.full, hpasses]⟩

end Session

end StagedDiagnostics
