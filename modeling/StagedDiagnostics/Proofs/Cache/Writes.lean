import Mathlib.Data.List.Induction
import StagedDiagnostics.Proofs.Cache.Rooted

/-!
# Proofs/Cache/Writes — what is left of the passes after any writes

    writes ──cacheAfter──▸ cache          latest?: the pass recorded last for an entry

A cache by itself promises less than a session does with it: passes need not cover the document they
were started from, and any document may be marked, replaced or closed at any time.

* `UpToDate` — without replacements every document holds one pass of an entry at most, and this is
  the pass that was recorded last for the entry;
* `rooted_apply_iff` — a close that meets a document the cache does not know leaves its passes where
  they are (`holds_discard_iff`).  Writes that keep the cache rooted never lead there, and it is
  said exactly which writes these are (`Proper`).
-/

namespace StagedDiagnostics.Cache

/-- A write to the cache. -/
inductive Write
  | recorded (p : Pass)
  | replaced (uri : Uri) (ps : List Pass)
  | marked (uri : Uri)
  | discarded (uri : Uri)

namespace Write

/-- The cache after a write. -/
def apply (c : Cache) : Write → Cache
  | recorded p => c.record p
  | replaced uri ps => c.replace uri ps
  | marked uri => c.markOutOfScope uri
  | discarded uri => (c.discard uri).1

/-- The cache that writes make of the empty one. -/
def cacheAfter (ws : List Write) : Cache := ws.foldl apply Table.empty

theorem cacheAfter_concat (ws : List Write) (w : Write) :
    cacheAfter (ws ++ [w]) = w.apply (cacheAfter ws) := by
  rw [cacheAfter, List.foldl_append]
  rfl

/-- The pass a write records. -/
def recorded? : Write → Option Pass
  | recorded p => some p
  | replaced _ _ => none
  | marked _ => none
  | discarded _ => none

/-- The pass that was recorded last for an entry. -/
def latest? (ws : List Write) (entry : Uri) : Option Pass :=
  ((ws.filterMap recorded?).filter fun p => p.entry = entry).getLast?

theorem latest?_concat_recorded (ws : List Write) (p : Pass) (entry : Uri) :
    latest? (ws ++ [recorded p]) entry = if p.entry = entry then some p else latest? ws entry := by
  have hp : [recorded p].filterMap recorded? = [p] := rfl
  rw [latest?, List.filterMap_append, List.filter_append, hp]
  by_cases h : p.entry = entry
  · simp [h]
  · simp [h, latest?]

theorem latest?_concat_of_recorded?_eq_none {w : Write} (h : w.recorded? = none) (ws : List Write)
    (entry : Uri) : latest? (ws ++ [w]) entry = latest? ws entry := by
  rw [latest?, List.filterMap_append, List.filterMap_cons_none h, List.filterMap_nil,
    List.append_nil, latest?]

end Write

/-! ## One version of every pass -/

/-- A cache in which every pass is the version of its entry that is due. -/
structure UpToDate (c : Cache) (due : Uri → Option Pass) : Prop where
  /-- No document holds two passes of one entry. -/
  nodup : ∀ uri, ((c.passes uri).map Pass.entry).Nodup
  /-- A document holds passes that cover it. -/
  covers : ∀ uri, ∀ p ∈ c.passes uri, p.covers uri = true
  /-- A pass is the one that is due for its entry. -/
  due : ∀ uri, ∀ p ∈ c.passes uri, due p.entry = some p

variable {c d : Cache} {due : Uri → Option Pass}

theorem upToDate_empty : UpToDate Table.empty due where
  nodup _ := List.nodup_nil
  covers _ _ hp := nomatch hp
  due _ _ hp := nomatch hp

/-- **Taking passes away leaves every cache up to date.** -/
theorem UpToDate.of_sublist (h : c.UpToDate due)
    (hsub : ∀ uri, (d.passes uri).Sublist (c.passes uri)) : d.UpToDate due where
  nodup uri := (h.nodup uri).sublist ((hsub uri).map Pass.entry)
  covers uri p hp := h.covers uri p ((hsub uri).subset hp)
  due uri p hp := h.due uri p ((hsub uri).subset hp)

/-- **A recorded pass takes the place of the earlier version everywhere**, where it covers the
document and where it does not. -/
theorem UpToDate.record (h : c.UpToDate due) (p : Pass) :
    (c.record p).UpToDate fun entry => if p.entry = entry then some p else due entry where
  nodup uri := by
    rw [passes_record, List.map_append, List.nodup_append]
    refine ⟨(h.nodup uri).sublist (List.filter_sublist.map Pass.entry), ?_, ?_⟩
    · split <;> simp
    · intro entry hkept other hnew heq
      obtain ⟨q, hq, rfl⟩ := List.mem_map.mp hkept
      obtain ⟨r, hr, rfl⟩ := List.mem_map.mp hnew
      obtain rfl : r = p := by
        split at hr
        · exact List.mem_singleton.mp hr
        · cases hr
      exact of_decide_eq_true (List.mem_filter.mp hq).2 heq
  covers uri q hq := by
    rcases mem_passes_record_iff.mp hq with ⟨hq, -⟩ | ⟨rfl, hcovers⟩
    · exact h.covers uri q hq
    · exact hcovers
  due uri q hq := by
    rcases mem_passes_record_iff.mp hq with ⟨hq, hne⟩ | ⟨rfl, -⟩
    · rw [if_neg hne.symm]
      exact h.due uri q hq
    · rw [if_pos rfl]

theorem passes_discard_sublist (c : Cache) (closed uri : Uri) :
    ((c.discard closed).1.passes uri).Sublist (c.passes uri) := by
  by_cases hc : c.contains closed = true
  · rw [passes_discard hc]
    exact List.filter_sublist
  · simp only [discard_of_not_contains hc, List.Sublist.refl]

theorem passes_markOutOfScope_sublist (c : Cache) (marked uri : Uri) :
    ((c.markOutOfScope marked).passes uri).Sublist (c.passes uri) := by
  rw [passes_markOutOfScope]
  split
  · exact List.nil_sublist _
  · exact List.Sublist.refl _

namespace Write

/-- **One version of every pass.**  Whatever is recorded, marked and closed, in any order, a
document holds passes that cover it, one of an entry at most, and each is the pass that was recorded
last for its entry.  A pass recorded next stands last with every document it covers. -/
theorem upToDate_cacheAfter {ws : List Write} (h : ∀ uri ps, replaced uri ps ∉ ws) :
    (cacheAfter ws).UpToDate (latest? ws) ∧
      ∀ p uri, p.covers uri = true →
        ((cacheAfter (ws ++ [recorded p])).passes uri).getLast? = some p := by
  constructor
  · induction ws using List.reverseRecOn with
    | nil => exact upToDate_empty
    | append_singleton ws w ih =>
      have ih := ih fun uri ps hmem => h uri ps (List.mem_append_left [w] hmem)
      rw [cacheAfter_concat]
      cases w with
      | recorded p =>
        rw [funext (latest?_concat_recorded ws p)]
        exact ih.record p
      | replaced uri ps => exact absurd (List.mem_append_right ws List.mem_cons_self) (h uri ps)
      | marked uri =>
        rw [funext (latest?_concat_of_recorded?_eq_none rfl ws)]
        exact ih.of_sublist (passes_markOutOfScope_sublist _ uri)
      | discarded uri =>
        rw [funext (latest?_concat_of_recorded?_eq_none rfl ws)]
        exact ih.of_sublist (passes_discard_sublist _ uri)
  · intro p uri hcovers
    rw [cacheAfter_concat, apply, passes_record, if_pos hcovers, List.getLast?_concat]

/-- A pass that covers two documents but not its own, a close of that document, which finds nothing
to do, and the next version, which covers one of the two. -/
def rovingWrites : List Write :=
  [recorded ⟨"untitled:a", Buckets.seed ["untitled:b", "untitled:c"]⟩, discarded "untitled:a",
    marked "untitled:d", recorded ⟨"untitled:a", Buckets.seed ["untitled:c", "untitled:d"]⟩]

theorem upToDate_cacheAfter_rovingWrites :
    (∀ uri ps, replaced uri ps ∉ rovingWrites) ∧
      (cacheAfter rovingWrites).UpToDate (latest? rovingWrites) ∧
      (cacheAfter rovingWrites).passes "untitled:b" = [] ∧
      ((cacheAfter rovingWrites).passes "untitled:c").map Pass.uris
        = [["untitled:c", "untitled:d"]] := by
  have hwrites : ∀ uri ps, replaced uri ps ∉ rovingWrites := by
    intro uri ps
    simp [rovingWrites]
  exact ⟨hwrites, (upToDate_cacheAfter hwrites).1, rfl, rfl⟩

end Write

/-! ## What a close leaves behind -/

namespace Write

/-- A write after which every pass still stands with its own document. -/
def Proper (c : Cache) : Write → Prop
  | recorded p => p.covers p.entry = true ∨ p.uris = []
  | replaced uri ps => c.Takes uri ps
  | marked uri => c.Takes uri []
  | discarded _ => True

/-- **A write keeps a rooted cache rooted exactly if it is proper.** -/
theorem rooted_apply_iff (h : c.Rooted) (w : Write) : (w.apply c).Rooted ↔ w.Proper c := by
  cases w with
  | recorded p => exact rooted_record_iff h p
  | replaced uri ps => exact rooted_insert_iff h uri (.passes ps)
  | marked uri => exact rooted_insert_iff h uri .outOfScope
  | discarded uri => exact iff_of_true (h.discard uri) trivial

/-- Writes each of which is proper when its turn comes. -/
def AllProper (c : Cache) : List Write → Prop
  | [] => True
  | w :: ws => w.Proper c ∧ AllProper (w.apply c) ws

theorem rooted_foldl_apply {ws : List Write} (h : c.Rooted) (hws : AllProper c ws) :
    (ws.foldl apply c).Rooted := by
  induction ws generalizing c with
  | nil => exact h
  | cons w ws ih => exact ih ((rooted_apply_iff h w).mpr hws.1) hws.2

/-- **When a close is complete.**  After any writes, a close leaves no pass started from the closed
document anywhere exactly if the cache knew the document or held none of its passes.  After proper
writes this is always so. -/
theorem not_holds_discard_iff (ws : List Write) (closed : Uri) :
    (¬ ((cacheAfter ws).discard closed).1.Holds closed ↔
        (cacheAfter ws).contains closed = true ∨ ¬ (cacheAfter ws).Holds closed) ∧
      (AllProper Table.empty ws → ¬ ((cacheAfter ws).discard closed).1.Holds closed) := by
  constructor
  · rw [holds_discard_iff, not_and_or, not_not]
  · intro hws
    have hrooted : (cacheAfter ws).Rooted := rooted_foldl_apply (fun _ _ hp => nomatch hp) hws
    exact hrooted.not_holds_discard closed

/-- A document that is marked and brought back by its own pass, which covers another one too.  The
document is covered by a second pass for a while. -/
def resumedWrites : List Write :=
  [marked "untitled:a", recorded ⟨"untitled:a", Buckets.seed ["untitled:a", "untitled:b"]⟩,
    recorded ⟨"untitled:c", Buckets.seed ["untitled:c", "untitled:a"]⟩, discarded "untitled:c"]

theorem not_holds_discard_resumedWrites :
    AllProper Table.empty resumedWrites ∧ (cacheAfter resumedWrites).Holds "untitled:a" ∧
      ¬ ((cacheAfter resumedWrites).discard "untitled:a").1.Holds "untitled:a" := by
  have hmark : Takes Table.empty "untitled:a" [] :=
    ⟨fun _ hp => (nomatch hp), fun _ _ _ hp => (nomatch hp)⟩
  have hproper : AllProper Table.empty resumedWrites :=
    ⟨hmark, Or.inl rfl, Or.inl rfl, trivial, trivial⟩
  have hheld : (cacheAfter resumedWrites).passes "untitled:b"
      = [⟨"untitled:a", Buckets.seed ["untitled:a", "untitled:b"]⟩] := rfl
  exact ⟨hproper, ⟨_, _, hheld ▸ List.mem_cons_self, rfl⟩,
    (not_holds_discard_iff resumedWrites "untitled:a").2 hproper⟩

/-- The same document, marked only after its pass was recorded: the close of the second pass's
document takes the entry along that its own close would look for. -/
def strayingWrites : List Write :=
  [recorded ⟨"untitled:a", Buckets.seed ["untitled:a", "untitled:b"]⟩, marked "untitled:a",
    recorded ⟨"untitled:c", Buckets.seed ["untitled:c", "untitled:a"]⟩, discarded "untitled:c"]

/-- **A close may leave passes of the closed document behind**, although every pass covers the
document it was started from. -/
theorem holds_discard_strayingWrites :
    ((cacheAfter strayingWrites).discard "untitled:a").1.Holds "untitled:a" := by
  have hleft : ((cacheAfter strayingWrites).discard "untitled:a").1.passes "untitled:b"
      = [⟨"untitled:a", Buckets.seed ["untitled:a", "untitled:b"]⟩] := rfl
  exact ⟨_, _, hleft ▸ List.mem_cons_self, rfl⟩

end Write

end StagedDiagnostics.Cache
