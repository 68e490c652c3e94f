import Mathlib.Data.List.Induction
import StagedDiagnostics.Proofs.Cache.Lookup

/-!
# Proofs/Cache/Recording — what is left of passes recorded in a row

    p₁, …, pₙ ──latest──▸ one pass of each entry          cache ──recordAll──▸ cache

Each version of a pass may cover other documents than the one before, so a document can lose a pass
and get it back while others come in between.  In the end none of this shows: behind the passes it
held of other entries, a document holds the latest ones that cover it, in the order in which they
were recorded (`passes_recordAll`).  So only the last version of a pass and its place count.
-/

namespace StagedDiagnostics

/-! ## The latest passes -/

namespace Pass

/-- The passes that no later one of their entry replaces, in their order. -/
def latest : List Pass → List Pass
  | [] => []
  | p :: ps => if p.entry ∈ ps.map Pass.entry then latest ps else p :: latest ps

/-- **One more pass replaces the one of its entry** and stands behind the others. -/
theorem latest_concat (ps : List Pass) (p : Pass) :
    latest (ps ++ [p]) = ((latest ps).filter fun q => q.entry ≠ p.entry) ++ [p] := by
  induction ps with
  | nil => rfl
  | cons q ps ih =>
    rw [List.cons_append, latest, ih, latest]
    by_cases hlater : q.entry ∈ ps.map Pass.entry
    · have hmem : q.entry ∈ (ps ++ [p]).map Pass.entry := by
        rw [List.map_append]
        exact List.mem_append_left _ hlater
      rw [if_pos hmem, if_pos hlater]
    · rw [if_neg hlater, List.filter_cons]
      by_cases hp : q.entry = p.entry
      · simp [hp]
      · simp [hp, hlater]

theorem latest_eq_self {ps : List Pass} (h : (ps.map Pass.entry).Nodup) : latest ps = ps := by
  induction ps with
  | nil => rfl
  | cons p ps ih =>
    obtain ⟨hp, hps⟩ := List.nodup_cons.mp h
    rw [latest, if_neg hp, ih hps]

/-- A pass says nothing about a document it does not cover. -/
theorem diagnosticsFor_eq_nil {p : Pass} {uri : Uri} (h : ¬ p.covers uri = true) :
    p.diagnosticsFor uri = [] := by
  rw [diagnosticsFor, Option.not_isSome_iff_eq_none.mp h]
  rfl

/-- Only the passes that cover a document say something about it. -/
theorem flatMap_filter_covers (ps : List Pass) (uri : Uri) :
    ((ps.filter fun p => p.covers uri).flatMap fun p => p.diagnosticsFor uri)
      = ps.flatMap fun p => p.diagnosticsFor uri := by
  induction ps with
  | nil => rfl
  | cons p ps ih =>
    rw [List.filter_cons]
    by_cases h : p.covers uri = true
    · rw [if_pos h, List.flatMap_cons, ih, List.flatMap_cons]
    · rw [if_neg h, ih, List.flatMap_cons, diagnosticsFor_eq_nil h, List.nil_append]

end Pass

namespace Cache

/-! ## Recording in a row -/

/-- Records passes one after another. -/
def recordAll (c : Cache) (ps : List Pass) : Cache := ps.foldl record c

theorem recordAll_concat (c : Cache) (ps : List Pass) (p : Pass) :
    c.recordAll (ps ++ [p]) = (c.recordAll ps).record p := by
  rw [recordAll, List.foldl_append]
  rfl

/-- **Passes recorded in a row leave the latest of each entry**, behind the passes of the entries
that were not recorded.  By induction on the passes, the last one split off: it takes the pass of
its entry out of both parts, wherever the versions before it have put it. -/
theorem passes_recordAll (c : Cache) (ps : List Pass) (uri : Uri) :
    (c.recordAll ps).passes uri
      = ((c.passes uri).filter fun q => q.entry ∉ ps.map Pass.entry)
        ++ (Pass.latest ps).filter fun p => p.covers uri := by
  induction ps using List.reverseRecOn with
  | nil =>
    have hall : ((c.passes uri).filter fun q => q.entry ∉ [].map Pass.entry) = c.passes uri :=
      List.filter_eq_self.mpr fun q _ => rfl
    rw [hall]
    exact (List.append_nil _).symm
  | append_singleton ps p ih =>
    have hothers : ((c.passes uri).filter fun q => q.entry ∉ (ps ++ [p]).map Pass.entry)
        = ((c.passes uri).filter fun q => q.entry ∉ ps.map Pass.entry).filter
            fun q => q.entry ≠ p.entry := by
      rw [List.filter_filter]
      refine List.filter_congr fun q _ => ?_
      by_cases hq : q.entry = p.entry <;> simp [hq]
    have hlatest : ((Pass.latest (ps ++ [p])).filter fun q => q.covers uri)
        = (((Pass.latest ps).filter fun q => q.covers uri).filter fun q => q.entry ≠ p.entry)
          ++ if p.covers uri then [p] else [] := by
      rw [Pass.latest_concat, List.filter_append, List.filter_filter, List.filter_filter,
        List.filter_cons, List.filter_nil]
      congr 2
      funext q
      exact Bool.and_comm _ _
    rw [recordAll_concat, passes_record, ih, List.filter_append, hothers, hlatest,
      List.append_assoc]

/-- What a document shows after passes were recorded in a row. -/
theorem full_recordAll_eq (c : Cache) (ps : List Pass) (uri : Uri) :
    (c.recordAll ps).full uri
      = (((c.passes uri).filter fun q => q.entry ∉ ps.map Pass.entry) ++ Pass.latest ps).flatMap
          fun p => p.diagnosticsFor uri := by
  rw [full, passes_recordAll, List.flatMap_append, Pass.flatMap_filter_covers,
    List.flatMap_append]

/-- **Recording compacts to the last version of every pass.**  Whatever the cache held, and whatever
the versions of a pass cover, a document shows what its passes of other entries say about it, and
then what the last version of each recorded pass says, in the order of these versions.  So if no
entry comes twice, another order of recording shows the same passes in that other order. -/
theorem full_recordAll (c : Cache) (ps : List Pass) :
    (∀ uri, (c.recordAll ps).full uri
      = (((c.passes uri).filter fun q => q.entry ∉ ps.map Pass.entry).flatMap
            fun q => q.diagnosticsFor uri)
        ++ (Pass.latest ps).flatMap fun p => p.diagnosticsFor uri) ∧
      ∀ qs, ps.Perm qs → (ps.map Pass.entry).Nodup → ∀ uri, ∃ held,
        (c.recordAll ps).full uri = (held ++ ps).flatMap (fun p => p.diagnosticsFor uri) ∧
        (c.recordAll qs).full uri = (held ++ qs).flatMap (fun p => p.diagnosticsFor uri) := by
  refine ⟨fun uri => ?_, fun qs hperm hnodup uri => ?_⟩
  · rw [full_recordAll_eq, List.flatMap_append]
  refine ⟨(c.passes uri).filter fun q => q.entry ∉ ps.map Pass.entry, ?_, ?_⟩
  · rw [full_recordAll_eq, Pass.latest_eq_self hnodup]
  · have hentries : (ps.map Pass.entry).Perm (qs.map Pass.entry) := hperm.map Pass.entry
    have hheld : ((c.passes uri).filter fun q => q.entry ∉ ps.map Pass.entry)
        = (c.passes uri).filter fun q => q.entry ∉ qs.map Pass.entry :=
      List.filter_congr fun q _ => by simp only [hentries.mem_iff]
    rw [full_recordAll_eq, Pass.latest_eq_self (hentries.nodup_iff.mp hnodup), hheld]

/-- A pass that has one thing to say about each of some documents. -/
def remarking (entry : Uri) (remarks : List (Uri × String)) : Pass :=
  ⟨entry, Table.ofList (remarks.map fun r => (r.1, [.bare ⟨⟨0, 0⟩, ⟨0, 1⟩⟩ r.2]))⟩

/-- A cache that knows a document from a pass started elsewhere. -/
def remarked : Cache := record Table.empty (remarking "untitled:c" [("untitled:b", "from c")])

/-- A pass, that of a document it covers, and the next version of the first one, which covers only
the other document. -/
def versions : List Pass := [
    remarking "untitled:a" [("untitled:a", "first"), ("untitled:b", "first")],
    remarking "untitled:b" [("untitled:b", "from b")],
    remarking "untitled:a" [("untitled:b", "second")]
  ]

theorem full_recordAll_versions :
    ((remarked.recordAll versions).full "untitled:a").map Diagnostic.message = [] ∧
      ((remarked.recordAll versions).full "untitled:b").map Diagnostic.message
        = ["from c", "from b", "second"] ∧
      versions.tail.Perm versions.tail.reverse ∧ (versions.tail.map Pass.entry).Nodup ∧
      ∀ uri, ∃ held,
        (remarked.recordAll versions.tail).full uri
          = (held ++ versions.tail).flatMap (fun p => p.diagnosticsFor uri) ∧
        (remarked.recordAll versions.tail.reverse).full uri
          = (held ++ versions.tail.reverse).flatMap (fun p => p.diagnosticsFor uri) := by
  have hperm : versions.tail.Perm versions.tail.reverse := versions.tail.reverse_perm.symm
  have hnodup : (versions.tail.map Pass.entry).Nodup := by decide
  refine ⟨?_, ?_, hperm, hnodup, (full_recordAll remarked versions.tail).2 _ hperm hnodup⟩
  · rw [(full_recordAll remarked versions).1]
    rfl
  · rw [(full_recordAll remarked versions).1]
    rfl

end Cache

end StagedDiagnostics
