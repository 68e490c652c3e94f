import StagedDiagnostics.Buckets

/-!
# Proofs/Buckets/Visible — what has no file leaves no trace

    result ──visible──▸ result        reports and callers without a file taken out
       │                   │
       └──────▸ buckets ◂──┘          and the same refusal, if there is one

A report without a file is dropped before it is converted, and a caller without one before its line
is looked at.  So whatever else they say, even what would be refused, cannot be seen: not in the
buckets, not in their order, and not in what a conversion is refused for.
-/

namespace StagedDiagnostics

/-! ## What can be seen -/

/-- An inference report without the callers that have no file; the error site stays. -/
def InferenceReport.visible (r : InferenceReport) : InferenceReport :=
  { r with frames := r.frames.take 1 ++ (r.frames.drop 1).filter fun f => f.file.isSome }

/-- A report whose error site has a file, or that has no error site at all. -/
def InferenceReport.isVisible (r : InferenceReport) : Bool :=
  r.frames.head?.all fun site => site.file.isSome

/-- A load report that has a file. -/
def ToplevelReport.isVisible (r : ToplevelReport) : Bool := r.file.isSome

/-- A result without the reports and the callers that have no file. -/
def AnalysisResult.visible (result : AnalysisResult) : AnalysisResult :=
  { result with
    toplevel := result.toplevel.filter ToplevelReport.isVisible
    inference := (result.inference.filter InferenceReport.isVisible).map InferenceReport.visible }

/-- What can be seen of a report. -/
def Report.visible? : Report → Option Report
  | syntactic r => some (syntactic r)
  | toplevel r => if r.isVisible then some (toplevel r) else none
  | inference r => if r.isVisible then some (inference r.visible) else none

theorem AnalysisResult.reports_visible (result : AnalysisResult) :
    result.visible.reports = result.reports.filterMap Report.visible? := by
  rw [reports, reports, List.filterMap_append, List.filterMap_map, List.filterMap_map]
  congr 1
  · rw [visible, ← List.filterMap_eq_map, List.filterMap_filter]
    rfl
  · rw [visible, List.map_map, ← List.filterMap_eq_map, List.filterMap_filter]
    rfl

variable (names : VirtualNames) (resolver : Resolver)

/-! ## Callers -/

/-- **A caller without a file is passed over**, before anything about it can be refused. -/
theorem relatedPlaces_filter (rendering : Rendering) (fs : List Frame) :
    relatedPlaces rendering names resolver (fs.filter fun f => f.file.isSome)
      = relatedPlaces rendering names resolver fs := by
  induction fs with
  | nil => rfl
  | cons f fs ih =>
    cases hfile : f.file with
    | some file =>
      rw [List.filter_cons_of_pos (by rw [hfile]; rfl), relatedPlaces, relatedPlaces, ih]
    | none =>
      have hskip : f.related? rendering names resolver = .ok none := by
        rw [Frame.related?, hfile]
      rw [List.filter_cons_of_neg (by rw [hfile]; exact Bool.false_ne_true), ih, relatedPlaces,
        hskip]
      cases relatedPlaces rendering names resolver fs <;> rfl

theorem InferenceReport.toDiagnostic_visible (r : InferenceReport) :
    r.visible.toDiagnostic names resolver = r.toDiagnostic names resolver := by
  obtain ⟨frames, message, definite, rendering⟩ := r
  cases frames with
  | nil => rfl
  | cons site callers =>
    change (relatedPlaces _ _ _ (callers.filter _) >>= _) = (relatedPlaces _ _ _ callers >>= _)
    rw [relatedPlaces_filter]
    rfl

/-! ## Reports -/

/-- **What can be seen of a report is placed as the report is**, and a report of which nothing can
be seen is dropped. -/
theorem Report.placed?_visible? (r : Report) :
    (r.visible?.elim (.ok none) fun q => q.placed? names resolver) = r.placed? names resolver := by
  cases r with
  | syntactic r => rfl
  | toplevel r =>
    obtain ⟨file, line, message, nested, source⟩ := r
    cases file <;> rfl
  | inference r =>
    have hconvert := r.toDiagnostic_visible names resolver
    obtain ⟨frames, message, definite, rendering⟩ := r
    cases frames with
    | nil => rfl
    | cons site callers =>
      obtain ⟨file, line, signature⟩ := site
      cases file with
      | none => rfl
      | some file =>
        change (resolver.resolve? (some file) >>= _) = (resolver.resolve? (some file) >>= _)
        congr 1
        funext uri
        cases uri with
        | none => rfl
        | some uri => exact congrArg (· >>= _) hconvert

/-- **Buckets take in what can be seen.** -/
theorem Buckets.extendWith_filterMap_visible? (b : Buckets) (rs : List Report) :
    extendWith names resolver b (rs.filterMap Report.visible?)
      = extendWith names resolver b rs := by
  induction rs generalizing b with
  | nil => rfl
  | cons r rs ih =>
    have hplaced := r.placed?_visible? names resolver
    rw [List.filterMap_cons]
    cases hvisible : r.visible? with
    | none =>
      rw [hvisible] at hplaced
      rw [extendWith, ← hplaced]
      exact ih b
    | some q =>
      rw [hvisible] at hplaced
      change q.placed? names resolver = _ at hplaced
      rw [extendWith, extendWith, hplaced]
      split
      · rfl
      · exact ih b
      · exact ih _

/-- **What has no file is invisible.**  With the load reports that have no file, the inference
reports whose error site has none, and the callers that have none taken out, a result goes into any
buckets as before: the same buckets in the same order with the same diagnostics, and the same
refusal if there is one.  So the buckets of the result, for given documents or for the analyzed
files, are the same, and are refused for the same. -/
theorem Buckets.extend_visible (result : AnalysisResult) (resolver : Resolver) :
    (∀ b : Buckets, b.extend result.visible resolver = b.extend result resolver) ∧
      (∀ uris, ofResultFor uris result.visible resolver = ofResultFor uris result resolver) ∧
      ofResult result.visible resolver = ofResult result resolver := by
  have hextend : ∀ b : Buckets, b.extend result.visible resolver = b.extend result resolver := by
    intro b
    rw [extend, extend, AnalysisResult.reports_visible]
    exact extendWith_filterMap_visible? result.names resolver b result.reports
  have hfor : ∀ uris, ofResultFor uris result.visible resolver
      = ofResultFor uris result resolver := by
    intro uris
    rw [ofResultFor, ofResultFor, hextend]
  refine ⟨hextend, hfor, ?_⟩
  rw [ofResult, ofResult]
  exact bind_congr hfor

end StagedDiagnostics
