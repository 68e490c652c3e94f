import StagedDiagnostics.Proofs.Buckets.Attribution
import StagedDiagnostics.Proofs.Source.Location

/-!
# Proofs/Buckets/Refusal — which results are refused

    analyzed files ──resolve──▸ documents          reports ──toDiagnostic──▸ diagnostics

One refusal anywhere loses a whole pass, so it matters what can be refused at all.  A name is refused
if it has no document, a line if no client can name it, and otherwise only something that is missing:
the text of a wrapped syntax report, or the frames of an inference report.  What a report says
without a file is never looked at, and an offset is never refused, since it is clamped to its text
(`refused_ofResult_iff`).
-/

namespace StagedDiagnostics

variable {α β : Type}

/-! ## Refusals -/

/-- There is a fault and no value. -/
def Refused (x : Except Fault α) : Prop := ∃ fault, x = .error fault

@[simp] theorem not_refused_ok (a : α) : ¬ Refused (.ok a) := nofun

@[simp] theorem refused_error (fault : Fault) : Refused (.error fault : Except Fault α) :=
  ⟨fault, rfl⟩

instance decidableRefused (x : Except Fault α) : Decidable (Refused x) :=
  match x with
  | .ok a => isFalse (not_refused_ok a)
  | .error fault => isTrue (refused_error fault)

theorem not_refused_iff {x : Except Fault α} : ¬ Refused x ↔ ∃ a, x = .ok a := by
  cases x <;> simp

/-- **A step after another is refused if one of the two is**, where the refusal of the second does
not hang on what the first one gives. -/
theorem refused_bind_iff {x : Except Fault α} {f : α → Except Fault β} {P : Prop}
    (h : ∀ a, x = .ok a → (Refused (f a) ↔ P)) : Refused (x >>= f) ↔ Refused x ∨ P := by
  cases x with
  | error fault => exact iff_of_true (refused_error fault) (Or.inl (refused_error fault))
  | ok a =>
    change Refused (f a) ↔ _
    rw [h a rfl, or_iff_right (not_refused_ok a)]

/-- A last step that gives a value in any case is never refused. -/
theorem refused_map_iff {x : Except Fault α} {f : α → β} :
    Refused (x >>= fun a => .ok (f a)) ↔ Refused x := by
  rw [refused_bind_iff fun a _ => iff_false_intro (not_refused_ok (f a)), or_false]

theorem refused_mapM_iff {f : α → Except Fault β} {xs : List α} :
    Refused (xs.mapM f) ↔ ∃ x ∈ xs, Refused (f x) := by
  induction xs with
  | nil => simp [pure, Except.pure]
  | cons x xs ih =>
    rw [List.mapM_cons, List.exists_mem_cons_iff, ← ih]
    exact refused_bind_iff fun b _ => refused_map_iff

/-! ## Lines -/

/-- A reported line that a client can name, counted from one, or zero for an unknown one. -/
def IsLine (line : ℤ) : Prop := 0 ≤ line ∧ line ≤ Position.limit + 1
  deriving Decidable

theorem Position.refused_checked_iff {line character : ℤ} :
    Refused (checked line character)
      ↔ ¬ ((0 ≤ line ∧ line ≤ limit) ∧ 0 ≤ character ∧ character ≤ limit) := by
  rw [checked]
  split
  · split <;> simp_all
  · simp_all

/-- **A line is refused if it is out of bounds**, which unknown lines are not. -/
theorem refused_lineRange_iff {line : ℤ} : Refused (lineRange line) ↔ ¬ IsLine line := by
  have hstop : ∀ start : Position, Refused
      (Position.checked (normalizeLine line) Position.limit >>= fun stop =>
        (.ok ⟨start, stop⟩ : Except Fault Range)) ↔ ¬ IsLine line := by
    intro start
    rw [refused_map_iff, Position.refused_checked_iff, IsLine, normalizeLine, Position.limit]
    split <;> omega
  rw [lineRange, Range.wholeLine]
  refine (refused_bind_iff fun start _ => hstop start).trans (or_iff_right_of_imp ?_)
  rw [Position.refused_checked_iff, IsLine, normalizeLine, Position.limit]
  split <;> omega

/-! ## Frames -/

namespace Resolver

/-- A name without a document. -/
def Unresolvable (resolver : Resolver) (file : String) : Prop := Refused (resolver.resolve file)
  deriving Decidable

end Resolver

/-- A frame with a file that has no document, or with a file and a line out of bounds. -/
def Frame.Misplaced (f : Frame) (resolver : Resolver) : Prop :=
  ∃ file ∈ f.file, resolver.Unresolvable file ∨ ¬ IsLine f.line
  deriving Decidable

theorem Frame.refused_related?_iff {f : Frame} {rendering : Rendering} {names : VirtualNames}
    {resolver : Resolver} :
    Refused (f.related? rendering names resolver) ↔ f.Misplaced resolver := by
  rw [related?, Misplaced]
  cases f.file with
  | none => simp
  | some file =>
    have hrange : ∀ uri : Uri, Refused (f.range >>= fun range =>
        (.ok (some ⟨uri, range, names.restore (rendering.signature f)⟩) :
          Except Fault (Option Related))) ↔ ¬ IsLine f.line :=
      fun uri => refused_map_iff.trans refused_lineRange_iff
    refine (refused_bind_iff fun uri _ => hrange uri).trans ?_
    simp [Resolver.Unresolvable]

/-- Callers are refused if one of them is. -/
theorem refused_relatedPlaces_iff {rendering : Rendering} {names : VirtualNames}
    {resolver : Resolver} {fs : List Frame} :
    Refused (relatedPlaces rendering names resolver fs) ↔ ∃ f ∈ fs, f.Misplaced resolver := by
  induction fs with
  | nil => simp [relatedPlaces]
  | cons f fs ih =>
    rw [relatedPlaces, List.exists_mem_cons_iff, ← ih, ← Frame.refused_related?_iff]
    exact refused_bind_iff fun place _ => refused_map_iff

/-! ## Reports -/

/-- An offset into a text that is not too long is never refused. -/
theorem SyntaxReport.not_refused_toDiagnostic {source : Source} (h : source.size < Position.limit)
    (r : SyntaxReport) : ¬ Refused (r.toDiagnostic source) := by
  rw [toDiagnostic, Source.position_eq h, Source.position_eq h]
  exact not_refused_ok _

/-- A load report is refused for its text if it wraps a syntax report, and for its line if not. -/
theorem ToplevelReport.refused_toDiagnostic_iff {t : ToplevelReport} {names : VirtualNames}
    (h : ∀ s ∈ t.source, s.size < Position.limit) :
    Refused (t.toDiagnostic names)
      ↔ t.nested ≠ none ∧ t.source = none ∨ t.nested = none ∧ ¬ IsLine t.line := by
  rw [toDiagnostic]
  cases hnested : t.nested with
  | none =>
    refine (refused_map_iff.trans refused_lineRange_iff).trans ?_
    simp
  | some nested =>
    cases hsource : t.source with
    | none => simp
    | some source => simpa using nested.not_refused_toDiagnostic (h source hsource)

theorem InferenceReport.refused_toDiagnostic_iff {r : InferenceReport} {names : VirtualNames}
    {resolver : Resolver} {site : Frame} {callers : List Frame} (h : r.frames = site :: callers) :
    Refused (r.toDiagnostic names resolver)
      ↔ (∃ f ∈ callers, f.Misplaced resolver) ∨ ¬ IsLine site.line := by
  rw [toDiagnostic, h, ← refused_relatedPlaces_iff]
  exact refused_bind_iff fun related _ => refused_map_iff.trans refused_lineRange_iff

namespace Report

/-- **A report is refused with its attribution, or with its conversion if it has a document.** -/
theorem fault?_ne_none_iff {r : Report} {names : VirtualNames} {resolver : Resolver} :
    r.fault? names resolver ≠ none
      ↔ Refused (r.attribution resolver) ∨
        (∃ uri, r.attribution resolver = .ok (some uri)) ∧
          Refused (r.toDiagnostic names resolver none) := by
  rw [fault?]
  cases r.attribution resolver with
  | error fault => simp
  | ok uri =>
    cases uri with
    | none => simp
    | some uri => cases r.toDiagnostic names resolver none <;> simp

/-- A report with a file is refused if the file has no document, or with its conversion. -/
theorem fault?_ne_none_iff_of_file {r : Report} {names : VirtualNames} {resolver : Resolver}
    {file : Option String} (h : r.file? = .ok file) :
    r.fault? names resolver ≠ none
      ↔ ∃ name ∈ file,
        resolver.Unresolvable name ∨ Refused (r.toDiagnostic names resolver none) := by
  rw [fault?_ne_none_iff, attribution, h]
  cases file with
  | none => simp [bind, Except.bind, Resolver.resolve?]
  | some name =>
    cases hname : resolver.resolve name <;>
      simp [bind, Except.bind, Resolver.resolve?, Resolver.Unresolvable, hname, Except.map]

end Report

/-- What a load report with a file is refused for. -/
def ToplevelReport.Rejected (t : ToplevelReport) (resolver : Resolver) : Prop :=
  ∃ file ∈ t.file, resolver.Unresolvable file ∨ t.nested ≠ none ∧ t.source = none ∨
    t.nested = none ∧ ¬ IsLine t.line
  deriving Decidable

/-- What an inference report is refused for: there is no frame, or the first frame has a file, and
it or a later one is misplaced. -/
def InferenceReport.Rejected (r : InferenceReport) (resolver : Resolver) : Prop :=
  r.frames = [] ∨ (∃ site ∈ r.frames.head?, site.file ≠ none) ∧
    ∃ f ∈ r.frames, f.Misplaced resolver
  deriving Decidable

namespace Report

theorem fault?_toplevel_ne_none_iff {t : ToplevelReport} {names : VirtualNames}
    {resolver : Resolver} (h : ∀ s ∈ t.source, s.size < Position.limit) :
    (toplevel t).fault? names resolver ≠ none ↔ t.Rejected resolver := by
  have hdiagnostic : Refused ((toplevel t).toDiagnostic names resolver none) ↔ _ :=
    ToplevelReport.refused_toDiagnostic_iff h
  rw [fault?_ne_none_iff_of_file rfl, ToplevelReport.Rejected, hdiagnostic]

theorem fault?_inference_ne_none_iff {r : InferenceReport} {names : VirtualNames}
    {resolver : Resolver} : (inference r).fault? names resolver ≠ none ↔ r.Rejected resolver := by
  rw [InferenceReport.Rejected]
  cases hframes : r.frames with
  | nil =>
    have hfault : (inference r).attribution resolver = .error .noFrames := by
      simp [attribution, file?, hframes, bind, Except.bind]
    exact iff_of_true (fault?_ne_none_iff.mpr (Or.inl ⟨_, hfault⟩)) (Or.inl rfl)
  | cons site callers =>
    have hfile : (inference r).file? = .ok site.file := by rw [file?, hframes]
    have hdiagnostic : Refused ((inference r).toDiagnostic names resolver none) ↔ _ :=
      InferenceReport.refused_toDiagnostic_iff hframes
    rw [fault?_ne_none_iff_of_file hfile, hdiagnostic]
    constructor
    · rintro ⟨name, hname, hfault⟩
      refine Or.inr ⟨⟨site, rfl, Option.ne_none_iff_exists'.mpr ⟨name, hname⟩⟩, ?_⟩
      rcases hfault with hfile | ⟨f, hf, hmisplaced⟩ | hline
      · exact ⟨site, List.mem_cons_self, name, hname, Or.inl hfile⟩
      · exact ⟨f, List.mem_cons_of_mem site hf, hmisplaced⟩
      · exact ⟨site, List.mem_cons_self, name, hname, Or.inr hline⟩
    · rintro (hnil | ⟨⟨_, hhead, hsome⟩, f, hf, hmisplaced⟩)
      · cases hnil
      · obtain rfl := Option.some.inj hhead
        rcases List.mem_cons.mp hf with rfl | hf
        · obtain ⟨name, hname, hfault⟩ := hmisplaced
          exact ⟨name, hname, hfault.imp_right Or.inr⟩
        · obtain ⟨name, hname⟩ := Option.ne_none_iff_exists'.mp hsome
          exact ⟨name, hname, Or.inr (Or.inl ⟨f, hf, hmisplaced⟩)⟩

end Report

/-! ## Results -/

namespace Buckets

/-- A result is refused with one of its files or one of its reports. -/
theorem refused_ofResult_iff_fault? {result : AnalysisResult} {resolver : Resolver} :
    Refused (ofResult result resolver)
      ↔ (∃ file ∈ result.analyzed, resolver.Unresolvable file) ∨
        ∃ r ∈ result.reports, r.fault? result.names resolver ≠ none := by
  have hreports : ∀ files, Refused (ofResultFor files result resolver)
      ↔ ∃ r ∈ result.reports, r.fault? result.names resolver ≠ none := by
    intro files
    rw [ofResultFor, extend, extendWith_eq]
    cases hfault : result.reports[Report.accepted result.names resolver result.reports]?.bind
        fun r => r.fault? result.names resolver with
    | none => simpa using Report.fault?_accepted_eq_none_iff.mp hfault
    | some fault =>
      refine iff_of_true (refused_error fault) ?_
      by_contra hall
      push Not at hall
      rw [Report.fault?_accepted_eq_none_iff.mpr hall] at hfault
      cases hfault
  rw [ofResult, refused_bind_iff fun files _ => hreports files, refused_mapM_iff]
  rfl

/-- The reports that are refused are the load reports and the inference reports that are
rejected. -/
theorem exists_fault?_ne_none_iff {result : AnalysisResult} {resolver : Resolver}
    (h : ∀ t ∈ result.toplevel, ∀ s ∈ t.source, s.size < Position.limit) :
    (∃ r ∈ result.reports, r.fault? result.names resolver ≠ none)
      ↔ (∃ t ∈ result.toplevel, t.Rejected resolver) ∨
        ∃ r ∈ result.inference, r.Rejected resolver := by
  constructor
  · rintro ⟨r, hr, hfault⟩
    rcases List.mem_append.mp hr with hr | hr
    · obtain ⟨t, ht, rfl⟩ := List.mem_map.mp hr
      exact Or.inl ⟨t, ht, (Report.fault?_toplevel_ne_none_iff (h t ht)).mp hfault⟩
    · obtain ⟨q, hq, rfl⟩ := List.mem_map.mp hr
      exact Or.inr ⟨q, hq, Report.fault?_inference_ne_none_iff.mp hfault⟩
  · rintro (⟨t, ht, hrejected⟩ | ⟨r, hr, hrejected⟩)
    · exact ⟨.toplevel t, List.mem_append_left _ (List.mem_map_of_mem ht),
        (Report.fault?_toplevel_ne_none_iff (h t ht)).mpr hrejected⟩
    · exact ⟨.inference r, List.mem_append_right _ (List.mem_map_of_mem hr),
        Report.fault?_inference_ne_none_iff.mpr hrejected⟩

/-- **When a result is refused.**  Where no text is too long for a client, the conversion of a
result has a fault exactly if one of the analyzed files has no document, or one of the reports is
rejected: a load report with a file for its file, for the missing text of the syntax report it wraps,
or for its own line; an inference report for missing frames, or for the file or the line of a frame
with a file, if the first frame has one. -/
theorem refused_ofResult_iff (result : AnalysisResult) (resolver : Resolver)
    (h : ∀ t ∈ result.toplevel, ∀ s ∈ t.source, s.size < Position.limit) :
    Refused (ofResult result resolver)
      ↔ (∃ file ∈ result.analyzed, resolver.Unresolvable file) ∨
        (∃ t ∈ result.toplevel, t.Rejected resolver) ∨
        ∃ r ∈ result.inference, r.Rejected resolver := by
  rw [refused_ofResult_iff_fault?, exists_fault?_ne_none_iff h]

/-- Reports on lines and offsets that are not there, on files that cannot be placed, and without
their text, each in a report without a file or where nobody looks at it; and the last line there
is. -/
def unseen : AnalysisResult where
  analyzed := ["/w/a.stg", ""]
  toplevel := [⟨none, -7, "lost", some ⟨3, 1, .note, "no text"⟩, none⟩,
    ⟨some "a.stg", -7, "wraps", some ⟨-5, 9000000000, .error, "far out"⟩, some ⟨"(", none⟩⟩,
    ⟨some "/w/a.stg", 2147483648, "last line", none, none⟩]
  inference := [⟨[⟨none, -1, "f"⟩, ⟨some "//srv", -1, "g"⟩], "lost", true, .plain⟩,
    ⟨[⟨some "/w/b.stg", 0, "f"⟩, ⟨none, -1, "g"⟩], "unknown line", false, .plain⟩]
  names := .empty

/-- A report whose caller is on the line behind the last one. -/
def lineTooFar : InferenceReport :=
  ⟨[⟨some "b.stg", 3, "f"⟩, ⟨some "a.stg", 2147483649, "g"⟩], "late", true, .plain⟩

theorem refused_ofResult_iff_unseen :
    (∀ t ∈ unseen.toplevel, ∀ s ∈ t.source, s.size < Position.limit) ∧
      ¬ Refused (ofResult unseen ⟨"/w"⟩) ∧
      Refused (ofResult { unseen with inference := unseen.inference ++ [lineTooFar] } ⟨"/w"⟩) := by
  have hsize : ∀ t ∈ unseen.toplevel, ∀ s ∈ t.source, s.size < Position.limit := by decide +kernel
  refine ⟨hsize, ?_, ?_⟩
  · rw [refused_ofResult_iff unseen ⟨"/w"⟩ hsize]
    decide +kernel
  · rw [refused_ofResult_iff { unseen with inference := unseen.inference ++ [lineTooFar] } ⟨"/w"⟩
      hsize]
    decide +kernel

end Buckets

end StagedDiagnostics
