import StagedDiagnostics.Proofs.Resolver.Canonical

/-!
# Proofs/Resolver/Unresolvable — the names that have no document

    root, file ──fullPath──▸ path ──splitPath──▸ authority, path on it

Resolving a name is refused in one case only: its full path is two slashes and a machine with
nothing on it, as there is then no path to put into a URI.  What is refused is the normal form, so
names lead there that do not look it: `//srv/x/..`, and under a root on a machine also `..`
(`isBare_normalize_iff`).  Such a name is enough to have a result refused, and in a result that is in
order otherwise nothing else is (`resolve_eq_error_iff`).
-/

namespace StagedDiagnostics

/-! ## Bare machines -/

namespace Path

/-- Two slashes and a machine, if any, with nothing on it. -/
def isBare : List Char → Bool
  | '/' :: '/' :: machine => !machine.contains '/'
  | _ => false

theorem isBare_iff {path : List Char} :
    isBare path = true ↔ ∃ machine, path = '/' :: '/' :: machine ∧ '/' ∉ machine := by
  constructor
  · intro h
    unfold isBare at h
    split at h
    · rename_i machine
      exact ⟨machine, rfl, by simpa using h⟩
    · cases h
  · rintro ⟨machine, rfl, hmachine⟩
    simpa [isBare] using hmachine

/-- Parts without a slash are joined without one if there is one of them at most. -/
theorem slash_mem_join_iff {parts : List (List Char)} (h : ∀ part ∈ parts, '/' ∉ part) :
    '/' ∉ Split.join '/' parts ↔ parts.length ≤ 1 := by
  match parts with
  | [] => simp [Split.join]
  | [part] => simpa [Split.join] using h
  | first :: second :: parts => simp [Split.join]

/-- **Where a normal path is bare**: two slashes are kept, and walking along the path leaves one
part at most. -/
theorem isBare_normalize_iff (path : List Char) :
    isBare (normalize path) = true ↔ leadingSlashes path = 2 ∧ (normalParts path).length ≤ 1 := by
  rw [isBare_iff]
  rcases normalize_cases path with ⟨hzero, hhead⟩ | ⟨hone, heq⟩ | ⟨htwo, heq⟩
  · refine iff_of_false ?_ (by omega)
    rintro ⟨machine, hpath, -⟩
    exact hhead (by rw [hpath]; rfl)
  · refine iff_of_false ?_ (by omega)
    rintro ⟨machine, hpath, -⟩
    have hnames : ∀ part ∈ normalParts path, IsName part :=
      fun part hpart => isName_of_mem_normalParts (by omega) hpart
    refine head?_join_ne_of_isName hnames ?_
    rw [(List.cons.inj (heq.symm.trans hpath)).2]
    rfl
  · have hparts : ∀ part ∈ normalParts path, '/' ∉ part :=
      fun part hpart => (isName_of_mem_normalParts (by omega) hpart).not_slash
    rw [← slash_mem_join_iff hparts, and_iff_right htwo, heq]
    constructor
    · rintro ⟨machine, hpath, hmachine⟩
      rwa [(List.cons.inj (List.cons.inj hpath).2).2]
    · exact fun hjoin => ⟨_, rfl, hjoin⟩

end Path

/-! ## Names without a document -/

/-- A path is split unless it is bare. -/
theorem Uri.splitPath_eq_error_iff {path : List Char} {fault : Fault} :
    splitPath path = .error fault ↔ fault = .authorityWithoutPath ∧ Path.isBare path = true := by
  rw [Path.isBare_iff]
  constructor
  · intro h
    unfold splitPath at h
    split at h
    · rename_i cs
      split at h
      · rename_i hdrop
        refine ⟨(Except.error.inj h).symm, cs, rfl, fun hslash => ?_⟩
        simpa using List.dropWhile_eq_nil_iff.mp hdrop '/' hslash
      · cases h
    · cases h
    · cases h
  · rintro ⟨rfl, machine, rfl, hmachine⟩
    rw [splitPath, List.dropWhile_eq_nil_iff.mpr (forall_bne_slash hmachine)]

namespace Resolver

/-- A file, and no unsaved buffer, whose full path is bare. -/
def Bare (r : Resolver) (file : String) : Prop :=
  isBuffer file = false ∧ Path.isBare (r.fullPath file).toList = true
  deriving Decidable

/-- A name is refused where its full path cannot be split, and for that reason. -/
theorem resolve_eq_error_iff_bare {r : Resolver} {file : String} {fault : Fault} :
    r.resolve file = .error fault ↔ fault = .authorityWithoutPath ∧ r.Bare file := by
  rw [resolve, Bare]
  cases hbuffer : isBuffer file with
  | true => simp
  | false =>
    rw [if_neg Bool.false_ne_true, and_iff_right rfl, ← Uri.splitPath_eq_error_iff, Uri.ofPath,
      Uri.ofPathChars]
    cases Uri.splitPath (r.fullPath file).toList with
    | error other => simp [bind, Except.bind, Except.map]
    | ok parts => simp [bind, Except.bind, pure, Except.pure, Except.map]

theorem unresolvable_iff_bare {r : Resolver} {file : String} : r.Unresolvable file ↔ r.Bare file := by
  rw [Unresolvable, Refused]
  simp only [resolve_eq_error_iff_bare, exists_eq_left]

/-- A name that is bare is written with two slashes in front, or read from a root that is. -/
theorem Bare.leadingSlashes_eq {r : Resolver} {file : String} (h : r.Bare file) :
    Path.leadingSlashes file.toList = 2 ∨
      Path.isAbsolute file.toList = false ∧ Path.leadingSlashes r.root.toList = 2 := by
  have hbare := h.2
  rw [fullPath, String.toList_ofList, Path.isBare_normalize_iff] at hbare
  by_cases hhead : file.toList.head? = some '/'
  · rw [Path.under_of_head?_eq hhead] at hbare
    exact Or.inl hbare.1
  · rw [Path.leadingSlashes_under hhead] at hbare
    exact Or.inr ⟨Bool.eq_false_iff.mpr fun habs => hhead (Path.isAbsolute_iff.mp habs), hbare.1⟩

end Resolver

/-! ## Results that are in order -/

/-- The files an inference report is placed by: those of its frames, if the first one has a file. -/
def InferenceReport.placedBy (r : InferenceReport) : List String :=
  if ∃ site ∈ r.frames.head?, site.file ≠ none then r.frames.filterMap Frame.file else []

namespace AnalysisResult

/-- The names in a result that are resolved. -/
def resolved (result : AnalysisResult) : List String :=
  result.analyzed ++ result.toplevel.filterMap ToplevelReport.file
    ++ result.inference.flatMap InferenceReport.placedBy

/-- A result in which nothing can be refused but a name: no text is too long or missing, no frames
are missing, and all lines can be named. -/
structure InOrder (result : AnalysisResult) : Prop where
  size_lt : ∀ t ∈ result.toplevel, ∀ s ∈ t.source, s.size < Position.limit
  source_ne : ∀ t ∈ result.toplevel, t.nested ≠ none → t.source ≠ none
  isLine : ∀ t ∈ result.toplevel, IsLine t.line
  frames_ne : ∀ r ∈ result.inference, r.frames ≠ []
  isLine_frame : ∀ r ∈ result.inference, ∀ f ∈ r.frames, IsLine f.line

variable {result : AnalysisResult} {resolver : Resolver}

theorem InOrder.rejected_toplevel_iff (h : result.InOrder) {t : ToplevelReport}
    (ht : t ∈ result.toplevel) :
    t.Rejected resolver ↔ ∃ file ∈ t.file, resolver.Unresolvable file := by
  refine exists_congr fun file => and_congr_right fun _ => or_iff_left ?_
  rintro (⟨hnested, hsource⟩ | ⟨-, hline⟩)
  · exact h.source_ne t ht hnested hsource
  · exact hline (h.isLine t ht)

theorem InOrder.rejected_inference_iff (h : result.InOrder) {r : InferenceReport}
    (hr : r ∈ result.inference) :
    r.Rejected resolver ↔ ∃ file ∈ r.placedBy, resolver.Unresolvable file := by
  have hmisplaced : ∀ f ∈ r.frames,
      (f.Misplaced resolver ↔ ∃ file ∈ f.file, resolver.Unresolvable file) := by
    intro f hf
    refine exists_congr fun file => and_congr_right fun _ => or_iff_left ?_
    exact not_not.mpr (h.isLine_frame r hr f hf)
  rw [InferenceReport.Rejected, or_iff_right (h.frames_ne r hr), InferenceReport.placedBy]
  split
  · rename_i hsite
    rw [and_iff_right hsite]
    constructor
    · rintro ⟨f, hf, hfault⟩
      obtain ⟨file, hfile, hnone⟩ := (hmisplaced f hf).mp hfault
      exact ⟨file, List.mem_filterMap.mpr ⟨f, hf, hfile⟩, hnone⟩
    · rintro ⟨file, hmem, hnone⟩
      obtain ⟨f, hf, hfile⟩ := List.mem_filterMap.mp hmem
      exact ⟨f, hf, (hmisplaced f hf).mpr ⟨file, hfile, hnone⟩⟩
  · rename_i hsite
    exact iff_of_false (fun hfault => hsite hfault.1) (by simp)

/-- **A result that is in order is refused for its names alone.** -/
theorem InOrder.refused_ofResult_iff_resolved (h : result.InOrder) :
    Refused (Buckets.ofResult result resolver)
      ↔ ∃ file ∈ result.resolved, resolver.Unresolvable file := by
  rw [Buckets.refused_ofResult_iff_fault?, Buckets.exists_fault?_ne_none_iff h.size_lt, resolved]
  simp only [List.mem_append, List.mem_filterMap, List.mem_flatMap]
  constructor
  · rintro (⟨file, hfile, hnone⟩ | ⟨t, ht, hrejected⟩ | ⟨r, hr, hrejected⟩)
    · exact ⟨file, Or.inl (Or.inl hfile), hnone⟩
    · obtain ⟨file, hfile, hnone⟩ := (h.rejected_toplevel_iff ht).mp hrejected
      exact ⟨file, Or.inl (Or.inr ⟨t, ht, hfile⟩), hnone⟩
    · obtain ⟨file, hfile, hnone⟩ := (h.rejected_inference_iff hr).mp hrejected
      exact ⟨file, Or.inr ⟨r, hr, hfile⟩, hnone⟩
  · rintro ⟨file, (hfile | ⟨t, ht, hfile⟩) | ⟨r, hr, hfile⟩, hnone⟩
    · exact Or.inl ⟨file, hfile, hnone⟩
    · exact Or.inr (Or.inl ⟨t, ht, (h.rejected_toplevel_iff ht).mpr ⟨file, hfile, hnone⟩⟩)
    · exact Or.inr (Or.inr ⟨r, hr, (h.rejected_inference_iff hr).mpr ⟨file, hfile, hnone⟩⟩)

end AnalysisResult

namespace Resolver

/-- **When a name has no document.**  Resolving is refused exactly for names whose full path is two
slashes and a machine with nothing on it, that is, where the path keeps two slashes and one part at
most; and the fault says so.  Unless the root has two slashes in front, only names that have them
themselves come to this.  A result in which nothing else can be refused is refused exactly if one of
the names that are resolved for it is such a name. -/
theorem resolve_eq_error_iff (r : Resolver) :
    (∀ file fault, r.resolve file = .error fault ↔ fault = .authorityWithoutPath ∧ r.Bare file) ∧
      (∀ file, isBuffer file = false → (r.Bare file
        ↔ Path.leadingSlashes (Path.under r.root.toList file.toList) = 2 ∧
          (Path.normalParts (Path.under r.root.toList file.toList)).length ≤ 1)) ∧
      (∀ file, r.Bare file → Path.leadingSlashes file.toList = 2 ∨
        Path.isAbsolute file.toList = false ∧ Path.leadingSlashes r.root.toList = 2) ∧
      ∀ result : AnalysisResult, result.InOrder →
        (Refused (Buckets.ofResult result r) ↔ ∃ file ∈ result.resolved, r.Bare file) := by
  refine ⟨fun file fault => resolve_eq_error_iff_bare, fun file hfile => ?_,
    fun file h => h.leadingSlashes_eq, fun result h => ?_⟩
  · rw [Bare, and_iff_right hfile, fullPath, String.toList_ofList, Path.isBare_normalize_iff]
  · rw [h.refused_ofResult_iff_resolved]
    simp only [unresolvable_iff_bare]

/-- A result that is in order, with a caller in the directory above the root. -/
def climbing : AnalysisResult where
  analyzed := ["a.stg"]
  toplevel := [⟨some "Untitled-1", 1, "first", none, none⟩]
  inference := [⟨[⟨some "a.stg", 3, "f"⟩, ⟨some "..", 0, "g"⟩], "second", true, .plain⟩]
  names := .empty

theorem resolve_eq_error_iff_climbing :
    isBuffer ".." = false ∧ (Resolver.mk "//srv/w").Bare ".." ∧
      (Resolver.mk "//srv/w").resolve ".." = .error .authorityWithoutPath ∧
      Path.leadingSlashes (Resolver.mk "//srv/w").root.toList = 2 ∧ climbing.InOrder ∧
      Refused (Buckets.ofResult climbing ⟨"//srv/w"⟩) ∧
      ¬ Refused (Buckets.ofResult climbing ⟨"/w"⟩) := by
  obtain ⟨hfault, hbare, hslashes, hresult⟩ := resolve_eq_error_iff ⟨"//srv/w"⟩
  have hfile : isBuffer ".." = false := by decide +kernel
  have hup : (Resolver.mk "//srv/w").Bare ".." := (hbare ".." hfile).mpr (by decide +kernel)
  have horder : climbing.InOrder :=
    ⟨by decide, by decide, by decide, by decide, by decide⟩
  refine ⟨hfile, hup, (hfault _ _).mpr ⟨rfl, hup⟩, ?_, horder, ?_, ?_⟩
  · exact (hslashes ".." hup).elim (fun h => absurd h (by decide +kernel)) And.right
  · exact (hresult climbing horder).mpr ⟨"..", by decide +kernel, hup⟩
  · rw [(resolve_eq_error_iff ⟨"/w"⟩).2.2.2 climbing horder]
    decide +kernel

/-- **A name alone can have a result refused**, under an ordinary root, too, and a name with dots in
it like one without. -/
theorem resolve_eq_error_lonelyMachine :
    Path.isAbsolute (Resolver.ofRoot "/" (some "/w")).root.toList = true ∧
      (Resolver.ofRoot "/" (some "/w")).resolve "//srv" = .error .authorityWithoutPath ∧
      (Resolver.ofRoot "/" (some "")).resolve "//srv/x/.." = .error .authorityWithoutPath ∧
      Refused (Buckets.ofResult (.clean ["//srv"]) (.ofRoot "/" (some "/w"))) := by
  refine ⟨by decide +kernel, by decide +kernel, by decide +kernel, by decide +kernel⟩

end Resolver

end StagedDiagnostics
