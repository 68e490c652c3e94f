import StagedDiagnostics.Proofs.Resolver.Canonical

/-!
# Proofs/Resolver/RoundTrip — a document knows the path of its file

    file ──fullPath──▸ path ──ofPath──▸ URI ──filename?──▸ the same path

The URI of a file is written from the full path of the file, and the name of the document is read
off the URI.  Under an absolute root the reading undoes the writing: nothing of a path is lost but
the slash in front of a drive letter, and the case of that letter (`HasDocument.filename?_eq`).  The
full path is normal already, so it resolves to the same document again (`resolve_fullPath`).  Hence
a document stands for one path (`filename?_resolve`).
-/

namespace StagedDiagnostics

/-! ## Drive letters -/

/-- No drive letter stands at the front of a path, nor behind the machine that the path names. -/
def Path.Driveless (path : List Char) : Prop :=
  Uri.drive? path = none ∧
    ∀ machine rest, '/' ∉ machine → path = '/' :: '/' :: (machine ++ '/' :: rest) →
      Uri.drive? ('/' :: rest) = none

namespace Uri

/-- A path without a drive letter is read as it was written, from the root … -/
theorem readPath_nil {path : List Char} (h : drive? path = none) : readPath [] path = path := by
  rw [readPath, if_pos rfl, h]

/-- … and from a machine. -/
theorem readPath_machine {machine path : List Char} (hmachine : machine ≠ [])
    (h : drive? path = none) : readPath machine path = '/' :: '/' :: (machine ++ path) := by
  rw [readPath, if_neg hmachine, lowerDrive, h]
  rfl

/-- **The two parts of a normal path are read as the path they were taken from.** -/
theorem readPath_of_splitPath {path machine rest : List Char}
    (hpos : 0 < Path.leadingSlashes path) (hdrive : Path.Driveless (Path.normalize path))
    (hsplit : splitPath (Path.normalize path) = .ok (machine, rest)) :
    readPath machine rest = Path.normalize path := by
  have hnames : ∀ part ∈ Path.normalParts path, Path.IsName part :=
    fun part hpart => Path.isName_of_mem_normalParts hpos hpart
  rcases Path.normalize_cases path with ⟨hzero, -⟩ | ⟨-, heq⟩ | ⟨-, heq⟩
  · omega
  · have hroot := splitPath_slash (Path.head?_join_ne_of_isName hnames)
    rw [heq, Path.ofParts] at hsplit
    obtain ⟨rfl, rfl⟩ := Prod.mk.inj (Except.ok.inj (hroot.symm.trans hsplit))
    rw [heq] at hdrive ⊢
    exact readPath_nil hdrive.1
  · rw [heq] at hsplit hdrive ⊢
    obtain ⟨others, hparts, hne, rfl⟩ := Path.exists_of_splitPath_ofParts hnames hsplit
    rw [hparts, ← Path.ofMachine_eq machine hne] at hdrive ⊢
    have hmachine : Path.IsName machine := hnames machine (hparts ▸ List.mem_cons_self)
    exact readPath_machine hmachine.ne_nil (hdrive.2 machine _ hmachine.not_slash rfl)

end Uri

namespace Resolver

variable {r : Resolver} {file : String} {uri : Uri}

/-! ## Full paths -/

/-- Under an absolute root every full path starts with a slash. -/
theorem head?_fullPath (hroot : Path.isAbsolute r.root.toList = true) (file : String) :
    (r.fullPath file).toList.head? = some '/' := by
  have hpos := Path.leadingSlashes_under_pos hroot file.toList
  rw [fullPath, String.toList_ofList]
  rcases Path.normalize_cases (Path.under r.root.toList file.toList) with
    ⟨hzero, -⟩ | ⟨-, heq⟩ | ⟨-, heq⟩
  · omega
  · rw [heq]
    rfl
  · rw [heq]
    rfl

/-- **A full path is its own full path.** -/
theorem fullPath_fullPath (hroot : Path.isAbsolute r.root.toList = true) (file : String) :
    r.fullPath (r.fullPath file) = r.fullPath file := by
  rw [fullPath, Path.under_of_head?_eq (head?_fullPath hroot file), fullPath,
    String.toList_ofList,
    Path.normalize_normalize (Path.leadingSlashes_under_pos hroot file.toList)]

/-- …and it has the document that its file has. -/
theorem resolve_fullPath (hroot : Path.isAbsolute r.root.toList = true)
    (hfile : isBuffer file = false) : r.resolve (r.fullPath file) = r.resolve file := by
  have hpath : isBuffer (r.fullPath file) = false := by
    rw [← String.ofList_toList (s := r.fullPath file)]
    exact isBuffer_eq_false_of_slash (head?_fullPath hroot file)
  rw [resolve, hpath, if_neg Bool.false_ne_true, fullPath_fullPath hroot, resolve, hfile,
    if_neg Bool.false_ne_true]

/-! ## From a document to its file -/

/-- A file that is no unsaved buffer and whose full path has no drive letter, with its document. -/
structure HasDocument (r : Resolver) (file : String) (uri : Uri) : Prop where
  isBuffer_eq : isBuffer file = false
  resolve_eq : r.resolve file = .ok uri
  driveless : Path.Driveless (r.fullPath file).toList

/-- **The name of the document of a file is the full path of the file.** -/
theorem HasDocument.filename?_eq (h : r.HasDocument file uri)
    (hroot : Path.isAbsolute r.root.toList = true) :
    Uri.filename? uri = .ok (some (r.fullPath file)) := by
  obtain ⟨hfile, hresolve, hdrive⟩ := h
  obtain ⟨machine, rest, hsplit, rfl⟩ := (resolve_eq_ok_iff_of_file hfile).mp hresolve
  obtain ⟨hslash, hrest, -⟩ := Uri.splitPath_cases hsplit
  rw [fullPath, String.toList_ofList] at hdrive
  rw [Uri.filename?_writtenFile hslash hrest, fullPath,
    Uri.readPath_of_splitPath (Path.leadingSlashes_under_pos hroot _) hdrive hsplit]

/-- **A file, its document, and back.**  Under an absolute root, the document of a file is named by
just the full path of the file, and the full path resolves to that document again.  So two files
have one document exactly if they have one full path. -/
theorem filename?_resolve (r : Resolver) (hroot : Path.isAbsolute r.root.toList = true) :
    (∀ file uri, r.HasDocument file uri →
      Uri.filename? uri = .ok (some (r.fullPath file)) ∧ r.resolve (r.fullPath file) = .ok uri) ∧
      ∀ file other uri otherUri, r.HasDocument file uri → r.HasDocument other otherUri →
        (uri = otherUri ↔ r.fullPath file = r.fullPath other) := by
  refine ⟨fun file uri h => ⟨h.filename?_eq hroot, ?_⟩, fun file other uri otherUri h hother => ?_⟩
  · rw [resolve_fullPath hroot h.isBuffer_eq, h.resolve_eq]
  · constructor
    · rintro rfl
      have hnames := (h.filename?_eq hroot).symm.trans (hother.filename?_eq hroot)
      exact Option.some.inj (Except.ok.inj hnames)
    · intro hsame
      have hdocument := resolve_fullPath hroot h.isBuffer_eq
      rw [hsame, resolve_fullPath hroot hother.isBuffer_eq, h.resolve_eq, hother.resolve_eq]
        at hdocument
      exact (Except.ok.inj hdocument).symm

/-- A path that no URI holds as it is, on another machine. -/
def oddPath : String := "//srv/w/\u00e4 %41?#[1].stg"

theorem driveless_oddPath : Path.Driveless oddPath.toList := by
  refine ⟨by decide +kernel, fun machine rest hslash hpath => ?_⟩
  have hread : Uri.splitPath oddPath.toList
      = .ok ("srv".toList, "/w/\u00e4 %41?#[1].stg".toList) := by decide +kernel
  have hsplit := Uri.splitPath_machine hslash rest
  rw [← hpath, hread] at hsplit
  rw [← (Prod.mk.inj (Except.ok.inj hsplit)).2]
  decide +kernel

theorem filename?_resolve_oddPath :
    Path.isAbsolute (Resolver.mk "//srv/w").root.toList = true ∧
      (Resolver.mk "//srv/w").HasDocument "./lib/../\u00e4 %41?#[1].stg"
        "file://srv/w/%C3%A4%20%2541%3F%23%5B1%5D.stg" ∧
      (Resolver.mk "//srv/w").HasDocument "//srv//w/\u00e4 %41?#[1].stg"
        "file://srv/w/%C3%A4%20%2541%3F%23%5B1%5D.stg" ∧
      Uri.filename? "file://srv/w/%C3%A4%20%2541%3F%23%5B1%5D.stg" = .ok (some oddPath) ∧
      (Resolver.mk "//srv/w").fullPath "./lib/../\u00e4 %41?#[1].stg"
        = (Resolver.mk "//srv/w").fullPath "//srv//w/\u00e4 %41?#[1].stg" := by
  have hroot : Path.isAbsolute (Resolver.mk "//srv/w").root.toList = true := by decide +kernel
  have hrelative : (Resolver.mk "//srv/w").fullPath "./lib/../\u00e4 %41?#[1].stg" = oddPath := by
    decide +kernel
  have habsolute : (Resolver.mk "//srv/w").fullPath "//srv//w/\u00e4 %41?#[1].stg" = oddPath := by
    decide +kernel
  have hfile : (Resolver.mk "//srv/w").HasDocument "./lib/../\u00e4 %41?#[1].stg"
      "file://srv/w/%C3%A4%20%2541%3F%23%5B1%5D.stg" :=
    ⟨by decide +kernel, by decide +kernel, hrelative ▸ driveless_oddPath⟩
  have hother : (Resolver.mk "//srv/w").HasDocument "//srv//w/\u00e4 %41?#[1].stg"
      "file://srv/w/%C3%A4%20%2541%3F%23%5B1%5D.stg" :=
    ⟨by decide +kernel, by decide +kernel, habsolute ▸ driveless_oddPath⟩
  obtain ⟨hname, hsame⟩ := (Resolver.mk "//srv/w").filename?_resolve hroot
  refine ⟨hroot, hfile, hother, ?_, (hsame _ _ _ _ hfile hother).mp rfl⟩
  rw [← hrelative]
  exact (hname _ _ hfile).1

end Resolver

end StagedDiagnostics
