import StagedDiagnostics.Proofs.Buckets.Refusal
import StagedDiagnostics.Proofs.Path.Normal
import StagedDiagnostics.Proofs.Uri.File

/-!
# Proofs/Resolver/Canonical — the one spelling of a document

    URI ──filename?──▸ name ──resolve──▸ canonical URI

A file can be named by many URIs: escaped in part, with dot segments, with the scheme in upper case.
The analyzer hears the name they have in common, and what it reports on that name is resolved to
one of them, the **canonical** one.  So the diagnostics of a document come back to the URI the
client has sent exactly if the client spells it canonically (`resolve_eq_ok_iff_canonical`).
-/

namespace StagedDiagnostics

/-! ## Drive letters of paths made of names -/

namespace Path

/-- A part that starts with a drive letter is a name with any other drive letter, too. -/
theorem IsName.drive {c letter : Char} {cs : List Char} (h : IsName (c :: ':' :: cs))
    (hletter : letter.isAlpha = true) : IsName (letter :: ':' :: cs) where
  ne_nil := List.cons_ne_nil letter _
  ne_here := by simp [here]
  ne_up := by simp [up]
  not_slash := by
    have hslash := h.not_slash
    simp only [List.mem_cons, not_or] at hslash ⊢
    refine ⟨?_, hslash.2⟩
    rintro rfl
    exact absurd hletter (by decide)

/-- A path of names with a drive letter starts with a part that starts with that letter, and with
the letter in lower case the path is cut the same way. -/
theorem exists_of_drive?_ofParts {parts : List (List Char)} (h : ∀ part ∈ parts, IsName part)
    {letter : Char} {rest : List Char} (hdrive : Uri.drive? (ofParts parts) = some (letter, rest)) :
    ∃ c cs others, c.toLower = letter ∧ Split.join '/' parts = c :: ':' :: rest ∧
      parts = (c :: ':' :: cs) :: others ∧
      Split.cut '/' (letter :: ':' :: rest) = (letter :: ':' :: cs) :: others ∧
      ∀ part ∈ (letter :: ':' :: cs) :: others, IsName part := by
  obtain ⟨c, hpath, hc, rfl⟩ := Uri.drive?_eq_some_iff.mp hdrive
  have hjoin : Split.join '/' parts = c :: ':' :: rest := (List.cons.inj hpath).2
  have hne : parts ≠ [] := by
    rintro rfl
    cases hjoin
  obtain ⟨cs, others, hcut⟩ := List.exists_cons_of_ne_nil (Split.cut_ne_nil '/' rest)
  have hcutLetter : ∀ d : Char, d.isAlpha = true →
      Split.cut '/' (d :: ':' :: rest) = (d :: ':' :: cs) :: others := by
    intro d hd
    have hslash : d ≠ '/' := by
      rintro rfl
      exact absurd hd (by decide)
    rw [Split.cut, if_neg hslash, Split.cut, if_neg (by decide), hcut]
    rfl
  have hparts : parts = (c :: ':' :: cs) :: others := by
    rw [← hcutLetter c hc, ← hjoin, Split.cut_join hne fun part hpart => (h part hpart).not_slash]
  rw [hparts] at h
  obtain ⟨hfirst, hothers⟩ := List.forall_mem_cons.mp h
  have hlower := (Uri.isAlpha_toLower hc).1
  exact ⟨c, cs, others, rfl, hjoin, hparts, hcutLetter _ hlower,
    List.forall_mem_cons.mpr ⟨hfirst.drive hlower, hothers⟩⟩

/-- In lower case a path of names is one still. -/
theorem exists_lowerDrive_ofParts {parts : List (List Char)} (h : ∀ part ∈ parts, IsName part)
    (hne : parts ≠ []) :
    ∃ lower, Uri.lowerDrive (ofParts parts) = ofParts lower ∧ (∀ part ∈ lower, IsName part) ∧
      lower ≠ [] := by
  rw [Uri.lowerDrive]
  cases hdrive : Uri.drive? (ofParts parts) with
  | none => exact ⟨parts, rfl, h, hne⟩
  | some found =>
    obtain ⟨letter, rest⟩ := found
    obtain ⟨c, cs, others, -, -, -, hcut, hnames⟩ := exists_of_drive?_ofParts h hdrive
    refine ⟨_, ?_, hnames, List.cons_ne_nil _ others⟩
    rw [← hcut, ofParts_cut]

/-! ## Machines of paths made of names -/

/-- **A path behind two slashes that is accepted names a machine** and something on it. -/
theorem exists_of_splitPath_ofParts {parts : List (List Char)} (h : ∀ part ∈ parts, IsName part)
    {machine rest : List Char} (hsplit : Uri.splitPath ('/' :: ofParts parts) = .ok (machine, rest)) :
    ∃ others, parts = machine :: others ∧ others ≠ [] ∧ rest = ofParts others := by
  cases parts with
  | nil => exact absurd hsplit (Uri.splitPath_machine_ne_ok List.not_mem_nil _)
  | cons name others =>
    have hslash : '/' ∉ name := (h name List.mem_cons_self).not_slash
    by_cases hne : others = []
    · subst hne
      exact absurd hsplit (Uri.splitPath_machine_ne_ok hslash _)
    · have hwritten : Uri.splitPath (ofMachine name others) = .ok (name, ofParts others) :=
        Uri.splitPath_machine hslash _
      rw [ofMachine_eq name hne] at hwritten
      obtain ⟨rfl, rfl⟩ := Prod.mk.inj (Except.ok.inj (hwritten.symm.trans hsplit))
      exact ⟨others, rfl, hne, rfl⟩

end Path

namespace Resolver

/-! ## Canonical URIs -/

/-- The root leads to the top, so that reading a name from it puts nothing in front of the name. -/
def AtTop (r : Resolver) : Prop :=
  Path.normalParts r.root.toList = [] ∧ Path.leadingSlashes r.root.toList ≤ 1

/-- The one URI by which the resolver knows a document. -/
inductive Canonical (r : Resolver) : Uri → Prop
  /-- An unsaved buffer whose name has no escapes. -/
  | buffer {name : String} (hbuffer : isBuffer name = true)
      (hdecode : Percent.decode name.toList = name.toList) : Canonical r (Uri.ofBuffer name)
  /-- A file on this or on another machine, as it is written: its path is made of names, its drive
  letter is in lower case, and on this machine there is a drive letter only if nothing comes in
  front of it. -/
  | file {machine : List Char} {parts : List (List Char)}
      (hmachine : machine = [] ∨ Path.IsName machine ∧ parts ≠ [])
      (hparts : ∀ part ∈ parts, Path.IsName part)
      (hlower : Uri.lowerDrive (Path.ofParts parts) = Path.ofParts parts)
      (htop : machine = [] → Uri.drive? (Path.ofParts parts) ≠ none → r.AtTop) :
      Canonical r (String.ofList (Uri.writtenFile machine (Path.ofParts parts)))

variable {r : Resolver} {uri : Uri}

/-! ## Names of files -/

theorem isBuffer_eq_false_of_slash {path : List Char} (h : path.head? = some '/') :
    isBuffer (String.ofList path) = false := by
  obtain ⟨cs, rfl⟩ := List.head?_eq_some_iff.mp h
  rw [isBuffer, String.toList_ofList]
  rfl

theorem isBuffer_eq_false_of_drive (letter : Char) (rest : List Char) :
    isBuffer (String.ofList (letter :: ':' :: rest)) = false := by
  rw [isBuffer, String.toList_ofList, Bool.eq_false_iff]
  intro hprefix
  obtain ⟨tail, htail⟩ := List.isPrefixOf_iff_prefix.mp hprefix
  have hsecond : some 'n' = some ':' := congrArg (fun cs : List Char => cs[1]?) htail
  exact absurd hsecond (by decide)

/-- A file resolves to the URI that is written from the parts of its full path. -/
theorem resolve_eq_ok_iff_of_file {file : String} (h : isBuffer file = false) :
    r.resolve file = .ok uri ↔ ∃ machine rest,
      Uri.splitPath (Path.normalize (Path.under r.root.toList file.toList)) = .ok (machine, rest) ∧
        uri = String.ofList (Uri.writtenFile machine rest) := by
  rw [resolve, if_neg (by rw [h]; exact Bool.false_ne_true), fullPath, Uri.ofPath_eq_ok_iff,
    String.toList_ofList]

/-! ## From a canonical URI -/

/-- A file with a drive letter resolves as if from the top where the root leads there. -/
theorem resolve_of_atTop (h : r.AtTop) {letter : Char} {rest : List Char}
    (hnames : ∀ part ∈ Split.cut '/' (letter :: ':' :: rest), Path.IsName part) :
    r.resolve (String.ofList (letter :: ':' :: rest))
      = .ok (String.ofList (Uri.writtenFile [] ('/' :: letter :: ':' :: rest))) := by
  have hrelative := Path.head?_ne_of_isName_cut hnames
  have hparts := Path.normalParts_under hnames r.root.toList
  rw [h.1, List.nil_append] at hparts
  have hslashes := Path.leadingSlashes_under hrelative r.root.toList
  refine (resolve_eq_ok_iff_of_file (isBuffer_eq_false_of_drive letter rest)).mpr ⟨[], _, ?_, rfl⟩
  rw [String.toList_ofList]
  rcases Path.normalize_cases (Path.under r.root.toList (letter :: ':' :: rest)) with
    ⟨hzero, -⟩ | ⟨-, heq⟩ | ⟨htwo, -⟩
  · rw [Path.normalize_of_leadingSlashes_eq_zero hzero, hparts, Split.join_cut,
      if_neg (List.cons_ne_nil letter _), Uri.splitPath_relative hrelative]
  · rw [heq, hparts, Path.ofParts_cut, Uri.splitPath_slash hrelative]
  · have hle := h.2
    omega

/-- **A canonical URI is what its name resolves to.** -/
theorem Canonical.resolve_eq (h : r.Canonical uri) {file : String}
    (hname : Uri.filename? uri = .ok (some file)) : r.resolve file = .ok uri := by
  cases h with
  | @buffer name hbuffer hdecode =>
    rw [Uri.filename?_ofBuffer hbuffer, hdecode, String.ofList_toList] at hname
    obtain rfl := Option.some.inj (Except.ok.inj hname)
    rw [resolve, if_pos hbuffer]
  | @file machine parts hmachine hparts hlower htop =>
    have hslash : '/' ∉ machine := by
      rcases hmachine with rfl | ⟨hmachine, -⟩
      · exact List.not_mem_nil
      · exact hmachine.not_slash
    rw [Uri.filename?_writtenFile hslash rfl] at hname
    obtain rfl := Option.some.inj (Except.ok.inj hname)
    rcases hmachine with rfl | ⟨hmachine, hne⟩
    · rw [Uri.readPath, if_pos rfl]
      cases hdrive : Uri.drive? (Path.ofParts parts) with
      | none =>
        refine (resolve_eq_ok_iff_of_file (isBuffer_eq_false_of_slash rfl)).mpr ⟨[], _, ?_, rfl⟩
        rw [String.toList_ofList, Path.under_of_head?_eq rfl, Path.normalize_ofParts hparts]
        exact Uri.splitPath_slash (Path.head?_join_ne_of_isName hparts)
      | some found =>
        obtain ⟨letter, rest⟩ := found
        obtain ⟨_, _, _, -, -, -, hcut, hnames⟩ := Path.exists_of_drive?_ofParts hparts hdrive
        have hsame : '/' :: letter :: ':' :: rest = Path.ofParts parts := by
          rwa [Uri.lowerDrive, hdrive] at hlower
        rw [← hsame]
        exact resolve_of_atTop (htop rfl (by simp [hdrive])) (hcut ▸ hnames)
    · rw [Uri.readPath, if_neg hmachine.ne_nil, hlower]
      refine (resolve_eq_ok_iff_of_file (isBuffer_eq_false_of_slash rfl)).mpr
        ⟨machine, _, ?_, rfl⟩
      have hnormal := Path.normalize_ofMachine hmachine hparts hne
      rw [Path.ofMachine] at hnormal
      rw [String.toList_ofList, List.cons_append, List.cons_append, Path.under_of_head?_eq rfl,
        hnormal]
      exact Uri.splitPath_machine hslash _

/-! ## To a canonical URI -/

/-- A path from the top that is made of the parts its own name has under the root. -/
theorem canonical_of_parts {path : List Char} {parts : List (List Char)}
    (hparts : ∀ part ∈ parts, Path.IsName part) (hpath : path = Path.ofParts parts)
    (hunder : Path.normalParts (Path.under r.root.toList (Uri.readPath [] path)) = parts)
    (hslashes : Path.leadingSlashes (Path.under r.root.toList (Uri.readPath [] path)) ≤ 1) :
    r.Canonical (String.ofList (Uri.writtenFile [] path)) := by
  subst hpath
  cases hdrive : Uri.drive? (Path.ofParts parts) with
  | none =>
    refine .file (Or.inl rfl) hparts ?_ fun _ hsome => absurd hdrive hsome
    rw [Uri.lowerDrive, hdrive]
  | some found =>
    obtain ⟨letter, rest⟩ := found
    rw [Uri.readPath, if_pos rfl, hdrive] at hunder hslashes
    obtain ⟨c, cs, others, -, hjoin, heq, hcut, hnames⟩ :=
      Path.exists_of_drive?_ofParts hparts hdrive
    rw [← hcut] at hnames
    -- the name has as many parts as the path, so the root has none to add
    rw [Path.normalParts_under hnames, hcut, heq] at hunder
    rw [Path.leadingSlashes_under (Path.head?_ne_of_isName_cut hnames)] at hslashes
    have hroot : Path.normalParts r.root.toList = [] := by
      have hlength := congrArg List.length hunder
      rw [List.length_append, List.length_cons, List.length_cons] at hlength
      exact List.eq_nil_of_length_eq_zero (by omega)
    rw [hroot, List.nil_append] at hunder
    have hletter : letter = c := by simpa using hunder
    refine .file (Or.inl rfl) hparts ?_ fun _ _ => ⟨hroot, hslashes⟩
    rw [Uri.lowerDrive, hdrive, Path.ofParts, hjoin, hletter]

/-- Where the full path is relative, it starts with a drive letter and is made of names. -/
theorem canonical_of_relative {rest : List Char} (hrest : rest.head? = some '/')
    (hzero : Path.leadingSlashes (Path.under r.root.toList (Uri.readPath [] rest)) = 0)
    (hfull : '/' :: Path.normalize (Path.under r.root.toList (Uri.readPath [] rest)) = rest) :
    r.Canonical (String.ofList (Uri.writtenFile [] rest)) := by
  cases hdrive : Uri.drive? rest with
  | none =>
    rw [Uri.readPath, if_pos rfl, hdrive, Path.under_of_head?_eq hrest,
      Path.leadingSlashes_eq_zero_iff] at hzero
    exact absurd hrest hzero
  | some found =>
    obtain ⟨letter, tail⟩ := found
    obtain ⟨c, rfl, hc, rfl⟩ := Uri.drive?_eq_some_iff.mp hdrive
    have hnormal := (List.cons.inj hfull).2
    rw [Path.normalize_of_leadingSlashes_eq_zero hzero] at hnormal
    split at hnormal
    · cases hnormal
    · obtain ⟨n, names, heq, hnames, -⟩ := Path.exists_normalParts_eq
        (Path.under r.root.toList (Uri.readPath [] ('/' :: c :: ':' :: tail)))
      -- a step up in front would take the place of the letter
      have hn : n = 0 := by
        cases n with
        | zero => rfl
        | succ n =>
          have hhead := congrArg List.head? hnormal
          rw [heq, List.replicate_succ, List.cons_append, Path.up, Path.head?_join_cons] at hhead
          obtain rfl := Option.some.inj hhead
          exact absurd hc (by decide)
      rw [hn, List.replicate_zero, List.nil_append] at heq
      have hpath : '/' :: c :: ':' :: tail = Path.ofParts names := by
        rw [Path.ofParts, ← heq, hnormal]
      exact canonical_of_parts hnames hpath heq (by omega)

/-- Where the full path names a machine, it is as it is written. -/
theorem canonical_of_machine {machine rest : List Char} {parts : List (List Char)}
    (hparts : ∀ part ∈ parts, Path.IsName part)
    (hfull : Path.normalize (Path.under r.root.toList (Uri.readPath machine rest))
      = '/' :: Path.ofParts parts)
    (hsplit : Uri.splitPath ('/' :: Path.ofParts parts) = .ok (machine, rest)) :
    r.Canonical (String.ofList (Uri.writtenFile machine rest)) := by
  obtain ⟨others, rfl, hne, rfl⟩ := Path.exists_of_splitPath_ofParts hparts hsplit
  obtain ⟨hname, hparts⟩ := List.forall_mem_cons.mp hparts
  obtain ⟨lower, hlower, hnames, hnonempty⟩ := Path.exists_lowerDrive_ofParts hparts hne
  have hread : Uri.readPath machine (Path.ofParts others) = Path.ofMachine machine lower := by
    rw [Uri.readPath, if_neg hname.ne_nil, hlower]
    rfl
  -- the name is normal as it is, and so is the full path, so they are the same
  rw [hread, Path.under_of_head?_eq rfl, Path.normalize_ofMachine hname hnames hnonempty,
    ← Path.ofMachine_eq machine hne] at hfull
  have hsame : Path.ofParts lower = Path.ofParts others := by
    simpa [Path.ofMachine] using hfull
  exact .file (Or.inr ⟨hname, hne⟩) hparts (hlower.trans hsame) fun hnil =>
    absurd hnil hname.ne_nil

/-- **What its own name resolves to is canonical.** -/
theorem canonical_of_resolve {file : String} (hname : Uri.filename? uri = .ok (some file))
    (hresolve : r.resolve file = .ok uri) : r.Canonical uri := by
  cases hbuffer : isBuffer file with
  | true =>
    rw [resolve, if_pos hbuffer] at hresolve
    obtain rfl := Except.ok.inj hresolve
    rw [Uri.filename?_ofBuffer hbuffer] at hname
    have hdecode := congrArg String.toList (Option.some.inj (Except.ok.inj hname))
    rw [String.toList_ofList] at hdecode
    exact .buffer hbuffer hdecode
  | false =>
    obtain ⟨machine, rest, hsplit, rfl⟩ := (resolve_eq_ok_iff_of_file hbuffer).mp hresolve
    obtain ⟨hslash, hrest, -⟩ := Uri.splitPath_cases hsplit
    rw [Uri.filename?_writtenFile hslash hrest] at hname
    obtain rfl := Option.some.inj (Except.ok.inj hname)
    rw [String.toList_ofList] at hsplit
    rcases Path.normalize_cases (Path.under r.root.toList (Uri.readPath machine rest)) with
      ⟨hzero, hhead⟩ | ⟨hone, heq⟩ | ⟨htwo, heq⟩
    · rw [Uri.splitPath_relative hhead] at hsplit
      obtain ⟨rfl, hfull⟩ := Prod.mk.inj (Except.ok.inj hsplit)
      exact canonical_of_relative hrest hzero hfull
    · have hnames : ∀ part ∈ Path.normalParts
          (Path.under r.root.toList (Uri.readPath machine rest)), Path.IsName part :=
        fun part hpart => Path.isName_of_mem_normalParts (by omega) hpart
      rw [heq, Path.ofParts, Uri.splitPath_slash (Path.head?_join_ne_of_isName hnames)] at hsplit
      obtain ⟨rfl, hpath⟩ := Prod.mk.inj (Except.ok.inj hsplit)
      exact canonical_of_parts hnames hpath.symm rfl (by omega)
    · have hnames : ∀ part ∈ Path.normalParts
          (Path.under r.root.toList (Uri.readPath machine rest)), Path.IsName part :=
        fun part hpart => Path.isName_of_mem_normalParts (by omega) hpart
      exact canonical_of_machine hnames heq (heq ▸ hsplit)

/-- **A document comes back to the URI it was sent under exactly if that is the canonical one.** -/
theorem resolve_eq_ok_iff_canonical {file : String}
    (hname : Uri.filename? uri = .ok (some file)) : r.resolve file = .ok uri ↔ r.Canonical uri :=
  ⟨canonical_of_resolve hname, fun h => h.resolve_eq hname⟩

end Resolver

/-! ## Reports on a file -/

/-- A line that a client can name, counted from one, or an unknown line. -/
theorem exists_lineRange {line : Int} (hpos : 0 ≤ line) (hle : line ≤ Position.limit + 1) :
    ∃ range, lineRange line = .ok range := by
  have hline : IsLine line := ⟨hpos, hle⟩
  exact not_refused_iff.mp fun hrefused => refused_lineRange_iff.mp hrefused hline

/-- A result with one load report and nothing else. -/
def AnalysisResult.reporting (t : ToplevelReport) (names : VirtualNames) : AnalysisResult :=
  ⟨[], [t], [], names⟩

namespace Report

variable {t : ToplevelReport} {file : String} {names : VirtualNames} {resolver : Resolver}

theorem attribution_toplevel (hfile : t.file = some file) (resolver : Resolver) :
    (toplevel t).attribution resolver = (resolver.resolve file).map some := by
  rw [attribution, file?, hfile]
  rfl

/-- A load report on a file that is not refused is placed in the document of the file. -/
theorem exists_placement?_toplevel (hfile : t.file = some file)
    (h : (toplevel t).fault? names resolver = none) :
    ∃ uri d, resolver.resolve file = .ok uri ∧ t.toDiagnostic names = .ok d ∧
      (toplevel t).placement? names resolver = some (uri, d) := by
  rw [fault?, attribution_toplevel hfile] at h
  rw [placement?, document?, attribution_toplevel hfile]
  cases hresolve : resolver.resolve file with
  | error fault =>
    rw [hresolve] at h
    cases h
  | ok uri =>
    cases hd : t.toDiagnostic names with
    | error fault =>
      rw [hresolve] at h
      simp [Except.map, toDiagnostic, hd] at h
    | ok d =>
      refine ⟨uri, d, rfl, rfl, ?_⟩
      simp [Except.map, toDiagnostic, hd]

/-- A load report on a file with a document is not refused if it can be converted. -/
theorem fault?_toplevel_eq_none {uri : Uri} {d : Diagnostic} (hfile : t.file = some file)
    (hresolve : resolver.resolve file = .ok uri) (hd : t.toDiagnostic names = .ok d) :
    (toplevel t).fault? names resolver = none := by
  rw [fault?, attribution_toplevel hfile, hresolve]
  simp [Except.map, toDiagnostic, hd]

end Report

namespace Pass

variable {entry : Uri} {result : AnalysisResult} {resolver : Resolver} {p : Pass}
  {t : ToplevelReport} {file : String}

/-- **A load report on a file is found in the document of the file.** -/
theorem exists_mem_diagnosticsFor (h : Pass.ofResult entry result resolver = .ok p)
    (ht : t ∈ result.toplevel) (hfile : t.file = some file) :
    ∃ uri d, resolver.resolve file = .ok uri ∧ t.toDiagnostic result.names = .ok d ∧
      d ∈ p.diagnosticsFor uri := by
  obtain ⟨-, -, hall, -⟩ := Pass.ofResult_eq_ok_iff.mp h
  have hmem : .toplevel t ∈ result.reports :=
    List.mem_append_left _ (List.mem_map_of_mem ht)
  obtain ⟨uri, d, hresolve, hd, hplaced⟩ :=
    Report.exists_placement?_toplevel hfile (hall _ hmem)
  refine ⟨uri, d, hresolve, hd, ?_⟩
  have hds := (Report.mapM_toDiagnostic hall uri).symm.trans
    (Pass.mapM_toDiagnostic_of_ofResult h uri)
  rw [← Except.ok.inj hds]
  refine List.mem_map.mpr ⟨(uri, d), List.mem_filter.mpr ⟨?_, decide_eq_true rfl⟩, rfl⟩
  exact List.mem_filterMap.mpr ⟨.toplevel t, hmem, hplaced⟩

/-- **A single load report on a file makes a pass** that says just this about its document. -/
theorem exists_ofResult_reporting {uri : Uri} {d : Diagnostic} {names : VirtualNames}
    (hfile : t.file = some file) (hresolve : resolver.resolve file = .ok uri)
    (hd : t.toDiagnostic names = .ok d) (entry : Uri) :
    ∃ p, Pass.ofResult entry (.reporting t names) resolver = .ok p ∧
      p.diagnosticsFor uri = [d] := by
  have hall : ∀ r ∈ [Report.toplevel t], r.fault? names resolver = none := by
    intro r hr
    obtain rfl := List.mem_singleton.mp hr
    exact Report.fault?_toplevel_eq_none hfile hresolve hd
  obtain ⟨p, hp⟩ : ∃ p, Pass.ofResult entry (.reporting t names) resolver = .ok p :=
    ⟨_, Pass.ofResult_eq_ok_iff.mpr ⟨[], rfl, hall, rfl⟩⟩
  have hdocument : (Report.toplevel t).document? resolver = some uri := by
    rw [Report.document?, Report.attribution_toplevel hfile, hresolve]
    rfl
  have hconverted : ([Report.toplevel t].filter fun r => r.document? resolver = some uri).mapM
      (fun r => r.toDiagnostic names resolver none) = .ok [d] := by
    simp [hdocument, Report.toDiagnostic, hd, bind, Except.bind, pure, Except.pure]
  have hds := hconverted.symm.trans (Pass.mapM_toDiagnostic_of_ofResult hp uri)
  exact ⟨p, hp, (Except.ok.inj hds).symm⟩

end Pass

/-- **The diagnostics of a document itself.**  A document is analyzed under its name, and a load
report on that name goes into the bucket of the document the name resolves to.  This is the document
itself exactly if its URI is the canonical one; then a report on a line that a client can name is
shown there. -/
theorem Resolver.reported_iff_canonical (r : Resolver) {uri : Uri} {file : String}
    (hname : Uri.filename? uri = .ok (some file)) :
    (r.resolve file = .ok uri ↔ r.Canonical uri) ∧
      (∀ result p t, t ∈ result.toplevel → t.file = some file →
        Pass.ofResult uri result r = .ok p →
          ∃ other d, r.resolve file = .ok other ∧ t.toDiagnostic result.names = .ok d ∧
            d ∈ p.diagnosticsFor other ∧ (other = uri ↔ r.Canonical uri)) ∧
      (r.Canonical uri → ∀ (line : Int) message names, 0 ≤ line → line ≤ Position.limit + 1 →
        ∃ p d, Pass.ofResult uri (.reporting ⟨some file, line, message, none, none⟩ names) r
            = .ok p ∧ p.diagnosticsFor uri = [d]) := by
  have hiff := r.resolve_eq_ok_iff_canonical hname
  refine ⟨hiff, fun result p t ht hfile hp => ?_, fun hcanonical line message names hpos hle => ?_⟩
  · obtain ⟨other, d, hresolve, hd, hmem⟩ := Pass.exists_mem_diagnosticsFor hp ht hfile
    refine ⟨other, d, hresolve, hd, hmem, ?_⟩
    rw [← hiff, hresolve, Except.ok.injEq]
  · obtain ⟨range, hrange⟩ := exists_lineRange hpos hle
    have hd : ToplevelReport.toDiagnostic ⟨some file, line, message, none, none⟩ names
        = .ok ⟨range, names.restore message, some .error, some Diagnostic.toplevelOrigin, none⟩ := by
      rw [ToplevelReport.toDiagnostic, hrange]
      rfl
    obtain ⟨p, hp, hds⟩ := Pass.exists_ofResult_reporting rfl (hiff.mpr hcanonical) hd uri
    exact ⟨p, _, hp, hds⟩

/-- A load report on one file. -/
def reported : ToplevelReport := ⟨some "/w/a.stg", 1, "boom", none, none⟩

theorem Resolver.reported_iff_canonical_plain :
    Uri.filename? "file:///w/a.stg" = .ok (some "/w/a.stg") ∧
      (Resolver.mk "/w").Canonical "file:///w/a.stg" ∧
      ∃ p d, Pass.ofResult "file:///w/a.stg" (.reporting reported .empty) ⟨"/w"⟩ = .ok p ∧
        p.diagnosticsFor "file:///w/a.stg" = [d] := by
  have hname : Uri.filename? "file:///w/a.stg" = .ok (some "/w/a.stg") := by decide +kernel
  obtain ⟨hiff, -, hshown⟩ := Resolver.reported_iff_canonical ⟨"/w"⟩ hname
  have hcanonical := hiff.mp (by decide +kernel)
  exact ⟨hname, hcanonical, hshown hcanonical 1 "boom" .empty (by decide) (by decide)⟩

/-- **Another spelling of a file does not hear of it**: where a letter is escaped, the diagnostic
goes to the canonical spelling, and the bucket of the document that was analyzed stays empty. -/
theorem Resolver.reported_iff_canonical_escaped :
    Uri.filename? "file:///w/%61.stg" = .ok (some "/w/a.stg") ∧
      (Resolver.mk "/w").resolve "/w/a.stg" = .ok "file:///w/a.stg" ∧
      (Pass.ofResult "file:///w/%61.stg" (.reporting reported .empty) ⟨"/w"⟩).map
          (fun p => (p.uris, p.diagnosticsFor "file:///w/%61.stg"))
        = .ok (["file:///w/a.stg", "file:///w/%61.stg"], []) := by
  refine ⟨by decide +kernel, by decide +kernel, by decide +kernel⟩

end StagedDiagnostics
