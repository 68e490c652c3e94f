import Mathlib.Data.List.TakeWhile
import StagedDiagnostics.Proofs.Uri.Percent
import StagedDiagnostics.Resolver

/-!
# Proofs/Uri/File — reading back the URI of a file

    path ──splitPath──▸ authority, path ──writtenFile──▸ URI ──filename?──▸ readPath

A file URI that was written from an authority and a path is read as just these two
(`ofUri_writtenFile`), apart from the case of a drive letter.  The URI of an unsaved buffer is read
as the percent-decoded name of the buffer (`filename?_ofBuffer`).  So whatever a file resolves to is
a document with a name (`exists_filename?_of_resolve`).
-/

namespace StagedDiagnostics

namespace Uri

/-! ## Drive letters -/

theorem isPlain_of_isAlpha {c : Char} (h : c.isAlpha = true) : Percent.isPlain c = true := by
  simp [Percent.isPlain, Char.isAlphanum, h]

/-- The lower case of a letter is a letter in lower case. -/
theorem isAlpha_toLower {c : Char} (h : c.isAlpha = true) :
    c.toLower.isAlpha = true ∧ c.toLower.toLower = c.toLower :=
  Percent.of_ascii (P := fun c => c.isAlpha = true →
      c.toLower.isAlpha = true ∧ c.toLower.toLower = c.toLower)
    (by decide +kernel) (Percent.toNat_lt_of_isPlain (isPlain_of_isAlpha h)) h

theorem drive?_eq_some_iff {path : List Char} {letter : Char} {rest : List Char} :
    drive? path = some (letter, rest)
      ↔ ∃ c : Char, path = '/' :: c :: ':' :: rest ∧ c.isAlpha = true ∧ c.toLower = letter := by
  constructor
  · intro h
    unfold drive? at h
    split at h
    · rename_i c tail
      split at h
      · rename_i hc
        obtain ⟨rfl, rfl⟩ := Prod.mk.inj (Option.some.inj h)
        exact ⟨c, rfl, hc, rfl⟩
      · cases h
    · cases h
  · rintro ⟨c, rfl, hc, rfl⟩
    exact if_pos hc

/-- A path whose drive letter, if it has one, is in lower case. -/
def lowerDrive (path : List Char) : List Char :=
  match drive? path with
  | some (letter, rest) => '/' :: letter :: ':' :: rest
  | none => path

theorem drive?_lowerDrive (path : List Char) : drive? (lowerDrive path) = drive? path := by
  rw [lowerDrive]
  cases h : drive? path with
  | none => exact h
  | some found =>
    obtain ⟨letter, rest⟩ := found
    obtain ⟨c, -, hc, rfl⟩ := drive?_eq_some_iff.mp h
    obtain ⟨halpha, hlower⟩ := isAlpha_toLower hc
    exact drive?_eq_some_iff.mpr ⟨c.toLower, rfl, halpha, hlower⟩

theorem head?_lowerDrive {path : List Char} (h : path.head? = some '/') :
    (lowerDrive path).head? = some '/' := by
  rw [lowerDrive]
  split
  · rfl
  · exact h

/-! ## Writing a path -/

theorem head?_encodePath {path : List Char} (h : path.head? = some '/') :
    (encodePath path).head? = some '/' := by
  obtain ⟨rest, rfl⟩ := List.head?_eq_some_iff.mp h
  rw [encodePath]
  split <;> rfl

/-- **A written path is read as itself**, with its drive letter in lower case. -/
theorem decode_encodePath (path : List Char) :
    Percent.decode (encodePath path) = lowerDrive path := by
  rw [encodePath, lowerDrive]
  cases h : drive? path with
  | none => exact Percent.decode_encode path
  | some found =>
    obtain ⟨letter, rest⟩ := found
    obtain ⟨c, -, hc, rfl⟩ := drive?_eq_some_iff.mp h
    have hplain := isPlain_of_isAlpha (isAlpha_toLower hc).1
    change Percent.decodeFrom none _ = _
    rw [Percent.decodeFrom_ascii (by decide) (by decide),
      Percent.decodeFrom_ascii (Percent.toNat_lt_of_isPlain hplain)
        (Percent.ne_percent_of_isPlain hplain),
      Percent.decodeFrom_ascii (by decide) (by decide)]
    exact congrArg ('/' :: c.toLower :: ':' :: ·) (Percent.decode_encode rest)

/-! ## Written characters -/

/-- A character that a written URI may hold. -/
def IsWritten (c : Char) : Prop := c = '%' ∨ c = ':' ∨ Percent.isPlain c = true

theorem toNat_lt_of_isWritten {c : Char} (h : IsWritten c) : c.toNat < 0x80 := by
  rcases h with rfl | rfl | h
  · decide
  · decide
  · exact Percent.toNat_lt_of_isPlain h

/-- A written character counts, and it ends neither a path nor an address. -/
theorem IsWritten.counts {c : Char} (h : IsWritten c) :
    Parts.isLeading c = false ∧ Parts.isIgnored c = false ∧ c ≠ '?' ∧ c ≠ '#' ∧ c ≠ '[' ∧ c ≠ ']' :=
  Percent.of_ascii (P := fun c => c = '%' ∨ c = ':' ∨ Percent.isPlain c = true →
      Parts.isLeading c = false ∧ Parts.isIgnored c = false ∧
        c ≠ '?' ∧ c ≠ '#' ∧ c ≠ '[' ∧ c ≠ ']')
    (by decide +kernel) (toNat_lt_of_isWritten h) h

theorem isWritten_of_mem_encode {cs : List Char} {c : Char} (h : c ∈ Percent.encode cs) :
    IsWritten c := by
  rcases Percent.isPlain_of_mem_encode h with hsign | hplain
  · exact Or.inl hsign
  · exact Or.inr (Or.inr hplain)

theorem isWritten_of_mem_encodePath {path : List Char} {c : Char} (h : c ∈ encodePath path) :
    IsWritten c := by
  rw [encodePath] at h
  split at h
  · rename_i letter rest hdrive
    obtain ⟨d, -, hd, rfl⟩ := drive?_eq_some_iff.mp hdrive
    rcases List.mem_cons.mp h with rfl | h
    · exact Or.inr (Or.inr (by decide))
    · rcases List.mem_cons.mp h with rfl | h
      · exact Or.inr (Or.inr (isPlain_of_isAlpha (isAlpha_toLower hd).1))
      · rcases List.mem_cons.mp h with rfl | h
        · exact Or.inr (Or.inl rfl)
        · exact isWritten_of_mem_encode h
  · exact isWritten_of_mem_encode h

/-! ## The parts of a written URI -/

/-- The URI of a path on a machine, as it is written. -/
def writtenFile (authority path : List Char) : List Char :=
  fileScheme ++ "://".toList ++ Percent.encode authority ++ encodePath path

theorem Parts.clean_of_isWritten {cs : List Char} (h : ∀ c ∈ cs, IsWritten c) :
    Parts.clean ('f' :: 'i' :: 'l' :: 'e' :: ':' :: '/' :: '/' :: cs)
      = 'f' :: 'i' :: 'l' :: 'e' :: ':' :: '/' :: '/' :: cs := by
  rw [Parts.clean, List.dropWhile_cons_of_neg (by decide)]
  refine List.filter_eq_self.mpr fun c hc => ?_
  simp only [List.mem_cons] at hc
  rcases hc with rfl | rfl | rfl | rfl | rfl | rfl | rfl | hc
  iterate 7 rfl
  simp [(h c hc).counts.2.1]

theorem Parts.splitScheme_file (rest : List Char) :
    Parts.splitScheme ('f' :: 'i' :: 'l' :: 'e' :: ':' :: rest) = (fileScheme, rest) := rfl

/-- An authority ends at the slash of a path. -/
theorem Parts.splitAuthority_written {authority path : List Char} (hslash : '/' ∉ authority)
    (hpath : path.head? = some '/') :
    Parts.splitAuthority ('/' :: '/' :: (Percent.encode authority ++ encodePath path))
      = (Percent.encode authority, encodePath path) := by
  have hinside : ∀ c ∈ Percent.encode authority, (!Parts.endsAuthority c) = true := by
    intro c hc
    have hcounts := (isWritten_of_mem_encode hc).counts
    have hne : c ≠ '/' := by
      rintro rfl
      exact hslash (Percent.slash_mem_of_mem_encode hc)
    simp [Parts.endsAuthority, hne, hcounts.2.2.1, hcounts.2.2.2.1]
  obtain ⟨rest, hrest⟩ := List.head?_eq_some_iff.mp (head?_encodePath hpath)
  rw [Parts.splitAuthority, List.takeWhile_append_of_pos hinside,
    List.dropWhile_append_of_pos hinside, hrest]
  simp [Parts.endsAuthority]

theorem Parts.withoutQuery_of_isWritten {cs : List Char} (h : ∀ c ∈ cs, IsWritten c) :
    Parts.withoutQuery cs = cs := by
  have hhash : cs.takeWhile (· != '#') = cs :=
    List.takeWhile_eq_self_iff.mpr fun c hc => by simp [(h c hc).counts]
  have hquery : cs.takeWhile (· != '?') = cs :=
    List.takeWhile_eq_self_iff.mpr fun c hc => by simp [(h c hc).counts]
  rw [Parts.withoutQuery, hhash, hquery]

/-- **A written URI has the parts it was written from.** -/
theorem ofUri_writtenFile {authority path : List Char} (hslash : '/' ∉ authority)
    (hpath : path.head? = some '/') :
    Parts.ofUri (writtenFile authority path)
      = .ok ⟨fileScheme, Percent.encode authority, encodePath path⟩ := by
  have hwritten : ∀ c ∈ Percent.encode authority ++ encodePath path, IsWritten c := by
    intro c hc
    rcases List.mem_append.mp hc with hc | hc
    · exact isWritten_of_mem_encode hc
    · exact isWritten_of_mem_encodePath hc
  have hspell : writtenFile authority path = 'f' :: 'i' :: 'l' :: 'e' :: ':' :: '/' :: '/'
      :: (Percent.encode authority ++ encodePath path) := by
    rw [writtenFile, List.append_assoc]
    rfl
  have hcheck : Authority.check (Percent.encode authority) = .ok () := by
    refine Authority.check_of_ascii (fun c hc => ?_) (fun hc => ?_) (fun hc => ?_)
    · exact toNat_lt_of_isWritten (isWritten_of_mem_encode hc)
    · exact (isWritten_of_mem_encode hc).counts.2.2.2.2.1 rfl
    · exact (isWritten_of_mem_encode hc).counts.2.2.2.2.2 rfl
  rw [Parts.ofUri, hspell, Parts.clean_of_isWritten hwritten, Parts.splitScheme_file]
  dsimp only
  rw [Parts.splitAuthority_written hslash hpath]
  dsimp only
  rw [hcheck, Parts.withoutQuery_of_isWritten fun c hc => isWritten_of_mem_encodePath hc]
  rfl

/-! ## The name of a written URI -/

/-- The path that the URI of a path on a machine is read as. -/
def readPath (authority path : List Char) : List Char :=
  if authority = [] then
    match drive? path with
    | some (letter, rest) => letter :: ':' :: rest
    | none => path
  else '/' :: '/' :: authority ++ lowerDrive path

theorem pathChars_writtenFile {authority path : List Char} (hpath : path.head? = some '/') :
    Parts.pathChars ⟨fileScheme, Percent.encode authority, encodePath path⟩
      = readPath authority path := by
  obtain ⟨rest, hrest⟩ := List.head?_eq_some_iff.mp (head?_lowerDrive hpath)
  have hne : lowerDrive path ≠ [] := by rw [hrest]; exact List.cons_ne_nil '/' rest
  simp only [Parts.pathChars, Percent.decode_encode, decode_encodePath, drive?_lowerDrive]
  rw [readPath]
  cases authority with
  | nil =>
    simp only [List.isEmpty_nil, Bool.not_true, Bool.false_and, Bool.false_eq_true, if_false,
      if_true]
    cases hd : drive? path with
    | none => simp [lowerDrive, hd]
    | some found => rfl
  | cons c cs => simp [hne]

/-- **The URI of a file names a path again.** -/
theorem filename?_writtenFile {authority path : List Char} (hslash : '/' ∉ authority)
    (hpath : path.head? = some '/') :
    filename? (String.ofList (writtenFile authority path))
      = .ok (some (String.ofList (readPath authority path))) := by
  rw [filename?, String.toList_ofList, ofUri_writtenFile hslash hpath]
  change Except.ok (if fileScheme = fileScheme then _ else _) = _
  rw [if_pos rfl, pathChars_writtenFile hpath]

/-! ## From a path to its URI and back -/

/-- **How a path is split**: behind two slashes stands an authority, and any other path is read from
the root. -/
theorem splitPath_cases {path authority rest : List Char}
    (h : splitPath path = .ok (authority, rest)) :
    '/' ∉ authority ∧ rest.head? = some '/' ∧
      (path = '/' :: '/' :: (authority ++ rest) ∨
        authority = [] ∧ rest = path ∨
        authority = [] ∧ rest = '/' :: path ∧ path.head? ≠ some '/') := by
  unfold splitPath at h
  split at h
  · rename_i cs
    split at h
    · cases h
    · rename_i hdrop
      obtain ⟨rfl, rfl⟩ := Prod.mk.inj (Except.ok.inj h)
      refine ⟨fun hmem => ?_, ?_, Or.inl ?_⟩
      · simpa using List.mem_takeWhile_imp hmem
      · have hhead := List.head?_dropWhile_not (· != '/') cs
        cases hrest : cs.dropWhile (· != '/') with
        | nil => exact absurd hrest hdrop
        | cons c rest => simpa [hrest] using hhead
      · rw [List.takeWhile_append_dropWhile]
  · obtain ⟨rfl, rfl⟩ := Prod.mk.inj (Except.ok.inj h)
    exact ⟨List.not_mem_nil, rfl, Or.inr (Or.inl ⟨rfl, rfl⟩)⟩
  · rename_i hslash
    obtain ⟨rfl, rfl⟩ := Prod.mk.inj (Except.ok.inj h)
    refine ⟨List.not_mem_nil, rfl, Or.inr (Or.inr ⟨rfl, rfl, fun hhead => ?_⟩)⟩
    obtain ⟨cs, rfl⟩ := List.head?_eq_some_iff.mp hhead
    exact hslash cs rfl

theorem splitPath_slash {cs : List Char} (h : cs.head? ≠ some '/') :
    splitPath ('/' :: cs) = .ok ([], '/' :: cs) := by
  cases cs with
  | nil => rfl
  | cons c cs =>
    have hc : c ≠ '/' := fun hc => h (congrArg some hc)
    simp [splitPath, hc]

theorem splitPath_relative {path : List Char} (h : path.head? ≠ some '/') :
    splitPath path = .ok ([], '/' :: path) := by
  cases path with
  | nil => rfl
  | cons c cs =>
    have hc : c ≠ '/' := fun hc => h (congrArg some hc)
    simp [splitPath, hc]

theorem forall_bne_slash {cs : List Char} (h : '/' ∉ cs) : ∀ c ∈ cs, (c != '/') = true := by
  intro c hc
  rw [bne_iff_ne]
  rintro rfl
  exact h hc

theorem splitPath_machine {machine : List Char} (h : '/' ∉ machine) (cs : List Char) :
    splitPath ('/' :: '/' :: (machine ++ '/' :: cs)) = .ok (machine, '/' :: cs) := by
  have hinside := forall_bne_slash h
  rw [splitPath, List.dropWhile_append_of_pos hinside, List.takeWhile_append_of_pos hinside]
  simp

/-- A machine with nothing on it is refused. -/
theorem splitPath_machine_ne_ok {machine : List Char} (h : '/' ∉ machine)
    (parts : List Char × List Char) : splitPath ('/' :: '/' :: machine) ≠ .ok parts := by
  rw [splitPath, List.dropWhile_eq_nil_iff.mpr (forall_bne_slash h)]
  exact nofun

/-- The URI of a path is written from its two parts. -/
theorem ofPath_eq_ok_iff {path : String} {uri : Uri} :
    ofPath path = .ok uri ↔ ∃ authority rest, splitPath path.toList = .ok (authority, rest) ∧
      uri = String.ofList (writtenFile authority rest) := by
  rw [ofPath, ofPathChars]
  cases hsplit : splitPath path.toList with
  | error fault => simp [bind, Except.bind, Except.map]
  | ok parts =>
    obtain ⟨authority, rest⟩ := parts
    constructor
    · intro h
      exact ⟨authority, rest, rfl, (Except.ok.inj h).symm⟩
    · rintro ⟨_, _, heq, rfl⟩
      obtain ⟨rfl, rfl⟩ := Prod.mk.inj (Except.ok.inj heq)
      rfl

/-! ## Unsaved buffers -/

/-- **A buffer is read as its percent-decoded name.** -/
theorem filename?_ofBuffer {name : String} (h : Resolver.isBuffer name = true) :
    filename? (ofBuffer name)
      = .ok (some (String.ofList (Percent.decode name.toList))) := by
  obtain ⟨rest, hrest⟩ := List.isPrefixOf_iff_prefix.mp h
  have hparts : ∃ path, Parts.ofUri (untitledScheme ++ ':' :: name.toList)
      = .ok ⟨untitledScheme, [], path⟩ := by
    rw [← hrest]
    exact ⟨_, rfl⟩
  obtain ⟨path, hpath⟩ := hparts
  rw [filename?, ofBuffer, String.toList_ofList, hpath]
  rfl

end Uri

/-! ## What files resolve to -/

/-- **Whatever a file resolves to has a name**, so that it can be analyzed. -/
theorem Resolver.exists_filename?_of_resolve {resolver : Resolver} {file : String} {uri : Uri}
    (h : resolver.resolve file = .ok uri) : ∃ name, Uri.filename? uri = .ok (some name) := by
  rw [resolve] at h
  split at h
  · rename_i hbuffer
    obtain rfl := Except.ok.inj h
    exact ⟨_, Uri.filename?_ofBuffer hbuffer⟩
  · obtain ⟨authority, rest, hsplit, rfl⟩ := Uri.ofPath_eq_ok_iff.mp h
    obtain ⟨hslash, hrest, -⟩ := Uri.splitPath_cases hsplit
    exact ⟨_, Uri.filename?_writtenFile hslash hrest⟩

end StagedDiagnostics
