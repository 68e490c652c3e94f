import StagedDiagnostics.Path

/-!
# Proofs/Path/Normal — the shape of normal paths

    path ──cut──▸ parts ──walk──▸ steps up, then names ──join──▸ normal path

Walking along a path leaves steps up below names, and no steps up under a root (`isTrail_walk`).  So
a path from a root is normal if it is made of names alone (`normalize_ofParts`,
`normalize_ofMachine`), and the normal form of a path from a root is always of that kind
(`normalize_of_leadingSlashes_pos`), so it is its own normal form (`normalize_normalize`).
-/

namespace StagedDiagnostics

/-! ## Cutting what was joined -/

namespace Split

variable {sep : Char}

theorem cut_append_sep (xs ys : List Char) :
    cut sep (xs ++ sep :: ys) = cut sep xs ++ cut sep ys := by
  induction xs with
  | nil => simp [cut]
  | cons c cs ih =>
    rw [List.cons_append, cut, cut, ih]
    by_cases h : c = sep
    · rw [if_pos h, if_pos h, List.cons_append]
    · rw [if_neg h, if_neg h]
      obtain ⟨l, ls, hcut⟩ := List.exists_cons_of_ne_nil (cut_ne_nil sep cs)
      rw [hcut]
      rfl

theorem cut_of_not_mem {cs : List Char} (h : sep ∉ cs) : cut sep cs = [cs] := by
  induction cs with
  | nil => rfl
  | cons c cs ih =>
    rw [List.mem_cons, not_or] at h
    rw [cut, if_neg (Ne.symm h.1), ih h.2]
    rfl

theorem not_mem_of_mem_cut {cs l : List Char} (h : l ∈ cut sep cs) : sep ∉ l := by
  induction cs generalizing l with
  | nil =>
    obtain rfl := List.mem_singleton.mp h
    exact List.not_mem_nil
  | cons c cs ih =>
    rw [cut] at h
    split at h
    · rcases List.mem_cons.mp h with rfl | h
      · exact List.not_mem_nil
      · exact ih h
    · rename_i hc
      obtain ⟨m, ms, hcut⟩ := List.exists_cons_of_ne_nil (cut_ne_nil sep cs)
      rw [hcut, addFront, List.mem_cons] at h
      rcases h with rfl | h
      · rw [List.mem_cons, not_or]
        exact ⟨Ne.symm hc, ih (hcut ▸ List.mem_cons_self)⟩
      · exact ih (hcut ▸ List.mem_cons_of_mem m h)

theorem join_cons_of_ne_nil (l : List Char) {ls : List (List Char)} (h : ls ≠ []) :
    join sep (l :: ls) = l ++ sep :: join sep ls := by
  obtain ⟨m, ms, rfl⟩ := List.exists_cons_of_ne_nil h
  rfl

/-- **Cutting undoes joining** where no piece holds the separator. -/
theorem cut_join {ls : List (List Char)} (hne : ls ≠ []) (h : ∀ l ∈ ls, sep ∉ l) :
    cut sep (join sep ls) = ls := by
  induction ls with
  | nil => exact absurd rfl hne
  | cons l ls ih =>
    obtain ⟨hl, hls⟩ := List.forall_mem_cons.mp h
    cases ls with
    | nil => exact cut_of_not_mem hl
    | cons m ms =>
      rw [join_cons_of_ne_nil l (List.cons_ne_nil m ms), cut_append_sep, cut_of_not_mem hl,
        ih (List.cons_ne_nil m ms) hls]
      rfl

end Split

namespace Path

/-! ## Names -/

/-- A part of a path that leads somewhere else than up. -/
structure IsName (part : List Char) : Prop where
  ne_nil : part ≠ []
  ne_here : part ≠ here
  ne_up : part ≠ up
  not_slash : '/' ∉ part

/-- The path from the root along some parts. -/
def ofParts (parts : List (List Char)) : List Char := '/' :: Split.join '/' parts

@[simp] theorem ofParts_cut (path : List Char) : ofParts (Split.cut '/' path) = '/' :: path := by
  rw [ofParts, Split.join_cut]

/-- The path from a machine along some parts. -/
def ofMachine (machine : List Char) (parts : List (List Char)) : List Char :=
  '/' :: '/' :: (machine ++ ofParts parts)

variable {part : List Char} {parts trail : List (List Char)} {rooted : Bool}

@[simp] theorem walk_nil (rooted : Bool) (trail : List (List Char)) :
    walk rooted trail [] = trail := if_pos (Or.inl rfl)

theorem IsName.walk_eq (h : IsName part) (rooted : Bool) (trail : List (List Char)) :
    walk rooted trail part = part :: trail := by
  unfold walk
  rw [if_neg (not_or.mpr ⟨h.ne_nil, h.ne_here⟩), if_neg h.ne_up]

/-- Names are gone along one after another. -/
theorem foldl_walk_of_isName (h : ∀ part ∈ parts, IsName part) (rooted : Bool)
    (trail : List (List Char)) : parts.foldl (walk rooted) trail = parts.reverse ++ trail := by
  induction parts generalizing trail with
  | nil => rfl
  | cons part parts ih =>
    obtain ⟨hpart, hparts⟩ := List.forall_mem_cons.mp h
    rw [List.foldl_cons, hpart.walk_eq, ih hparts, List.reverse_cons, List.append_assoc]
    rfl

/-! ## What walking leaves -/

/-- Names above steps up, of which there are none under a root. -/
def IsTrail (rooted : Bool) (trail : List (List Char)) : Prop :=
  ∃ names n, trail = names ++ List.replicate n up ∧ (∀ part ∈ names, IsName part) ∧
    (rooted = true → n = 0)

/-- **One step keeps names above steps up.** -/
theorem isTrail_walk (h : IsTrail rooted trail) (hpart : '/' ∉ part) :
    IsTrail rooted (walk rooted trail part) := by
  obtain ⟨names, n, rfl, hnames, hn⟩ := h
  unfold walk
  split
  · exact ⟨names, n, rfl, hnames, hn⟩
  · rename_i hsomewhere
    rw [not_or] at hsomewhere
    split
    · cases names with
      | cons name names =>
        obtain ⟨hname, hnames⟩ := List.forall_mem_cons.mp hnames
        simp only [List.cons_append, if_neg hname.ne_up]
        exact ⟨names, n, rfl, hnames, hn⟩
      | nil =>
        cases n with
        | zero =>
          cases rooted with
          | true => exact ⟨[], 0, rfl, hnames, fun _ => rfl⟩
          | false => exact ⟨[], 1, rfl, hnames, nofun⟩
        | succ n =>
          simp only [List.nil_append, List.replicate_succ, if_pos]
          refine ⟨[], n + 2, rfl, hnames, fun hrooted => ?_⟩
          exact absurd (hn hrooted) (Nat.succ_ne_zero n)
    · rename_i hup
      have hname : IsName part := ⟨hsomewhere.1, hsomewhere.2, hup, hpart⟩
      exact ⟨part :: names, n, rfl, List.forall_mem_cons.mpr ⟨hname, hnames⟩, hn⟩

theorem isTrail_foldl_walk (h : IsTrail rooted trail) (hparts : ∀ part ∈ parts, '/' ∉ part) :
    IsTrail rooted (parts.foldl (walk rooted) trail) := by
  induction parts generalizing trail with
  | nil => exact h
  | cons part parts ih =>
    obtain ⟨hpart, hparts⟩ := List.forall_mem_cons.mp hparts
    exact ih (isTrail_walk h hpart) hparts

/-- **Normal parts are steps up and then names**, and names alone under a root. -/
theorem exists_normalParts_eq (path : List Char) :
    ∃ n names, normalParts path = List.replicate n up ++ names ∧ (∀ part ∈ names, IsName part) ∧
      (0 < leadingSlashes path → n = 0) := by
  have hstart : IsTrail (0 < leadingSlashes path) [] :=
    ⟨[], 0, rfl, fun _ h => absurd h List.not_mem_nil, fun _ => rfl⟩
  have hcut : ∀ part ∈ Split.cut '/' path, '/' ∉ part :=
    fun part hpart => Split.not_mem_of_mem_cut hpart
  obtain ⟨names, n, heq, hnames, hn⟩ := isTrail_foldl_walk hstart hcut
  refine ⟨n, names.reverse, ?_, fun part h => hnames part (List.mem_reverse.mp h), ?_⟩
  · rw [normalParts, heq, List.reverse_append, List.reverse_replicate]
  · exact fun h => hn (decide_eq_true h)

theorem isName_of_mem_normalParts {path : List Char} (h : 0 < leadingSlashes path)
    (hpart : part ∈ normalParts path) : IsName part := by
  obtain ⟨n, names, heq, hnames, hn⟩ := exists_normalParts_eq path
  rw [heq, hn h] at hpart
  exact hnames part hpart

/-! ## The slashes at the front -/

theorem leadingSlashes_eq_zero_iff {path : List Char} :
    leadingSlashes path = 0 ↔ path.head? ≠ some '/' := by
  unfold leadingSlashes
  split <;> simp_all [List.head?_eq_some_iff]

theorem leadingSlashes_slash {path : List Char} (h : path.head? ≠ some '/') :
    leadingSlashes ('/' :: path) = 1 := by
  cases path with
  | nil => rfl
  | cons c cs =>
    have hc : c ≠ '/' := fun hc => h (congrArg some hc)
    simp [leadingSlashes, hc]

theorem leadingSlashes_slash_slash {path : List Char} (h : path.head? ≠ some '/') :
    leadingSlashes ('/' :: '/' :: path) = 2 := by
  cases path with
  | nil => rfl
  | cons c cs =>
    have hc : c ≠ '/' := fun hc => h (congrArg some hc)
    simp [leadingSlashes, hc]

/-- Only the first three characters count. -/
theorem leadingSlashes_congr (a b c : Char) (cs ds : List Char) :
    leadingSlashes (a :: b :: c :: cs) = leadingSlashes (a :: b :: c :: ds) := by
  by_cases ha : a = '/' <;> by_cases hb : b = '/' <;> by_cases hc : c = '/' <;>
    simp [leadingSlashes, ha, hb, hc]

theorem leadingSlashes_le_two (path : List Char) : leadingSlashes path ≤ 2 := by
  unfold leadingSlashes
  split <;> decide

theorem head?_join_cons (c : Char) (cs : List Char) (parts : List (List Char)) :
    (Split.join '/' ((c :: cs) :: parts)).head? = some c := by
  cases parts <;> rfl

/-- Parts that are there and hold no slash start with something else. -/
theorem head?_join_ne (h : ∀ part ∈ parts, part ≠ [] ∧ '/' ∉ part) :
    (Split.join '/' parts).head? ≠ some '/' := by
  cases parts with
  | nil => simp [Split.join]
  | cons part parts =>
    obtain ⟨⟨hne, hslash⟩, -⟩ := List.forall_mem_cons.mp h
    obtain ⟨c, cs, rfl⟩ := List.exists_cons_of_ne_nil hne
    rw [head?_join_cons]
    intro hc
    exact hslash (Option.some.inj hc ▸ List.mem_cons_self)

theorem head?_join_ne_of_isName (h : ∀ part ∈ parts, IsName part) :
    (Split.join '/' parts).head? ≠ some '/' :=
  head?_join_ne fun part hpart => ⟨(h part hpart).ne_nil, (h part hpart).not_slash⟩

/-! ## Normal paths -/

theorem cut_slash (path : List Char) :
    Split.cut '/' ('/' :: path) = [] :: Split.cut '/' path := by
  rw [Split.cut, if_pos rfl]

/-- A path of names is gone along name by name; without any it leads nowhere else. -/
theorem foldl_walk_cut_join (h : ∀ part ∈ parts, IsName part) (rooted : Bool)
    (trail : List (List Char)) :
    (Split.cut '/' (Split.join '/' parts)).foldl (walk rooted) trail = parts.reverse ++ trail := by
  by_cases hne : parts = []
  · subst hne
    exact walk_nil rooted trail
  · rw [Split.cut_join hne fun part hpart => (h part hpart).not_slash,
      foldl_walk_of_isName h]

theorem normalParts_ofParts (h : ∀ part ∈ parts, IsName part) :
    normalParts (ofParts parts) = parts := by
  rw [normalParts, ofParts, cut_slash, List.foldl_cons, walk_nil, foldl_walk_cut_join h,
    List.append_nil, List.reverse_reverse]

theorem ofMachine_eq (machine : List Char) (hne : parts ≠ []) :
    ofMachine machine parts = '/' :: ofParts (machine :: parts) := by
  rw [ofParts, Split.join_cons_of_ne_nil machine hne]
  rfl

theorem normalize_of_leadingSlashes_pos {path : List Char} (h : 0 < leadingSlashes path) :
    normalize path
      = List.replicate (leadingSlashes path) '/' ++ Split.join '/' (normalParts path) := by
  obtain ⟨n, hn⟩ := Nat.exists_eq_add_of_lt h
  rw [normalize, withParts, hn]
  rfl

theorem normalize_of_leadingSlashes_eq_zero {path : List Char} (h : leadingSlashes path = 0) :
    normalize path = if Split.join '/' (normalParts path) = [] then here
      else Split.join '/' (normalParts path) := by
  rw [normalize, withParts, h, List.replicate_zero, List.nil_append]
  split
  · rename_i hnil
    rw [if_pos hnil]
  · rename_i hne
    rw [if_neg hne]

/-- **A path of names is normal**, from the root … -/
theorem normalize_ofParts (h : ∀ part ∈ parts, IsName part) :
    normalize (ofParts parts) = ofParts parts := by
  have hone : leadingSlashes (ofParts parts) = 1 :=
    leadingSlashes_slash (head?_join_ne_of_isName h)
  rw [normalize_of_leadingSlashes_pos (by omega), hone, normalParts_ofParts h]
  rfl

/-- … or with two slashes in front … -/
theorem normalize_slash_ofParts (h : ∀ part ∈ parts, IsName part) :
    normalize ('/' :: ofParts parts) = '/' :: ofParts parts := by
  have htwo : leadingSlashes ('/' :: ofParts parts) = 2 :=
    leadingSlashes_slash_slash (head?_join_ne_of_isName h)
  have hparts : normalParts ('/' :: ofParts parts) = parts := by
    rw [normalParts, htwo, cut_slash, List.foldl_cons, walk_nil, ofParts, cut_slash,
      List.foldl_cons, walk_nil, foldl_walk_cut_join h, List.append_nil, List.reverse_reverse]
  rw [normalize_of_leadingSlashes_pos (by omega), htwo, hparts]
  rfl

/-- … and so from a machine. -/
theorem normalize_ofMachine {machine : List Char} (hmachine : IsName machine)
    (h : ∀ part ∈ parts, IsName part) (hne : parts ≠ []) :
    normalize (ofMachine machine parts) = ofMachine machine parts := by
  rw [ofMachine_eq machine hne]
  exact normalize_slash_ofParts (List.forall_mem_cons.mpr ⟨hmachine, h⟩)

/-- **A normal form starts with a slash if the path does**, and is then made of names. -/
theorem normalize_cases (path : List Char) :
    (leadingSlashes path = 0 ∧ (normalize path).head? ≠ some '/') ∨
      (leadingSlashes path = 1 ∧ normalize path = ofParts (normalParts path)) ∨
      (leadingSlashes path = 2 ∧ normalize path = '/' :: ofParts (normalParts path)) := by
  have hle := leadingSlashes_le_two path
  rcases Nat.lt_or_ge 0 (leadingSlashes path) with hpos | hzero
  · have hform := normalize_of_leadingSlashes_pos hpos
    rcases Nat.lt_or_ge 1 (leadingSlashes path) with htwo | hone
    · have heq : leadingSlashes path = 2 := by omega
      exact Or.inr (Or.inr ⟨heq, by rw [hform, heq]; rfl⟩)
    · have heq : leadingSlashes path = 1 := by omega
      exact Or.inr (Or.inl ⟨heq, by rw [hform, heq]; rfl⟩)
  · have heq : leadingSlashes path = 0 := by omega
    refine Or.inl ⟨heq, ?_⟩
    obtain ⟨n, names, hparts, hnames, -⟩ := exists_normalParts_eq path
    have hall : ∀ part ∈ normalParts path, part ≠ [] ∧ '/' ∉ part := by
      intro part hpart
      rw [hparts, List.mem_append] at hpart
      rcases hpart with hpart | hpart
      · rw [List.eq_of_mem_replicate hpart]
        decide
      · exact ⟨(hnames part hpart).ne_nil, (hnames part hpart).not_slash⟩
    rw [normalize_of_leadingSlashes_eq_zero heq]
    split
    · decide
    · exact head?_join_ne hall

/-- **The normal form of a path from the root is normal.** -/
theorem normalize_normalize {path : List Char} (h : 0 < leadingSlashes path) :
    normalize (normalize path) = normalize path := by
  have hnames : ∀ part ∈ normalParts path, IsName part :=
    fun part hpart => isName_of_mem_normalParts h hpart
  rcases normalize_cases path with ⟨hzero, -⟩ | ⟨-, heq⟩ | ⟨-, heq⟩
  · omega
  · rw [heq, normalize_ofParts hnames]
  · rw [heq, normalize_slash_ofParts hnames]

/-! ## Relative paths -/

theorem under_of_head?_eq {path : List Char} (h : path.head? = some '/') (root : List Char) :
    under root path = path := by
  obtain ⟨cs, rfl⟩ := List.head?_eq_some_iff.mp h
  rfl

/-- A relative path is put behind its root, with a slash between them unless there is one. -/
theorem under_cases {path : List Char} (h : path.head? ≠ some '/') (root : List Char) :
    (root = [] ∧ under root path = path) ∨
      (∃ init, root = init ++ ['/'] ∧ under root path = init ++ '/' :: path) ∨
      (root ≠ [] ∧ root.getLast? ≠ some '/' ∧ under root path = root ++ '/' :: path) := by
  have hrelative : isAbsolute path = false := by
    cases path with
    | nil => rfl
    | cons c cs =>
      have hc : c ≠ '/' := fun hc => h (congrArg some hc)
      simp [isAbsolute, hc]
  rw [under, hrelative, if_neg Bool.false_ne_true]
  by_cases hnil : root = []
  · exact Or.inl ⟨hnil, by rw [if_pos (Or.inl hnil), hnil]; rfl⟩
  · by_cases hlast : root.getLast? = some '/'
    · obtain ⟨init, rfl⟩ := List.getLast?_eq_some_iff.mp hlast
      refine Or.inr (Or.inl ⟨init, rfl, ?_⟩)
      rw [if_pos (Or.inr hlast), List.append_assoc]
      rfl
    · exact Or.inr (Or.inr ⟨hnil, hlast, if_neg (not_or.mpr ⟨hnil, hlast⟩)⟩)

/-- A relative path is gone along from where its root leads. -/
theorem foldl_walk_cut_under {path : List Char} (h : path.head? ≠ some '/') (root : List Char)
    (rooted : Bool) :
    (Split.cut '/' (under root path)).foldl (walk rooted) []
      = (Split.cut '/' path).foldl (walk rooted)
          ((Split.cut '/' root).foldl (walk rooted) []) := by
  rcases under_cases h root with ⟨rfl, heq⟩ | ⟨init, rfl, heq⟩ | ⟨-, -, heq⟩
  · rw [heq]
    rfl
  · rw [heq, Split.cut_append_sep, Split.cut_append_sep, List.foldl_append, List.foldl_append]
    rfl
  · rw [heq, Split.cut_append_sep, List.foldl_append]

theorem leadingSlashes_under {path : List Char} (h : path.head? ≠ some '/') (root : List Char) :
    leadingSlashes (under root path) = leadingSlashes root := by
  rcases under_cases h root with ⟨rfl, heq⟩ | ⟨init, rfl, heq⟩ | ⟨hne, hlast, heq⟩
  · rw [heq]
    exact leadingSlashes_eq_zero_iff.mpr h
  · rw [heq]
    match init with
    | [] => exact leadingSlashes_slash h
    | [a] =>
      by_cases ha : a = '/'
      · subst ha
        exact leadingSlashes_slash_slash h
      · simp [leadingSlashes, ha]
    | a :: b :: cs => cases cs <;> exact leadingSlashes_congr a b _ _ _
  · rw [heq]
    match root with
    | [] => exact absurd rfl hne
    | [a] =>
      have ha : a ≠ '/' := fun ha => hlast (congrArg some ha)
      simp [leadingSlashes, ha]
    | [a, b] =>
      have hb : b ≠ '/' := fun hb => hlast (congrArg some hb)
      by_cases ha : a = '/' <;> simp [leadingSlashes, ha, hb]
    | a :: b :: c :: cs => exact leadingSlashes_congr a b c _ _

theorem isAbsolute_iff {path : List Char} : isAbsolute path = true ↔ path.head? = some '/' := by
  unfold isAbsolute
  split <;> simp_all [List.head?_eq_some_iff]

/-- Whatever is read from an absolute root starts with a slash. -/
theorem leadingSlashes_under_pos {root : List Char} (h : isAbsolute root = true)
    (path : List Char) : 0 < leadingSlashes (under root path) := by
  refine Nat.pos_of_ne_zero fun hzero => ?_
  by_cases hpath : path.head? = some '/'
  · rw [under_of_head?_eq hpath] at hzero
    exact leadingSlashes_eq_zero_iff.mp hzero hpath
  · rw [leadingSlashes_under hpath] at hzero
    exact leadingSlashes_eq_zero_iff.mp hzero (isAbsolute_iff.mp h)

/-- A path that is cut into names is relative. -/
theorem head?_ne_of_isName_cut {path : List Char}
    (h : ∀ part ∈ Split.cut '/' path, IsName part) : path.head? ≠ some '/' := by
  intro hhead
  obtain ⟨cs, rfl⟩ := List.head?_eq_some_iff.mp hhead
  rw [cut_slash] at h
  exact (h [] List.mem_cons_self).ne_nil rfl

/-- **Names read from a root stand behind the parts of the root.** -/
theorem normalParts_under {path : List Char} (h : ∀ part ∈ Split.cut '/' path, IsName part)
    (root : List Char) :
    normalParts (under root path) = normalParts root ++ Split.cut '/' path := by
  have hrelative := head?_ne_of_isName_cut h
  rw [normalParts, leadingSlashes_under hrelative, foldl_walk_cut_under hrelative,
    foldl_walk_of_isName h, List.reverse_append, List.reverse_reverse, normalParts]

end Path

end StagedDiagnostics
