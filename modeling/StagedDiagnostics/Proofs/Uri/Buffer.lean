import Mathlib.Data.List.Infix
import Mathlib.Data.Set.Function
import StagedDiagnostics.Proofs.Uri.File

/-!
# Proofs/Uri/Buffer — which names of buffers are read back

    name ──ofBuffer──▸ untitled:name ──filename?──▸ decode name

A buffer's URI holds the name as it is, and reading the URI decodes escapes.  Decoding leaves a text
alone exactly when no escape stands in it (`Percent.decode_eq_self_iff`): a byte adds at most one
character, and an escape spends three on its byte.  So the names without escapes are those that come
back, and they are told apart by what they are read as (`Resolver.filename?_resolve_buffer_iff`).
-/

namespace StagedDiagnostics

namespace Percent

/-! ## Escapes in a text -/

/-- An escape stands at the start of the text. -/
def startsEscape : List Char → Bool
  | '%' :: high :: low :: _ => (byte? high low).isSome
  | _ => false

/-- An escape stands somewhere in the text. -/
def HasEscape (cs : List Char) : Prop := ∃ tail ∈ cs.tails, startsEscape tail = true
  deriving Decidable

theorem not_hasEscape_nil : ¬ HasEscape [] := by decide

theorem hasEscape_cons {c : Char} {cs : List Char} :
    HasEscape (c :: cs) ↔ startsEscape (c :: cs) = true ∨ HasEscape cs := by
  rw [HasEscape, HasEscape, List.tails_cons]
  simp only [List.mem_cons, exists_eq_or_imp]

theorem HasEscape.of_cons {c : Char} {cs : List Char} (h : HasEscape (c :: cs))
    (hstart : startsEscape (c :: cs) = false) : HasEscape cs :=
  (hasEscape_cons.mp h).resolve_left (by rw [hstart]; exact Bool.false_ne_true)

/-- No escape starts at a character that is not the sign of one, or has no two others behind it. -/
theorem startsEscape_eq_false {c : Char} {cs : List Char}
    (h : ∀ high low tail, c = '%' → cs = high :: low :: tail → False) :
    startsEscape (c :: cs) = false := by
  unfold startsEscape
  split
  · rename_i high low tail heq
    obtain ⟨hsign, hcs⟩ := List.cons.inj heq
    exact (h high low tail hsign hcs).elim
  · rfl

/-! ## Texts without escapes -/

/-- Where no escape starts, a character is read as itself. -/
theorem decodeFrom_cons {c : Char} {cs : List Char} (h : startsEscape (c :: cs) = false) :
    decodeFrom none (c :: cs) = c :: decodeFrom none cs := by
  by_cases hsign : c = '%'
  · subst hsign
    match cs with
    | [] => rfl
    | [_] => rfl
    | high :: low :: cs =>
      rw [startsEscape, Option.isSome_eq_false_iff, Option.isNone_iff_eq_none] at h
      rw [decodeFrom, h]
      rfl
  · by_cases hascii : c.toNat < 0x80
    · exact decodeFrom_ascii hascii hsign cs
    · rw [decodeFrom, if_neg hascii]
      · rfl
      · exact fun _ _ _ hc _ => hsign hc

theorem decode_of_not_hasEscape {cs : List Char} (h : ¬ HasEscape cs) : decode cs = cs := by
  induction cs with
  | nil => rfl
  | cons c cs ih =>
    rw [hasEscape_cons, not_or, Bool.not_eq_true] at h
    rw [decode, decodeFrom_cons h.1]
    exact congrArg (c :: ·) (ih h.2)

/-! ## Texts with escapes -/

theorem length_decodeFrom_le (u : Option Utf8.Unfinished) (cs : List Char) :
    (decodeFrom u cs).length ≤ (Utf8.flush u).length + cs.length := by
  fun_induction decodeFrom u cs with
  | case1 u => exact Nat.le_refl _
  | case2 u high low cs b hb ih =>
    have hstep := Utf8.length_step_le u b
    simp only [List.length_append, List.length_cons]
    omega
  | case3 u high low cs hb ih =>
    have hstep := Utf8.length_step_le u 0x25
    simp only [List.length_append, List.length_cons] at ih ⊢
    omega
  | case4 u c cs hsign hascii b ih =>
    have hstep := Utf8.length_step_le u b
    simp only [List.length_append, List.length_cons]
    omega
  | case5 u c cs hsign hascii ih =>
    simp only [Utf8.flush, List.length_append, List.length_cons, List.length_nil] at ih ⊢
    omega

/-- **A text with an escape is read as a shorter one.** -/
theorem length_decodeFrom_lt {cs : List Char} (h : HasEscape cs) (u : Option Utf8.Unfinished) :
    (decodeFrom u cs).length < (Utf8.flush u).length + cs.length := by
  fun_induction decodeFrom u cs with
  | case1 u => exact absurd h not_hasEscape_nil
  | case2 u high low cs b hb ih =>
    -- the escape at the start is enough, whatever follows
    have hstep := Utf8.length_step_le u b
    have hrest := length_decodeFrom_le (Utf8.step u b).2 cs
    simp only [List.length_append, List.length_cons]
    omega
  | case3 u high low cs hb ih =>
    have hstep := Utf8.length_step_le u 0x25
    have hrest := ih (h.of_cons (by simp [startsEscape, hb]))
    simp only [List.length_append, List.length_cons] at hrest ⊢
    omega
  | case4 u c cs hsign hascii b ih =>
    have hstep := Utf8.length_step_le u b
    have hrest := ih (h.of_cons (startsEscape_eq_false hsign))
    simp only [List.length_append, List.length_cons]
    omega
  | case5 u c cs hsign hascii ih =>
    have hrest := ih (h.of_cons (startsEscape_eq_false hsign))
    simp only [Utf8.flush, List.length_append, List.length_cons, List.length_nil] at hrest ⊢
    omega

/-- **Decoding leaves a text alone exactly when no escape stands in it.** -/
theorem decode_eq_self_iff {cs : List Char} : decode cs = cs ↔ ¬ HasEscape cs := by
  constructor
  · intro heq h
    have hlt := length_decodeFrom_lt h none
    change (decode cs).length < 0 + cs.length at hlt
    rw [heq, Nat.zero_add] at hlt
    exact Nat.lt_irrefl _ hlt
  · exact decode_of_not_hasEscape

end Percent

/-! ## The names of buffers -/

namespace Resolver

theorem resolve_of_isBuffer (r : Resolver) {name : String} (h : isBuffer name = true) :
    r.resolve name = .ok (Uri.ofBuffer name) := if_pos h

theorem isBuffer_decode {name : String} (h : isBuffer name = true) :
    isBuffer (String.ofList (Percent.decode name.toList)) = true := by
  obtain ⟨rest, hrest⟩ := List.isPrefixOf_iff_prefix.mp h
  have hplain : Percent.encode bufferPrefix = bufferPrefix := by decide +kernel
  have hread := Percent.decodeFrom_encode bufferPrefix rest
  rw [hplain, hrest] at hread
  rw [isBuffer, String.toList_ofList, List.isPrefixOf_iff_prefix, Percent.decode, hread]
  exact List.prefix_append _ _

/-- **The names of buffers that come back.**  A buffer resolves to a document, and this is read as
the name of a buffer.  It is the name that was resolved exactly when no escape stands in it, and
another buffer is read as the same name exactly when both decode alike.  So the names without
escapes are told apart. -/
theorem filename?_resolve_buffer_iff (r : Resolver) :
    (∀ name, isBuffer name = true →
      ∃ uri read, r.resolve name = .ok uri ∧ Uri.filename? uri = .ok (some read) ∧
        isBuffer read = true ∧
        (read = name ↔ ¬ Percent.HasEscape name.toList) ∧
        ∀ other, isBuffer other = true →
          (Uri.filename? (Uri.ofBuffer other) = .ok (some read)
            ↔ Percent.decode other.toList = Percent.decode name.toList)) ∧
      Set.InjOn (fun name => (r.resolve name).bind Uri.filename?)
        {name | isBuffer name = true ∧ ¬ Percent.HasEscape name.toList} := by
  constructor
  · intro name h
    refine ⟨_, _, r.resolve_of_isBuffer h, Uri.filename?_ofBuffer h, isBuffer_decode h, ?_, ?_⟩
    · rw [← Percent.decode_eq_self_iff, ← String.toList_inj, String.toList_ofList]
    · intro other hother
      rw [Uri.filename?_ofBuffer hother, Except.ok.injEq, Option.some.injEq, String.ofList_inj]
  · have hread : ∀ name, isBuffer name = true ∧ ¬ Percent.HasEscape name.toList →
        (r.resolve name).bind Uri.filename? = .ok (some name) := by
      rintro name ⟨hbuffer, hescape⟩
      rw [r.resolve_of_isBuffer hbuffer, Except.bind, Uri.filename?_ofBuffer hbuffer,
        Percent.decode_of_not_hasEscape hescape, String.ofList_toList]
    intro name hname other hother heq
    dsimp only at heq
    rw [hread name hname, hread other hother] at heq
    exact Option.some.inj (Except.ok.inj heq)

/-- A name that holds most of what the reading of addresses treats specially, but no escape. -/
def crowdedName : String := "Untitled:// 100%[a]@b?c#d;e\t\n%5 é%%G0"

/-- The crowded name comes back, and of two buffers only the one that is named so is read so. -/
theorem filename?_resolve_buffer_iff_crowdedName :
    isBuffer crowdedName = true ∧ ¬ Percent.HasEscape crowdedName.toList ∧
      ∃ uri, Resolver.resolve ⟨"/w"⟩ crowdedName = .ok uri ∧
        Uri.filename? uri = .ok (some crowdedName) ∧
        Uri.filename? (Uri.ofBuffer "Untitled-1") ≠ .ok (some crowdedName) := by
  have hbuffer : isBuffer crowdedName = true := by decide +kernel
  have hescape : ¬ Percent.HasEscape crowdedName.toList := by decide +kernel
  obtain ⟨uri, read, hresolve, hread, -, hself, hother⟩ :=
    (filename?_resolve_buffer_iff ⟨"/w"⟩).1 crowdedName hbuffer
  obtain rfl := hself.mpr hescape
  refine ⟨hbuffer, hescape, uri, hresolve, hread, fun heq => ?_⟩
  exact absurd ((hother "Untitled-1" (by decide +kernel)).mp heq) (by decide +kernel)

/-- A name with an escape in it is read as the name of another buffer, which is read so too. -/
theorem filename?_ofBuffer_escapedDigit :
    isBuffer "Untitled-%31" = true ∧ isBuffer "Untitled-1" = true ∧
      Uri.filename? (Uri.ofBuffer "Untitled-%31") = .ok (some "Untitled-1") ∧
      Uri.filename? (Uri.ofBuffer "Untitled-1") = .ok (some "Untitled-1") := by
  decide +kernel

end Resolver

end StagedDiagnostics
