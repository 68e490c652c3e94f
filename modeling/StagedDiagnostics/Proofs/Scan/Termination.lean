import Mathlib.Computability.StateTransition
import StagedDiagnostics.Proofs.Scan.Relocation

/-!
# Proofs/Scan/Termination — a scan ends where its text does

    found ++ toCome        one list of findings, from the start of a walk to its end

A walk and the scanner go through a text side by side.  At the head of a loop the scanner is in
the mode of that loop, and what the walk has found, together with what the scanner still finds from
there on, is what becomes of the whole text (`Walk.Follows`).  Every turn keeps this up, and so the
walk never looks up an offset without a byte (`Walk.Sound.of_step`).

Where a backslash is the last byte of a string left open, the two part for a moment: the walk passes
two bytes and is behind its buffer, the scanner is at the end.  What is still to come is counted
from the end, so they meet again when the walk gives the string up (`Walk.toCome_backslash`).

That a walk stops needs none of this; its clock is enough (`Walk.run_mem_eval`).
-/

namespace StagedDiagnostics.Walk

open Finding StateTransition

variable {code : Array UInt8} {w w' : Walk} {m : Mode} {n first : ℕ} {g : Glyph} {d : Delimiter}
  {stack : Stack}

/-! ## What is still to be found -/

/-- The glyphs from an offset on. -/
def ahead (code : Array UInt8) (n : ℕ) : List Glyph := (code.toList.drop n).map Glyph.ofByte

theorem ahead_of_le (h : code.size ≤ n) : ahead code n = [] := by
  rw [ahead, List.drop_eq_nil_of_le h, List.map_nil]

theorem lt_size_of_glyph (hg : code[n]?.map Glyph.ofByte = some g) : n < code.size := by
  obtain ⟨b, hb, -⟩ := Option.map_eq_some_iff.mp hg
  exact (Array.getElem?_eq_some_iff.mp hb).1

theorem ahead_eq_cons (hg : code[n]?.map Glyph.ofByte = some g) :
    ahead code n = g :: ahead code (n + 1) := by
  obtain ⟨b, hb, rfl⟩ := Option.map_eq_some_iff.mp hg
  obtain ⟨h, rfl⟩ := Array.getElem?_eq_some_iff.mp hb
  rw [ahead, List.drop_eq_getElem_cons h, List.map_cons, Array.getElem_toList, ahead]

/-- What a scanner in a mode finds from an offset on, with some brackets open.  An offset behind the
buffer counts as its end. -/
def toCome (code : Array UInt8) (m : Mode) (n : ℕ) (stack : Stack) : List Finding :=
  ofTokensFrom stack (Scanner.tokensToEnd ⟨m, min n code.size⟩ (ahead code n))

theorem toCome_eq (hg : code[n]?.map Glyph.ofByte = some g) :
    toCome code m n stack
      = ofTokensFrom stack ((Scanner.emits ⟨m, n⟩ g).toList
        ++ Scanner.tokensToEnd ⟨Scanner.nextMode ⟨m, n⟩ g, min (n + 1) code.size⟩
          (ahead code (n + 1))) := by
  have hlt := lt_size_of_glyph hg
  rw [toCome, ahead_eq_cons hg, Nat.min_eq_left hlt.le, Scanner.tokensToEnd_cons,
    Nat.min_eq_left hlt, Scanner.next]

/-- **A glyph without a token changes nothing** but the mode. -/
theorem toCome_of_emits (hg : code[n]?.map Glyph.ofByte = some g)
    (hemits : Scanner.emits ⟨m, n⟩ g = none) :
    toCome code m n stack = toCome code (Scanner.nextMode ⟨m, n⟩ g) (n + 1) stack := by
  rw [toCome_eq hg, hemits]
  rfl

/-- A glyph that two modes take alike may wait for either. -/
theorem toCome_congr {m' : Mode} (hg : code[n]?.map Glyph.ofByte = some g)
    (hemits : Scanner.emits ⟨m, n⟩ g = none) (hemits' : Scanner.emits ⟨m', n⟩ g = none)
    (hmode : Scanner.nextMode ⟨m, n⟩ g = Scanner.nextMode ⟨m', n⟩ g) :
    toCome code m n stack = toCome code m' n stack := by
  rw [toCome_of_emits hg hemits, hmode, ← toCome_of_emits hg hemits']

theorem toCome_opening (hg : code[n]?.map Glyph.ofByte = some (.opening d)) :
    toCome code .code n stack = toCome code .code (n + 1) ((d, n) :: stack) := by
  rw [toCome_eq hg]
  cases stack <;> rfl

theorem toCome_unexpected (hg : code[n]?.map Glyph.ofByte = some (.closing d)) :
    toCome code .code n [] = .unexpected d n :: toCome code .code (n + 1) [] := by
  rw [toCome_eq hg]
  rfl

theorem toCome_close (hg : code[n]?.map Glyph.ofByte = some (.closing d)) (o : Delimiter × ℕ) :
    toCome code .code n (o :: stack) = Finding.close o d n :: toCome code .code (n + 1) stack := by
  rw [toCome_eq hg]
  rfl

/-- A newline belongs to the code behind it. -/
theorem toCome_newline (hg : code[n]?.map Glyph.ofByte = some .newline) :
    toCome code (.string first) n stack
      = .unterminated first (n - 1) :: toCome code .code n stack := by
  rw [toCome_of_emits (m := .code) hg rfl, toCome_eq hg]
  exact ofTokensFrom_unterminated _ _ _ _

/-- A backslash takes along the byte behind it, if there is one. -/
theorem toCome_backslash (hg : code[n]?.map Glyph.ofByte = some .backslash) :
    toCome code (.string first) n stack = toCome code (.string first) (n + 2) stack := by
  have hlt := lt_size_of_glyph hg
  refine (toCome_of_emits hg rfl).trans ?_
  rcases Nat.lt_or_ge (n + 1) code.size with h | h
  · have hnext : code[n + 1]?.map Glyph.ofByte = some (Glyph.ofByte code[n + 1]) := by
      rw [Array.getElem?_eq_getElem h, Option.map_some]
    exact toCome_of_emits hnext rfl
  · rw [toCome, toCome, ahead_of_le h, ahead_of_le (Nat.le_succ_of_le h), Nat.min_eq_right h,
      Nat.min_eq_right (Nat.le_succ_of_le h)]
    rfl

theorem toCome_code_of_le (h : code.size ≤ n) :
    toCome code .code n stack = stack.map fun o => .unclosed o.1 o.2 := by
  rw [toCome, ahead_of_le h]
  cases stack <;> rfl

theorem toCome_comment_of_le (h : code.size ≤ n) :
    toCome code .comment n stack = toCome code .code n stack := by
  rw [toCome, toCome, ahead_of_le h]
  rfl

theorem toCome_string_of_le (h : code.size ≤ n) :
    toCome code (.string first) n stack
      = .unterminated first (code.size - 1) :: toCome code .code code.size stack := by
  rw [toCome, toCome, ahead_of_le h, ahead_of_le le_rfl, Nat.min_eq_right h]
  exact ofTokensFrom_unterminated _ _ _ _

/-! ## A walk beside the scanner -/

/-- A walk at an offset where the scanner is in a mode: the offsets it keeps are those of the open
brackets, and what it has found and what is still to come are what becomes of the whole text. -/
structure Follows (code : Array UInt8) (w : Walk) (m : Mode) (stack : Stack) : Prop where
  opened : w.opened = stack.map Prod.snd
  openers : ∀ o ∈ stack, code[o.2]?.map Glyph.ofByte = some (.opening o.1)
  found : w.found ++ toCome code m w.offset stack = toCome code .code 0 []

/-- A walk at the head of a loop, in a string one byte behind the buffer at most and else inside it;
or a walk that has finished at its end. -/
inductive Sound (code : Array UInt8) (w : Walk) : Prop
  | code (hcode : w.loop = .code) (hle : w.offset ≤ code.size) {stack : Stack}
      (h : Follows code w .code stack)
  | comment (hcomment : w.loop = .comment) (hle : w.offset ≤ code.size) {stack : Stack}
      (h : Follows code w .comment stack)
  | string {first : ℕ} (hstring : w.loop = .string first) (hfirst : first < min w.offset code.size)
      (hle : w.offset ≤ code.size + 1) {stack : Stack} (h : Follows code w (.string first) stack)
  | finished (hfinished : w.loop = .finished) (hoffset : w.offset = code.size)
      (hopened : w.opened = []) (hfound : w.found = toCome code .code 0 [])

theorem sound_start (code : Array UInt8) : Sound code start := by
  have hfollows : Follows code start .code [] := ⟨rfl, List.forall_mem_nil _, rfl⟩
  exact .code rfl (Nat.zero_le _) hfollows

namespace Follows

variable {m' : Mode} {stack' : Stack} {f : Finding}

/-- A turn without a finding. -/
theorem of_toCome_eq (h : Follows code w m stack) (hopened : w'.opened = w.opened)
    (hfound : w'.found = w.found)
    (hcome : toCome code m w.offset stack = toCome code m' w'.offset stack) :
    Follows code w' m' stack :=
  ⟨hopened.trans h.opened, h.openers, by rw [hfound, ← hcome, h.found]⟩

/-- A turn with a finding, which may take an open bracket. -/
theorem of_toCome_eq_cons (h : Follows code w m stack) (hstack : stack'.Sublist stack)
    (hopened : w'.opened = stack'.map Prod.snd) (hfound : w'.found = w.found ++ [f])
    (hcome : toCome code m w.offset stack = f :: toCome code m' w'.offset stack') :
    Follows code w' m' stack' where
  opened := hopened
  openers o ho := h.openers o (hstack.subset ho)
  found := by rw [hfound, List.append_assoc, List.singleton_append, ← hcome, h.found]

/-- A turn that opens a bracket. -/
theorem push (h : Follows code w .code stack)
    (hg : code[w.offset]?.map Glyph.ofByte = some (.opening d)) :
    Follows code (w.inCode code (.opening d)) .code ((d, w.offset) :: stack) := by
  refine ⟨congrArg _ h.opened, List.forall_mem_cons.mpr ⟨hg, h.openers⟩, ?_⟩
  rw [← h.found, toCome_opening hg]
  rfl

theorem lt_size_of_mem_opened (h : Follows code w m stack) : ∀ o ∈ w.opened, o < code.size := by
  rw [h.opened]
  exact List.forall_mem_map.mpr fun o ho => lt_size_of_glyph (h.openers o ho)

end Follows

theorem lookUpOpener_eq (hg : code[n]?.map Glyph.ofByte = some (.opening d))
    (next : Delimiter → Walk) : w.lookUpOpener code n next = next d :=
  lookUp_eq hg _

/-- **A closer finds the bracket it takes.** -/
theorem sound_close (hcode : w.loop = .code) (h : Follows code w .code stack)
    (hg : code[w.offset]?.map Glyph.ofByte = some (.closing d)) : Sound code (w.close code d) := by
  have hlt := lt_size_of_glyph hg
  cases stack with
  | nil =>
    rw [close, h.opened]
    exact .code hcode hlt
      (h.of_toCome_eq_cons (List.Sublist.refl _) h.opened rfl (toCome_unexpected hg))
  | cons o stack =>
    rw [close, h.opened, List.map_cons]
    dsimp only
    rw [lookUpOpener_eq (h.openers o List.mem_cons_self)]
    exact .code hcode hlt
      (h.of_toCome_eq_cons (List.sublist_cons_self _ _) rfl rfl (toCome_close hg o))

theorem sound_inCode (hcode : w.loop = .code) (h : Follows code w .code stack)
    (hg : code[w.offset]?.map Glyph.ofByte = some g) : Sound code (w.inCode code g) := by
  have hlt := lt_size_of_glyph hg
  cases g with
  | hash =>
    exact .comment rfl hlt.le (h.of_toCome_eq rfl rfl (toCome_congr hg rfl rfl rfl))
  | quote =>
    have hquote : w.offset < min (w.offset + 1) code.size := lt_min (Nat.lt_succ_self _) hlt
    exact .string rfl hquote (Nat.succ_le_succ hlt.le)
      (h.of_toCome_eq rfl rfl (toCome_of_emits hg rfl))
  | opening d =>
    exact .code hcode hlt (h.push hg)
  | closing d => exact sound_close hcode h hg
  | newline | backslash | plain =>
    exact .code hcode hlt (h.of_toCome_eq rfl rfl (toCome_of_emits hg rfl))

theorem sound_inComment (hcomment : w.loop = .comment) (h : Follows code w .comment stack)
    (hg : code[w.offset]?.map Glyph.ofByte = some g) : Sound code (w.inComment g) := by
  have hlt := lt_size_of_glyph hg
  cases g with
  | newline =>
    exact .code rfl hlt.le (h.of_toCome_eq rfl rfl (toCome_congr hg rfl rfl rfl))
  | quote | hash | backslash | opening d | closing d | plain =>
    exact .comment hcomment hlt (h.of_toCome_eq rfl rfl (toCome_of_emits hg rfl))

/-- **A string is given up inside the buffer**, also from behind it. -/
theorem sound_giveUp (h : Follows code w (.string first) stack)
    (hfirst : first < min w.offset code.size)
    (hcome : toCome code (.string first) w.offset stack
      = .unterminated first (min w.offset code.size - 1)
        :: toCome code .code (min w.offset code.size) stack) :
    Sound code (w.giveUp code first) := by
  have hlast : max first (min w.offset code.size - 1) = min w.offset code.size - 1 := by omega
  refine .code rfl (min_le_right _ _) (h.of_toCome_eq_cons (List.Sublist.refl _) h.opened ?_ hcome)
  rw [giveUp, hlast]
  rfl

theorem sound_inString (hstring : w.loop = .string first) (h : Follows code w (.string first) stack)
    (hfirst : first < min w.offset code.size)
    (hg : code[w.offset]?.map Glyph.ofByte = some g) : Sound code (w.inString code first g) := by
  have hlt := lt_size_of_glyph hg
  have hstop : min w.offset code.size = w.offset := min_eq_left hlt.le
  cases g with
  | newline => exact sound_giveUp h hfirst (by rw [hstop, toCome_newline hg])
  | quote => exact .code rfl hlt (h.of_toCome_eq rfl rfl (toCome_of_emits hg rfl))
  | backslash =>
    have hbehind : first < min (w.offset + 2) code.size := by omega
    exact .string hstring hbehind (Nat.succ_le_succ hlt)
      (h.of_toCome_eq rfl rfl (toCome_backslash hg))
  | hash | opening d | closing d | plain =>
    have hbehind : first < min (w.offset + 1) code.size := by omega
    exact .string hstring hbehind (Nat.succ_le_succ hlt.le)
      (h.of_toCome_eq rfl rfl (toCome_of_emits hg rfl))

/-- **Every bracket that is open at the end is found there.** -/
theorem sweep_eq (hstack : ∀ o ∈ stack, code[o.2]?.map Glyph.ofByte = some (.opening o.1))
    (w : Walk) :
    w.sweep code (stack.map Prod.snd)
      = ⟨.finished, w.offset, [], w.found ++ stack.map fun o => .unclosed o.1 o.2⟩ := by
  induction stack generalizing w with
  | nil => rw [List.map_nil, List.map_nil, List.append_nil, sweep]
  | cons o stack ih =>
    obtain ⟨ho, hstack⟩ := List.forall_mem_cons.mp hstack
    rw [List.map_cons, sweep, lookUpOpener_eq ho, ih hstack]
    simp [note]

/-- **A turn keeps a walk sound.** -/
theorem Sound.of_step (h : Sound code w) (hstep : w.step code = some w') : Sound code w' := by
  unfold step at hstep
  cases h with
  | code hcode hle h =>
    rw [hcode] at hstep
    obtain rfl := Option.some.inj hstep
    refine turn_cases (fun g _ => sound_inCode hcode h) fun hge => ?_
    rw [h.opened, sweep_eq h.openers]
    refine .finished rfl (hle.antisymm hge) rfl ?_
    rw [← toCome_code_of_le hge]
    exact h.found
  | comment hcomment hle h =>
    rw [hcomment] at hstep
    obtain rfl := Option.some.inj hstep
    refine turn_cases (fun g _ => sound_inComment hcomment h) fun hge => ?_
    exact .code rfl hle (h.of_toCome_eq rfl rfl (toCome_comment_of_le hge))
  | string hstring hfirst _ h =>
    rw [hstring] at hstep
    obtain rfl := Option.some.inj hstep
    refine turn_cases (fun g _ => sound_inString hstring h hfirst) fun hge => ?_
    exact sound_giveUp h hfirst (by rw [min_eq_right hge, toCome_string_of_le hge])
  | finished hfinished =>
    rw [hfinished] at hstep
    cases hstep

/-! ## The whole walk -/

theorem Sound.of_reaches (h : Sound code w) (hreaches : Reaches (step code) w w') :
    Sound code w' := by
  induction hreaches with
  | refl => exact h
  | tail _ hstep ih => exact ih.of_step hstep

/-- A sound walk that has stopped is at the end of the buffer and has found everything. -/
theorem Sound.of_step_eq_none (h : Sound code w) (hstep : w.step code = none) :
    w.loop = .finished ∧ w.offset = code.size ∧ w.found = toCome code .code 0 [] := by
  cases h with
  | code hcode | comment hcode | string hcode =>
    rw [step, hcode] at hstep
    cases hstep
  | finished hfinished hoffset _ hfound => exact ⟨hfinished, hoffset, hfound⟩

/-- A sound walk has not stopped at a look-up. -/
theorem Sound.loop_ne (h : Sound code w) (n : ℕ) :
    w.loop ≠ .outside n ∧ w.loop ≠ .unpaired n := by
  cases h with
  | code hloop | comment hloop | string hloop | finished hloop =>
    rw [hloop]
    exact ⟨nofun, nofun⟩

theorem Sound.offset_le (h : Sound code w) : w.offset ≤ code.size + 1 := by
  cases h with
  | code _ hle | comment _ hle => exact Nat.le_succ_of_le hle
  | string _ _ hle => exact hle
  | finished _ hoffset => exact hoffset.le.trans (Nat.le_succ _)

theorem Sound.lt_size_of_mem_opened (h : Sound code w) : ∀ o ∈ w.opened, o < code.size := by
  cases h with
  | code _ _ h | comment _ _ h | string _ _ _ h => exact h.lt_size_of_mem_opened
  | finished _ _ hopened =>
    rw [hopened]
    exact List.forall_mem_nil _

/-- **Taking turns until there is none comes to an end.** -/
theorem run_mem_eval (code : Array UInt8) (w : Walk) : w.run code ∈ eval (step code) w := by
  fun_induction run code w with
  | case1 w h => exact mem_eval.mpr ⟨.refl, h⟩
  | case2 w w' h ih => rwa [reaches_eval (.single h)]

theorem clock_lt_of_reaches₁ (h : Reaches₁ (step code) w w') : w.clock code < w'.clock code := by
  induction h with
  | single hstep => exact clock_lt_of_step hstep
  | tail _ hstep ih => exact ih.trans (clock_lt_of_step hstep)

/-- **From one turn in code to a later one a walk has passed a byte.** -/
theorem offset_lt_of_reaches₁ (h : Reaches₁ (step code) w w') (hcode : w.loop = .code)
    (hcode' : w'.loop = .code) : w.offset < w'.offset := by
  have hlt := clock_lt_of_reaches₁ h
  rw [clock, clock, hcode, hcode'] at hlt
  dsimp only at hlt
  omega

end StagedDiagnostics.Walk

namespace StagedDiagnostics.Parse

open StateTransition

/-- One turn of the walk over a source. -/
abbrev step (s : Source) : Walk → Option Walk := Walk.step s.bytes.toArray

/-- **A scan ends exactly at the end.**  The turns of the walk over a text come to an end, and there
the walk is behind the last byte and has found what becomes of all tokens.  On its way it looks up
no offset without a byte and takes no byte for an open bracket that is none; it is one byte behind
the text at most, and the offsets it keeps are inside the text.  From one turn in code to a later
one it goes forward. -/
theorem walk_mem_eval (s : Source) :
    walk s ∈ eval (step s) .start ∧
      (walk s).loop = .finished ∧ finalOffset s = s.size ∧ (walk s).found = findings (glyphs s) ∧
      (∀ w, Reaches (step s) .start w →
        (∀ n, w.loop ≠ .outside n ∧ w.loop ≠ .unpaired n) ∧
          w.offset ≤ s.size + 1 ∧ ∀ o ∈ w.opened, o < s.size) ∧
      ∀ v w, Reaches (step s) .start v → Reaches₁ (step s) v w →
        v.loop = .code → w.loop = .code → v.offset < w.offset := by
  have heval := Walk.run_mem_eval s.bytes.toArray .start
  obtain ⟨hreaches, hstop⟩ := mem_eval.mp heval
  have hsound {w : Walk} (hw : Reaches (step s) .start w) : w.Sound s.bytes.toArray :=
    (Walk.sound_start s.bytes.toArray).of_reaches hw
  obtain ⟨hfinished, hoffset, hfound⟩ := (hsound hreaches).of_step_eq_none hstop
  refine ⟨heval, hfinished, hoffset, hfound, fun w hw => ?_, fun v w _ => ?_⟩
  · exact ⟨(hsound hw).loop_ne, (hsound hw).offset_le, (hsound hw).lt_size_of_mem_opened⟩
  · exact Walk.offset_lt_of_reaches₁

/-- A string left open behind a bracket, whose last byte is a backslash. -/
def danglingEscape : Source := ⟨"(\"\\", none⟩

/-- The backslash takes the walk one byte behind the text; giving the string up takes it back. -/
theorem walk_mem_eval_danglingEscape :
    Reaches (step danglingEscape) .start ⟨.string 1, 4, [0], []⟩ ∧
      Reaches₁ (step danglingEscape) .start ⟨.code, 3, [0], [.unterminated 1 2]⟩ ∧
      4 ≤ danglingEscape.size + 1 ∧ 0 < danglingEscape.size ∧ Walk.start.offset < 3 ∧
      finalOffset danglingEscape = 3 ∧
      (walk danglingEscape).found = [.unterminated 1 2, .unclosed .round 0] := by
  have hopened : ⟨.code, 1, [0], []⟩ ∈ step danglingEscape .start := by decide +kernel
  have hquote : ⟨.string 1, 2, [0], []⟩ ∈ step danglingEscape ⟨.code, 1, [0], []⟩ := by
    decide +kernel
  have hbackslash : ⟨.string 1, 4, [0], []⟩ ∈ step danglingEscape ⟨.string 1, 2, [0], []⟩ := by
    decide +kernel
  have hend : ⟨.code, 3, [0], [.unterminated 1 2]⟩
      ∈ step danglingEscape ⟨.string 1, 4, [0], []⟩ := by
    decide +kernel
  have hbehind : Reaches (step danglingEscape) .start ⟨.string 1, 4, [0], []⟩ :=
    .tail (.tail (.single hopened) hquote) hbackslash
  have hback : Reaches₁ (step danglingEscape) .start ⟨.code, 3, [0], [.unterminated 1 2]⟩ :=
    .tail' hbehind hend
  obtain ⟨-, -, hoffset, hfound, hreached, hforward⟩ := walk_mem_eval danglingEscape
  obtain ⟨-, hle, hlt⟩ := hreached _ hbehind
  have hsize : danglingEscape.size = 3 := by decide +kernel
  have hfindings : findings (glyphs danglingEscape) = [.unterminated 1 2, .unclosed .round 0] := by
    decide +kernel
  exact ⟨hbehind, hback, hle, hlt 0 List.mem_cons_self, hforward _ _ .refl hback rfl rfl,
    hoffset.trans hsize, hfound.trans hfindings⟩

end StagedDiagnostics.Parse
