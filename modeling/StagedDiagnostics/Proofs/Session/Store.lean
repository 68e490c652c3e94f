import Mathlib.Data.List.Induction
import StagedDiagnostics.Session

/-!
# Proofs/Session/Store — the documents of a session on their own

    occasion ──step──▸ texts by plain form
             ──touch?──▸ touch

The store of documents takes no notice of analyzers, parses and caches: what it holds after a run
is a matter of the occasions alone.  It gives the text of a document that it holds, and of any other
what is on disk (`source?`).  What it accepts it reports as a **touch**, with the text it gives from
then on (`source?_step_of_touch?`).
-/

namespace StagedDiagnostics

/-! ## Since

What a run is about to show often hangs on what happened last: something took place, and nothing
has undone it since.  Either may depend on what was before it. -/

/-- Some element is `what` after those before it, and every element after it is `kept` after those
before it. -/
def Since {α : Type} (what kept : List α → α → Prop) (xs : List α) : Prop :=
  ∃ before x after, xs = before ++ x :: after ∧ what before x ∧
    ∀ mid y rest, after = mid ++ y :: rest → kept (before ++ x :: mid) y

theorem since_concat {α : Type} {what kept : List α → α → Prop} {xs : List α} {x : α} :
    Since what kept (xs ++ [x]) ↔ Since what kept xs ∧ kept xs x ∨ what xs x := by
  constructor
  · rintro ⟨before, y, after, heq, hwhat, hkept⟩
    rcases List.eq_nil_or_concat after with rfl | ⟨init, z, rfl⟩
    · obtain ⟨rfl, rfl⟩ := List.append_singleton_inj.mp heq
      exact Or.inr hwhat
    · rw [List.concat_eq_append] at heq hkept
      rw [← List.cons_append, ← List.append_assoc] at heq
      obtain ⟨rfl, rfl⟩ := List.append_singleton_inj.mp heq
      refine Or.inl ⟨⟨before, y, init, rfl, hwhat, fun mid w rest h => ?_⟩, hkept init x [] rfl⟩
      exact hkept mid w (rest ++ [x]) (by rw [h, List.append_assoc, List.cons_append])
  · rintro (⟨⟨before, y, after, rfl, hwhat, hkept⟩, hx⟩ | hx)
    · refine ⟨before, y, after ++ [x], by simp, hwhat, fun mid w rest h => ?_⟩
      rcases List.eq_nil_or_concat rest with rfl | ⟨init, z, rfl⟩
      · obtain ⟨rfl, rfl⟩ := List.append_singleton_inj.mp h
        exact hx
      · rw [List.concat_eq_append, ← List.cons_append, ← List.append_assoc] at h
        exact hkept mid w init (List.append_singleton_inj.mp h).1
    · refine ⟨xs, x, [], rfl, hx, fun mid w rest h => ?_⟩
      exact absurd h.symm (List.append_ne_nil_of_right_ne_nil mid (List.cons_ne_nil w rest))

@[simp] theorem not_since_nil {α : Type} {what kept : List α → α → Prop} :
    ¬ Since what kept [] := by
  rintro ⟨before, x, after, heq, -⟩
  exact List.append_ne_nil_of_right_ne_nil before (List.cons_ne_nil x after) heq.symm

/-! ## The store -/

/-- The texts of the documents by their plain form, once the session has started. -/
abbrev Store := Option (Table String String)

/-- An event where there is no file, with names read from the root. -/
def Occasion.atRoot (e : Event) : Occasion := ⟨e, .empty, "/"⟩

/-- The document an event names. -/
def Event.uri? : Event → Option Uri
  | .start _ _ => none
  | .didOpen uri _ | .didChange uri _ | .didSave uri | .didClose uri | .pull uri => some uri

/-- What the store has accepted for a document, with the text it gives from then on. -/
inductive Touch
  | opened (uri : Uri) (text : String)
  | changed (uri : Uri) (text : String)
  | saved (uri : Uri) (text : String)
  | closed (uri : Uri)
  deriving DecidableEq, Repr

namespace Touch

/-- The document, as the client has named it. -/
def uri : Touch → Uri
  | opened uri _ | changed uri _ | saved uri _ | closed uri => uri

/-- The text the document is left with. -/
def text? : Touch → Option String
  | opened _ text | changed _ text | saved _ text => some text
  | closed _ => none

theorem eq_closed_of_text?_eq_none {t : Touch} (h : t.text? = none) : ∃ uri, t = closed uri := by
  cases t with
  | closed uri => exact ⟨uri, rfl⟩
  | opened | changed | saved => cases h

/-- The live parses with that of another text; a document whose name cannot be told has none. -/
def reparse (parses : Table Uri Parse) (uri : Uri) (text : String) : Table Uri Parse :=
  match Session.parseOf uri text with
  | .ok p => parses.insert uri p
  | .error _ => parses

/-- The live parses after a touch. -/
def apply (parses : Table Uri Parse) (t : Touch) : Table Uri Parse :=
  match t.text? with
  | some text => reparse parses t.uri text
  | none => parses.erase t.uri

end Touch

namespace Store

/-- The text of a document. -/
def text? (d : Store) (uri : Uri) : Option String := d.bind fun t => t.get? (Uri.plain uri)

/-- The text of a document, in the store or else on disk; before the start there is none. -/
def source? (d : Store) (disk : Disk) (uri : Uri) : Option String :=
  d.bind fun t => (Session.sourceOf t disk uri).toOption

/-- The store with another text of a document. -/
def put (d : Store) (uri : Uri) (text : String) : Store :=
  d.map fun t => t.insert (Uri.plain uri) text

/-- The touch an event is.  The store has edits only of a document it holds, a save and a change
without edits of any document that has a text. -/
def touch? (d : Store) (o : Occasion) : Option Touch :=
  match o.event with
  | .didOpen uri text =>
    match d, Uri.diskPath uri with
    | some _, .ok _ => some (.opened uri text)
    | _, _ => none
  | .didChange uri edits =>
    match d.text? uri with
    | some old => some (.changed uri (Edit.applyAll old edits))
    | none => if edits.isEmpty then (d.source? o.disk uri).map (.changed uri) else none
  | .didSave uri => (d.source? o.disk uri).map (.saved uri)
  | .didClose uri => d.map fun _ => .closed uri
  | .start _ _ => none
  | .pull _ => none

/-- The store after a touch; a change leaves alone what is only on disk. -/
def apply (d : Store) : Touch → Store
  | .opened uri text => d.put uri text
  | .changed uri text => if (d.text? uri).isSome then d.put uri text else d
  | .saved _ _ => d
  | .closed uri => d.map fun t => t.erase (Uri.plain uri)

/-- The store after an event; a start that is accepted empties it. -/
def step (d : Store) (o : Occasion) : Store :=
  match o.event with
  | .start rootUri rootPath =>
    match Session.rootOf rootUri rootPath with
    | .ok _ => some .empty
    | .error _ => d
  | _ => (d.touch? o).elim d d.apply

/-- The store after some events, from before the start. -/
def after (es : List Occasion) : Store := es.foldl step none

theorem after_concat (es : List Occasion) (o : Occasion) :
    after (es ++ [o]) = (after es).step o := by
  rw [after, List.foldl_append]
  rfl

theorem text?_put {d : Store} (hd : d.isSome) (uri : Uri) (text : String) :
    (d.put uri text).text? uri = some text := by
  obtain ⟨t, rfl⟩ := Option.isSome_iff_exists.mp hd
  exact Table.get?_insert_self t _ text

theorem isSome_of_text?_eq_some {d : Store} {uri : Uri} {text : String}
    (h : d.text? uri = some text) : d.isSome := by
  obtain ⟨t, rfl, -⟩ := Option.bind_eq_some_iff.mp h
  rfl

theorem source?_eq_some_iff {d : Store} {disk : Disk} {uri : Uri} {text : String} :
    d.source? disk uri = some text
      ↔ ∃ documents, d = some documents ∧ Session.sourceOf documents disk uri = .ok text := by
  rw [source?, Option.bind_eq_some_iff]
  refine exists_congr fun documents => and_congr_right fun _ => ?_
  cases Session.sourceOf documents disk uri <;> simp [Except.toOption]

/-- What the store holds comes before what the disk holds. -/
theorem source?_of_text?_eq_some {d : Store} {uri : Uri} {text : String}
    (h : d.text? uri = some text) (disk : Disk) : d.source? disk uri = some text := by
  obtain ⟨t, rfl, ht⟩ := Option.bind_eq_some_iff.mp h
  exact source?_eq_some_iff.mpr ⟨t, rfl, by rw [Session.sourceOf, ht]⟩

/-- An event that is a touch does to the store what the touch does. -/
theorem step_of_touch? {d : Store} {o : Occasion} {t : Touch} (h : d.touch? o = some t) :
    d.step o = d.apply t := by
  obtain ⟨e, disk, directory⟩ := o
  cases e with
  | start rootUri rootPath => cases h
  | didOpen | didChange | didSave | didClose | pull => simp [step, h]

/-- **What a touch is**: an open of a document with a place on disk, a change or a save of a
document that has a text, or a close.  A change of a document that the store does not hold has no
edits. -/
theorem touch?_cases {d : Store} {o : Occasion} {t : Touch} (h : d.touch? o = some t) :
    (∃ uri text path, o.event = .didOpen uri text ∧ t = .opened uri text ∧ d.isSome ∧
        Uri.diskPath uri = .ok path) ∨
      (∃ uri edits old, o.event = .didChange uri edits ∧
        t = .changed uri (Edit.applyAll old edits) ∧ d.source? o.disk uri = some old ∧
          (d.text? uri = some old ∨ d.text? uri = none ∧ edits = [])) ∨
      (∃ uri text, o.event = .didSave uri ∧ t = .saved uri text ∧
        d.source? o.disk uri = some text) ∨
      ∃ uri, o.event = .didClose uri ∧ t = .closed uri := by
  obtain ⟨e, disk, directory⟩ := o
  cases e with
  | start | pull => cases h
  | didOpen uri text =>
    simp only [touch?] at h
    split at h
    · obtain rfl := Option.some.inj h
      exact Or.inl ⟨uri, text, _, rfl, rfl, rfl, ‹_›⟩
    · cases h
  | didChange uri edits =>
    simp only [touch?] at h
    cases hold : d.text? uri with
    | some old =>
      rw [hold] at h
      obtain rfl := Option.some.inj h
      exact Or.inr (Or.inl ⟨uri, edits, old, rfl, rfl, source?_of_text?_eq_some hold disk,
        Or.inl hold⟩)
    | none =>
      rw [hold] at h
      cases edits with
      | nil =>
        obtain ⟨old, hsource, rfl⟩ := Option.map_eq_some_iff.mp h
        exact Or.inr (Or.inl ⟨uri, [], old, rfl, rfl, hsource, Or.inr ⟨hold, rfl⟩⟩)
      | cons edit edits => cases h
  | didSave uri =>
    obtain ⟨text, htext, rfl⟩ := Option.map_eq_some_iff.mp h
    exact Or.inr (Or.inr (Or.inl ⟨uri, text, rfl, rfl, htext⟩))
  | didClose uri =>
    obtain ⟨-, -, rfl⟩ := Option.map_eq_some_iff.mp h
    exact Or.inr (Or.inr (Or.inr ⟨uri, rfl, rfl⟩))

theorem uri?_of_touch? {d : Store} {o : Occasion} {t : Touch} (h : d.touch? o = some t) :
    o.event.uri? = some t.uri := by
  rcases touch?_cases h with ⟨uri, text, path, he, rfl, -⟩ | ⟨uri, edits, old, he, rfl, -⟩ |
    ⟨uri, text, he, rfl, -⟩ | ⟨uri, he, rfl⟩
  iterate 4 rw [he]; rfl

/-- **A touch reports the text of its document** right after the event, be it in the store or on
disk. -/
theorem source?_step_of_touch? {d : Store} {o : Occasion} {t : Touch} {text : String}
    (h : d.touch? o = some t) (ht : t.text? = some text) :
    (d.step o).source? o.disk t.uri = some text := by
  rw [step_of_touch? h]
  rcases touch?_cases h with ⟨uri, new, path, -, rfl, hd, -⟩ |
    ⟨uri, edits, old, -, rfl, hsource, hold⟩ | ⟨uri, held, -, rfl, hheld⟩ | ⟨uri, -, rfl⟩
  · obtain rfl := Option.some.inj ht
    exact source?_of_text?_eq_some (text?_put hd uri new) o.disk
  · obtain rfl := Option.some.inj ht
    rw [apply]
    rcases hold with hold | ⟨hnone, rfl⟩
    · have hput := text?_put (isSome_of_text?_eq_some hold) uri (Edit.applyAll old edits)
      rw [hold, Option.isSome_some, if_pos rfl]
      exact source?_of_text?_eq_some hput o.disk
    · rw [hnone, Option.isSome_none, if_neg Bool.false_ne_true]
      exact hsource
  · exact hheld.trans ht
  · cases ht

end Store

end StagedDiagnostics
