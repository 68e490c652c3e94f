import StagedDiagnostics.Proofs.Session.History

/-!
# Proofs/Session/Freshness — what a pull is answered

A pull is answered from the live parse of the very URI it names.  The parse is as fresh as the last
touch under that URI: it is the parse of the text the document had right after it (`Held`), and
there is none once the document was closed under that URI (`get?_parses_after`).  That is not to say
that the document is open.  The store tells documents apart by their plain form, so one that was
opened under one URI can be changed, saved and closed under another, and the parses of the two then
have nothing to do with each other; and a document that is only on disk can be saved.
-/

namespace StagedDiagnostics

/-- A name can be told of every document that has a place on disk. -/
theorem Uri.exists_filename?_of_diskPath {uri : Uri} {path : String}
    (h : Uri.diskPath uri = .ok path) : ∃ name, Uri.filename? uri = .ok name := by
  rw [Uri.diskPath] at h
  rw [Uri.filename?]
  cases hp : Uri.Parts.ofUri uri.toList with
  | error fault =>
    rw [hp] at h
    cases h
  | ok parts => exact ⟨_, rfl⟩

namespace Store

/-! ## The text of a document after its last touch -/

/-- An event is a touch of a document, under this very URI. -/
def Touches (uri : Uri) (before : List Occasion) (o : Occasion) : Prop :=
  ∃ t, (after before).touch? o = some t ∧ t.uri = uri

/-- An event is a touch of a document that leaves it with this text, in the store or on disk. -/
def Writes (uri : Uri) (text : String) (before : List Occasion) (o : Occasion) : Prop :=
  Touches uri before o ∧ (after before).touch? o ≠ some (.closed uri) ∧
    (after (before ++ [o])).source? o.disk uri = some text

/-- The last touch of a document has left it with this text. -/
def Held (uri : Uri) (text : String) (es : List Occasion) : Prop :=
  Since (Writes uri text) (fun before o => ¬ Touches uri before o) es

/-- A document was opened and not closed since, both under this very URI. -/
def IsOpen (uri : Uri) (es : List Occasion) : Prop :=
  Since (fun before o => ∃ text, (after before).touch? o = some (.opened uri text))
    (fun before o => (after before).touch? o ≠ some (.closed uri)) es

/-- The last touch of a document was an event that names it. -/
theorem exists_mem_of_held {uri : Uri} {text : String} {es : List Occasion} (h : Held uri text es) :
    ∃ o ∈ es, o.event.uri? = some uri := by
  obtain ⟨before, o, after, rfl, ⟨⟨t, ht, rfl⟩, -⟩, -⟩ := h
  exact ⟨o, List.mem_append_right before List.mem_cons_self, uri?_of_touch? ht⟩

theorem touches_iff {es : List Occasion} {o : Occasion} {t : Touch}
    (h : (after es).touch? o = some t) (uri : Uri) : Touches uri es o ↔ t.uri = uri := by
  refine ⟨?_, fun ht => ⟨t, h, ht⟩⟩
  rintro ⟨u, hu, rfl⟩
  rw [Option.some.inj (h.symm.trans hu)]

theorem writes_iff {es : List Occasion} {o : Occasion} {t : Touch}
    (h : (after es).touch? o = some t) (text : String) :
    Writes t.uri text es o ↔ t.text? = some text := by
  rw [Writes, after_concat, h, touches_iff h]
  cases ht : t.text? with
  | none =>
    obtain ⟨uri, rfl⟩ := Touch.eq_closed_of_text?_eq_none ht
    simp [Touch.uri]
  | some new =>
    rw [source?_step_of_touch? h ht]
    refine ⟨fun hw => hw.2.2, fun hw => ⟨rfl, ?_, hw⟩⟩
    intro heq
    rw [Option.some.inj heq] at ht
    cases ht

/-- An event that does not touch a document leaves alone what is held of it. -/
theorem held_concat_of_not_touches {uri : Uri} {text : String} {es : List Occasion} {o : Occasion}
    (h : ¬ Touches uri es o) : Held uri text (es ++ [o]) ↔ Held uri text es := by
  have hwrites : ¬ Writes uri text es o := fun hw => h hw.1
  rw [Held, since_concat, and_iff_left h, or_iff_left hwrites, Held]

/-- A touch settles what is held of its document. -/
theorem held_concat_of_touch? {es : List Occasion} {o : Occasion} {t : Touch}
    (h : (after es).touch? o = some t) (text : String) :
    Held t.uri text (es ++ [o]) ↔ t.text? = some text := by
  have htouches : Touches t.uri es o := ⟨t, h, rfl⟩
  rw [Held, since_concat, or_iff_right fun hs => hs.2 htouches, writes_iff h]

theorem isOpen_concat_of_opened {es : List Occasion} {o : Occasion} {uri : Uri} {text : String}
    (h : (after es).touch? o = some (.opened uri text)) : IsOpen uri (es ++ [o]) :=
  since_concat.mpr (Or.inr ⟨text, h⟩)

/-- An open document has a text. -/
theorem exists_held_of_isOpen {uri : Uri} {es : List Occasion} (h : IsOpen uri es) :
    ∃ text, Held uri text es := by
  induction es using List.reverseRecOn with
  | nil => exact absurd h not_since_nil
  | append_singleton es o ih =>
    rcases since_concat.mp h with ⟨hopen, hkept⟩ | ⟨text, ht⟩
    · obtain ⟨text, hheld⟩ := ih hopen
      by_cases htouches : Touches uri es o
      · obtain ⟨t, ht, rfl⟩ := htouches
        cases hnew : t.text? with
        | none =>
          obtain ⟨uri, rfl⟩ := Touch.eq_closed_of_text?_eq_none hnew
          exact absurd ht hkept
        | some new => exact ⟨new, (held_concat_of_touch? ht new).mpr hnew⟩
      · exact ⟨text, (held_concat_of_not_touches htouches).mpr hheld⟩
    · exact ⟨text, (held_concat_of_touch? ht text).mpr rfl⟩

/-- What is opened was opened under its own URI and has a place on disk. -/
theorem eq_didOpen_of_touch? {d : Store} {o : Occasion} {uri : Uri} {text : String}
    (h : d.touch? o = some (.opened uri text)) :
    o.event = .didOpen uri text ∧ ∃ path, Uri.diskPath uri = .ok path := by
  rcases touch?_cases h with ⟨other, new, path, he, heq, -, hpath⟩ | ⟨_, _, _, -, heq, -⟩ |
    ⟨_, _, -, heq, -⟩ | ⟨_, -, heq⟩
  · obtain ⟨rfl, rfl⟩ := Touch.opened.inj heq
    exact ⟨he, path, hpath⟩
  iterate 3 cases heq

theorem exists_didOpen_mem_of_isOpen {uri : Uri} {es : List Occasion} (h : IsOpen uri es) :
    ∃ text, .didOpen uri text ∈ es.map Occasion.event := by
  obtain ⟨before, o, after, rfl, ⟨text, ht⟩, -⟩ := h
  obtain ⟨he, -⟩ := eq_didOpen_of_touch? ht
  exact ⟨text, he ▸ List.mem_map_of_mem (List.mem_append_right before List.mem_cons_self)⟩

/-- A name can be told of an open document. -/
theorem exists_filename?_of_isOpen {uri : Uri} {es : List Occasion} (h : IsOpen uri es) :
    ∃ name, Uri.filename? uri = .ok name := by
  obtain ⟨before, o, after, -, ⟨text, ht⟩, -⟩ := h
  obtain ⟨-, path, hpath⟩ := eq_didOpen_of_touch? ht
  exact Uri.exists_filename?_of_diskPath hpath

end Store

/-! ## Refusals without a code

A conversion may be refused, but its refusals are final: only a pull that finds no live parse tells
the client to ask again. -/

/-- A computation whose refusals have no code. -/
def Uncoded {α : Type} (x : Except Fault α) : Prop := ∀ fault, x = .error fault → fault.code? = none

variable {α β : Type}

theorem uncoded_ok (a : α) : Uncoded (.ok a) := nofun

theorem uncoded_bind {x : Except Fault α} {f : α → Except Fault β} (hx : Uncoded x)
    (hf : ∀ a, Uncoded (f a)) : Uncoded (x >>= f) := by
  cases x with
  | error fault =>
    rintro _ h
    exact hx _ (Except.error.inj h ▸ rfl)
  | ok a => exact hf a

theorem uncoded_mapM {f : α → Except Fault β} (hf : ∀ a, Uncoded (f a)) (xs : List α) :
    Uncoded (xs.mapM f) := by
  induction xs with
  | nil => exact uncoded_ok []
  | cons x xs ih =>
    rw [List.mapM_cons]
    exact uncoded_bind (hf x) fun b => uncoded_bind ih fun bs => uncoded_ok (b :: bs)

theorem Position.uncoded_checked (line character : Int) : Uncoded (checked line character) := by
  unfold checked
  split
  · split
    · exact uncoded_ok _
    · rintro _ h
      exact Except.error.inj h ▸ rfl
  · rintro _ h
    exact Except.error.inj h ▸ rfl

theorem Parse.uncoded_diagnostics (p : Parse) : Uncoded p.diagnostics :=
  uncoded_mapM (fun _ => uncoded_bind (Position.uncoded_checked _ _) fun _ =>
    uncoded_bind (Position.uncoded_checked _ _) fun _ => uncoded_ok _) p.reports

namespace Touch

theorem get?_apply_of_ne {t : Touch} {uri : Uri} (h : t.uri ≠ uri) (parses : Table Uri Parse) :
    (t.apply parses).get? uri = parses.get? uri := by
  unfold apply reparse
  split
  · split
    · exact Table.get?_insert_of_ne _ h _
    · rfl
  · rw [Table.get?_erase, if_neg h.symm]

end Touch

namespace Session

/-! ## Live parses -/

/-- The documents of a session are those of the store by itself. -/
theorem documents_after (dir : String) (es : Run) :
    ((initial dir).after es).documents = Store.after (es.map Prod.fst) := by
  induction es using List.reverseRecOn with
  | nil => rfl
  | append_singleton es e ih =>
    have hstep := (((initial dir).after es).performs_step e.2 e.1).documents
    rw [after_concat, List.map_append, List.map_singleton, Store.after_concat, ← ih, hstep]

theorem parseOf_eq_ok_iff {uri : Uri} {text : String} {p : Parse} :
    parseOf uri text = .ok p
      ↔ ∃ name, Uri.filename? uri = .ok name ∧ Parse.ofText text name = p := by
  rw [parseOf]
  cases Uri.filename? uri with
  | error fault => simp [Except.map]
  | ok name => simp [Except.map]

/-- Whether a document can be parsed does not hang on its text. -/
theorem parseOf_ne_ok {uri : Uri} {text : String} {fault : Fault}
    (h : parseOf uri text = .error fault) (other : String) (p : Parse) :
    parseOf uri other ≠ .ok p := by
  intro hok
  obtain ⟨name, hname, -⟩ := parseOf_eq_ok_iff.mp hok
  rw [parseOf, hname] at h
  cases h

/-- What a step does to a live parse that was that of the text held. -/
theorem get?_apply_touch? {es : List Occasion} {o : Occasion} {t : Touch} {parses : Table Uri Parse}
    (h : (Store.after es).touch? o = some t) (uri : Uri) (p : Parse)
    (ih : parses.get? uri = some p ↔ ∃ text, Store.Held uri text es ∧ parseOf uri text = .ok p) :
    (t.apply parses).get? uri = some p
      ↔ ∃ text, Store.Held uri text (es ++ [o]) ∧ parseOf uri text = .ok p := by
  by_cases ht : t.uri = uri
  · subst ht
    have hheld := Store.held_concat_of_touch? h
    simp only [hheld]
    rw [Touch.apply]
    cases hnew : t.text? with
    | none => simp [Table.get?_erase]
    | some new =>
      simp only [Option.some.injEq, exists_eq_left', Touch.reparse]
      cases hp : parseOf t.uri new with
      | ok q => simp
      | error fault =>
        have hnever := parseOf_ne_ok hp
        simp [ih, hnever]
  · have hidle : ¬ Store.Touches uri es o := fun hs => ht ((Store.touches_iff h uri).mp hs)
    simp only [Store.held_concat_of_not_touches hidle]
    rw [Touch.get?_apply_of_ne ht, ih]

/-- **The live parses are those of the texts held**, each under its own URI. -/
theorem get?_parses_after (dir : String) (es : Run) (uri : Uri) (p : Parse) :
    ((initial dir).after es).parses.get? uri = some p
      ↔ ∃ text, Store.Held uri text (es.map Prod.fst) ∧ parseOf uri text = .ok p := by
  induction es using List.reverseRecOn with
  | nil => simp [initial, Store.Held]
  | append_singleton es e ih =>
    have hstep := (((initial dir).after es).performs_step e.2 e.1).parses
    rw [documents_after] at hstep
    rw [after_concat, List.map_append, List.map_singleton, hstep]
    cases h : (Store.after (es.map Prod.fst)).touch? e.1 with
    | none =>
      have hidle : ¬ Store.Touches uri (es.map Prod.fst) e.1 := by
        rintro ⟨t, ht, -⟩
        rw [h] at ht
        cases ht
      simp only [Store.held_concat_of_not_touches hidle]
      exact ih
    | some t => exact get?_apply_touch? h uri p ih

/-! ## Pulls -/

/-- What a pull is answered after a run. -/
def pulled (dir : String) (es : Run) (uri : Uri) : Except Fault Reply :=
  (((initial dir).after es).pull uri).reply

theorem pulled_of_get? {dir : String} {es : Run} {uri : Uri} {p : Parse}
    (h : ((initial dir).after es).parses.get? uri = some p) :
    pulled dir es uri = p.diagnostics.map .items := by
  rw [pulled, pull, h, Publication.answer]

theorem pulled_of_get?_eq_none {dir : String} {es : Run} {uri : Uri}
    (h : ((initial dir).after es).parses.get? uri = none) :
    pulled dir es uri = .error (.stale uri) := by
  rw [pulled, pull, h, Publication.answer]
  rfl

/-- **A client is told to ask again exactly where there is no live parse.** -/
theorem data?_pulled_iff {dir : String} {es : Run} {uri : Uri} :
    (∃ fault, pulled dir es uri = .error fault ∧ fault.data? = some ⟨true⟩)
      ↔ ((initial dir).after es).parses.get? uri = none := by
  constructor
  · rintro ⟨fault, hpulled, hdata⟩
    obtain ⟨-, hcode⟩ := Fault.data?_eq_some_iff.mp hdata
    cases hparse : ((initial dir).after es).parses.get? uri with
    | none => rfl
    | some p =>
      rw [pulled_of_get? hparse] at hpulled
      cases hp : p.diagnostics with
      | ok ds =>
        rw [hp] at hpulled
        cases hpulled
      | error other =>
        rw [hp] at hpulled
        obtain rfl := Except.error.inj hpulled
        rw [p.uncoded_diagnostics _ hp] at hcode
        cases hcode
  · intro hnone
    exact ⟨.stale uri, pulled_of_get?_eq_none hnone, rfl⟩

/-- **What a pull is answered.**  If the last touch of the document under its URI has left it with a
text, the answer is the diagnostics of a fresh parse of that text; otherwise, or if the document has
no name, there is no answer.  A document that was opened and not closed since has such a text and a
name.  Analyzers have no part in it. -/
theorem pulled_eq (dir : String) (es : Run) (uri : Uri) :
    ((initial dir).after es).documents = Store.after (es.map Prod.fst) ∧
      (∀ text name, Store.Held uri text (es.map Prod.fst) → Uri.filename? uri = .ok name →
        pulled dir es uri = (Parse.ofText text name).diagnostics.map .items) ∧
      ((∀ text name, Store.Held uri text (es.map Prod.fst) → Uri.filename? uri ≠ .ok name) →
        pulled dir es uri = .error (.stale uri)) ∧
      (Store.IsOpen uri (es.map Prod.fst) →
        ∃ text name, Store.Held uri text (es.map Prod.fst) ∧ Uri.filename? uri = .ok name) ∧
      ∀ fs : Run, fs.map Prod.fst = es.map Prod.fst → pulled dir fs uri = pulled dir es uri := by
  have hparse := get?_parses_after dir es uri
  refine ⟨documents_after dir es, fun text name hheld hname => ?_, fun hnone => ?_,
    fun hopen => ?_, fun fs hevents => ?_⟩
  · exact pulled_of_get? ((hparse _).mpr ⟨text, hheld, parseOf_eq_ok_iff.mpr ⟨name, hname, rfl⟩⟩)
  · refine pulled_of_get?_eq_none (Option.eq_none_iff_forall_ne_some.mpr fun p hp => ?_)
    obtain ⟨text, hheld, hp⟩ := (hparse p).mp hp
    obtain ⟨name, hname, -⟩ := parseOf_eq_ok_iff.mp hp
    exact hnone text name hheld hname
  · obtain ⟨text, hheld⟩ := Store.exists_held_of_isOpen hopen
    obtain ⟨name, hname⟩ := Store.exists_filename?_of_isOpen hopen
    exact ⟨text, name, hheld, hname⟩
  · have hsame : ((initial dir).after fs).parses.get? uri
        = ((initial dir).after es).parses.get? uri := by
      refine Option.ext fun p => ?_
      rw [hparse, get?_parses_after, hevents]
    rw [pulled, pulled, pull, pull, hsame]

/-- A document with an unclosed bracket is opened, and its analysis breaks down; another one, which
was never opened, is saved when it is on disk. -/
def brokenRun : Run :=
  [(.atRoot (.start none none), none),
    (.atRoot (.didOpen "file:///w/a.stg" "("), some fun _ _ => .error .notInitialized),
    (⟨.didSave "file:///w/b.stg", fun _ => .ok ")", "/"⟩, none)]

theorem pulled_brokenRun :
    Store.IsOpen "file:///w/a.stg" (brokenRun.map Prod.fst) ∧
      pulled "/" brokenRun "file:///w/a.stg"
        = (Parse.ofText "(" (some "/w/a.stg")).diagnostics.map .items ∧
      ¬ Store.IsOpen "file:///w/b.stg" (brokenRun.map Prod.fst) ∧
      pulled "/" brokenRun "file:///w/b.stg"
        = (Parse.ofText ")" (some "/w/b.stg")).diagnostics.map .items ∧
      pulled "/" brokenRun "file:///w/c.stg" = .error (.stale "file:///w/c.stg") := by
  have hopened : (Store.after [.atRoot (.start none none)]).touch?
      (.atRoot (.didOpen "file:///w/a.stg" "(")) = some (.opened "file:///w/a.stg" "(") := by
    decide +kernel
  have hsaved : (Store.after (brokenRun.dropLast.map Prod.fst)).touch?
      ⟨.didSave "file:///w/b.stg", fun _ => .ok ")", "/"⟩
        = some (.saved "file:///w/b.stg" ")") := by decide +kernel
  have hidle : ¬ Store.Touches "file:///w/a.stg" (brokenRun.dropLast.map Prod.fst)
      ⟨.didSave "file:///w/b.stg", fun _ => .ok ")", "/"⟩ := by
    rw [Store.touches_iff hsaved]
    decide
  have hheld : Store.Held "file:///w/a.stg" "(" (brokenRun.map Prod.fst) :=
    (Store.held_concat_of_not_touches hidle).mpr ((Store.held_concat_of_touch? hopened "(").mpr rfl)
  have hother : Store.Held "file:///w/b.stg" ")" (brokenRun.map Prod.fst) :=
    (Store.held_concat_of_touch? hsaved ")").mpr rfl
  refine ⟨since_concat.mpr (Or.inl ⟨Store.isOpen_concat_of_opened hopened, ?_⟩),
    (pulled_eq "/" brokenRun _).2.1 _ _ hheld (by decide +kernel), fun hopen => ?_,
    (pulled_eq "/" brokenRun _).2.1 _ _ hother (by decide +kernel),
    (pulled_eq "/" brokenRun _).2.2.1 fun text name hthird => ?_⟩
  · intro hclosed
    cases hsaved.symm.trans hclosed
  · obtain ⟨text, hmem⟩ := Store.exists_didOpen_mem_of_isOpen hopen
    simp [brokenRun, Occasion.atRoot] at hmem
  · simpa [brokenRun, Occasion.atRoot, Event.uri?] using Store.exists_mem_of_held hthird

/-- A document is opened under one URI and changed under another with the same plain form. -/
def aliasRun : Run :=
  [(.atRoot (.start none none), none), (.atRoot (.didOpen "file:///w/a.stg" ""), none),
    (.atRoot (.didChange "file:///w/%61.stg" [⟨none, "("⟩]), none)]

/-- **A pull goes by the URI, not by the document**: the change under the second URI is answered
under that one, which was never opened, and under the first the answer is that of the old text. -/
theorem pulled_aliasRun :
    ¬ Store.IsOpen "file:///w/%61.stg" (aliasRun.map Prod.fst) ∧
      pulled "/" aliasRun "file:///w/%61.stg" ≠ .error (.stale "file:///w/%61.stg") ∧
      (Store.after (aliasRun.map Prod.fst)).text? "file:///w/a.stg" = some "(" ∧
      pulled "/" aliasRun "file:///w/a.stg" = .ok (.items []) := by
  refine ⟨fun hopen => ?_, ?_, ?_, ?_⟩
  · obtain ⟨text, hmem⟩ := Store.exists_didOpen_mem_of_isOpen hopen
    simp [aliasRun, Occasion.atRoot] at hmem
  · decide +kernel
  · decide +kernel
  · decide +kernel

end Session

end StagedDiagnostics
