import StagedDiagnostics.Proofs.Buckets.Attribution
import StagedDiagnostics.Proofs.Session.Freshness
import StagedDiagnostics.Proofs.Session.Shown

/-!
# Proofs/Session/FailedAnalysis — an analysis that breaks down leaves no trace

    open, save ──stored──▸ text ──parse──▸ live parse ──analysis──▸ cache, notifications

An analysis works on buckets of its own until its pass is complete.  If it breaks down before that,
be it in the analyzer or at the last report of its result, the event comes to what it would have
come to if no analysis had been attempted (`stepUnanalyzed`), its reply apart; so whatever follows
cannot tell the difference.
-/

namespace StagedDiagnostics

/-- What is saved is saved under its own URI, and has a text in the store or on disk. -/
theorem Store.eq_didSave_of_touch? {d : Store} {o : Occasion} {uri : Uri} {text : String}
    (h : d.touch? o = some (.saved uri text)) :
    o.event = .didSave uri ∧ d.source? o.disk uri = some text := by
  rcases touch?_cases h with ⟨_, _, _, -, heq, -⟩ | ⟨_, _, _, -, heq, -⟩ |
    ⟨other, held, he, heq, hheld⟩ | ⟨_, -, heq⟩
  · cases heq
  · cases heq
  · obtain ⟨rfl, rfl⟩ := Touch.saved.inj heq
    exact ⟨he, hheld⟩
  · cases heq

namespace Session

variable {s : Session} {o : Occasion} {uri : Uri} {text : String}

/-! ## Events without their analysis -/

/-- The session with its documents as an event leaves them. -/
def stored (s : Session) (o : Occasion) : Session :=
  { s with documents := Store.step s.documents o }

/-- What an event leads to if no analysis is attempted. -/
def stepUnanalyzed (s : Session) (o : Occasion) : Outcome :=
  match Store.touch? s.documents o with
  | some (.opened uri text) => (s.stored o).parseOnly uri text
  | some (.saved uri text) => (s.stored o).parseOnly uri text
  | _ => s.step none o

/-- The store has accepted an open or a save, so that the text is parsed and analyzed. -/
def Submits (s : Session) (o : Occasion) (uri : Uri) (text : String) : Prop :=
  Store.touch? s.documents o = some (.opened uri text) ∨
    Store.touch? s.documents o = some (.saved uri text)

theorem Submits.stepUnanalyzed_eq (h : s.Submits o uri text) :
    s.stepUnanalyzed o = (s.stored o).parseOnly uri text := by
  rcases h with h | h
  · rw [stepUnanalyzed, h]
  · rw [stepUnanalyzed, h]

/-- What is submitted is parsed and analyzed in the session that has it stored. -/
theorem Submits.step_eq (h : s.Submits o uri text) (analyzer : Option Analyzer) :
    s.step analyzer o = (s.stored o).parseAndAnalyze analyzer uri text := by
  rcases h with h | h
  · obtain ⟨he, path, hpath⟩ := Store.eq_didOpen_of_touch? h
    cases hd : s.documents with
    | none =>
      rw [hd, Store.touch?, he] at h
      cases h
    | some documents =>
      have hstored : s.stored o = s.withText documents uri text := by
        rw [stored, Store.step_of_touch? h, hd]
        rfl
      rw [step, he, hstored]
      simp only [didOpen, hd, hpath]
  · obtain ⟨he, hsource⟩ := Store.eq_didSave_of_touch? h
    obtain ⟨documents, hd, hsource⟩ := Store.source?_eq_some_iff.mp hsource
    have hstored : s.stored o = s := by
      rw [stored, Store.step_of_touch? h]
      rfl
    rw [step, he, hstored]
    simp only [didSave, hd, hsource]

/-! ## Broken analyses -/

/-- An analysis of a document breaks down: the analyzer does, or its result is refused. -/
def BreaksDown (resolver : Resolver) (analyzer : Analyzer) (uri : Uri) (name text : String)
    (fault : Fault) : Prop :=
  analyzer name text = .error fault ∨
    ∃ result, analyzer name text = .ok result ∧ Pass.ofResult uri result resolver = .error fault

theorem passOf_eq_error_iff {analyzer : Analyzer} {name : String} {fault : Fault} :
    s.passOf analyzer uri name text = .error fault
      ↔ BreaksDown s.resolver analyzer uri name text fault := by
  rw [passOf, BreaksDown]
  cases analyzer name text with
  | error other => simp [bind, Except.bind]
  | ok result => simp [bind, Except.bind]

/-- One report that is refused breaks the analysis down, wherever it stands in the result. -/
theorem exists_breaksDown_of_mem_reports {resolver : Resolver} {analyzer : Analyzer} {name : String}
    {result : AnalysisResult} (hresult : analyzer name text = .ok result) {r : Report}
    (hr : r ∈ result.reports) (hfault : r.fault? result.names resolver ≠ none) :
    ∃ fault, BreaksDown resolver analyzer uri name text fault := by
  cases hpass : Pass.ofResult uri result resolver with
  | ok p =>
    obtain ⟨files, -, hall, -⟩ := Pass.ofResult_eq_ok_iff.mp hpass
    exact absurd (hall r hr) hfault
  | error fault => exact ⟨fault, Or.inr ⟨result, hresult, hpass⟩⟩

/-- A broken analysis leaves the new parse and says why. -/
theorem parseAndAnalyze_of_breaksDown {analyzer : Analyzer} {name : String} {fault : Fault}
    (hname : Uri.filename? uri = .ok (some name))
    (hfails : BreaksDown s.resolver analyzer uri name text fault) :
    s.parseAndAnalyze (some analyzer) uri text
      = { s.parseOnly uri text with reply := .error fault, calls := [(name, text)] } := by
  have hparse : parseOf uri text = .ok (Parse.ofText text (some name)) :=
    parseOf_eq_ok_iff.mpr ⟨_, hname, rfl⟩
  have hpass : (s.withParse uri (Parse.ofText text (some name))).passOf analyzer uri name text
      = .error fault := passOf_eq_error_iff.mpr hfails
  rw [parseAndAnalyze, parseOnly, hparse]
  simp only [analyze, hname, hpass]
  rfl

theorem sent_append (s : Session) (es fs : Run) :
    s.sent (es ++ fs) = s.sent es ++ (s.after es).sent fs := by
  induction es generalizing s with
  | nil => rfl
  | cons e es ih =>
    have hrest := ih (s.step e.2 e.1).session
    simp only [sent, outcomes, List.cons_append, List.flatMap_cons, List.append_assoc] at hrest ⊢
    rw [hrest]
    rfl

/-- **A broken analysis leaves no trace.**  If the analysis of what was opened or saved breaks down,
in the analyzer or at any report of its result, then the event is refused with that fault, the cache
is the one before it, nothing is sent, and the parse of the new text is the only live parse to
change.  The session is the one that would have been without the analysis, and whatever events
follow, each with its own analyzer, the run sends what it would have sent then. -/
theorem step_of_breaksDown (dir : String) (es : Run) {analyzer : Analyzer} {name : String}
    {fault : Fault} (hsubmits : ((initial dir).after es).Submits o uri text)
    (hname : Uri.filename? uri = .ok (some name))
    (hfails : BreaksDown ((initial dir).after es).resolver analyzer uri name text fault) :
    let s := (initial dir).after es
    let r := s.step (some analyzer) o
    r.reply = .error fault ∧ r.session.cache = s.cache ∧ r.published = [] ∧
      r.session.parses = s.parses.insert uri (Parse.ofText text (some name)) ∧
      r.session = (s.stepUnanalyzed o).session ∧
      ∀ fs : Run, (initial dir).sent (es ++ (o, some analyzer) :: fs)
        = (initial dir).sent es ++ (s.stepUnanalyzed o).published
          ++ (s.stepUnanalyzed o).session.sent fs := by
  intro s r
  have hparse : parseOf uri text = .ok (Parse.ofText text (some name)) :=
    parseOf_eq_ok_iff.mpr ⟨_, hname, rfl⟩
  have hplain : s.stepUnanalyzed o
      = ((s.stored o).withParse uri (Parse.ofText text (some name))).accepted := by
    rw [hsubmits.stepUnanalyzed_eq, parseOnly, hparse]
  have hr : r = { s.stepUnanalyzed o with reply := .error fault, calls := [(name, text)] } := by
    rw [hsubmits.stepUnanalyzed_eq]
    exact (hsubmits.step_eq _).trans (parseAndAnalyze_of_breaksDown hname hfails)
  have hsession : r.session = (s.stepUnanalyzed o).session := by rw [hr]
  refine ⟨?_, ?_, ?_, ?_, hsession, fun fs => ?_⟩
  · rw [hr]
  · rw [hsession, hplain]
    rfl
  · rw [hr, hplain]
    rfl
  · rw [hsession, hplain]
    rfl
  have hsent : s.sent ((o, some analyzer) :: fs) = r.published ++ r.session.sent fs := rfl
  rw [sent_append, hsent, hsession, hr, List.append_assoc]

/-- A result whose last report has a caller on a line that no client can name, behind a report that
could be shown. -/
def lateFault : AnalysisResult where
  analyzed := ["/w/a.stg", "/w/b.stg"]
  toplevel := [⟨some "/w/b.stg", 1, "first", none, none⟩]
  inference := [⟨[⟨some "/w/a.stg", 3, "f"⟩, ⟨some "/w/b.stg", -1, "g"⟩], "second", true, .plain⟩]
  names := .empty

/-- An analyzer that always has that result. -/
def faulty : Analyzer := fun _ _ => .ok lateFault

/-- A document that was opened and analyzed. -/
def savableRun : Run :=
  [(.atRoot (.start none none), none),
    (.atRoot (.didOpen "file:///w/a.stg" "("),
      some fun name _ => .ok (.clean [name, "/w/b.stg"]))]

/-- A save of another document, which is not open, when it is on disk. -/
def saveFromDisk : Occasion := ⟨.didSave "file:///w/b.stg", fun _ => .ok ")", "/"⟩

theorem step_of_breaksDown_lateFault :
    ((initial "/").after savableRun).Submits saveFromDisk "file:///w/b.stg" ")" ∧
      Uri.filename? "file:///w/b.stg" = .ok (some "/w/b.stg") ∧
      ∃ fault, BreaksDown ((initial "/").after savableRun).resolver faulty "file:///w/b.stg"
          "/w/b.stg" ")" fault ∧
        (((initial "/").after savableRun).step (some faulty) saveFromDisk).reply = .error fault ∧
        (((initial "/").after savableRun).step (some faulty) saveFromDisk).session.cache
          = ((initial "/").after savableRun).cache ∧
        ((initial "/").after savableRun).cache.keys = ["file:///w/a.stg", "file:///w/b.stg"] ∧
        -- the live parse of what was on disk stays
        (((initial "/").after savableRun).step (some faulty) saveFromDisk).session.parses.keys
          = ["file:///w/a.stg", "file:///w/b.stg"] := by
  have hsubmits : ((initial "/").after savableRun).Submits saveFromDisk "file:///w/b.stg" ")" :=
    Or.inr (by decide +kernel)
  have hname : Uri.filename? "file:///w/b.stg" = .ok (some "/w/b.stg") := by decide +kernel
  have hlast : (Report.inference ⟨[⟨some "/w/a.stg", 3, "f"⟩, ⟨some "/w/b.stg", -1, "g"⟩], "second",
      true, .plain⟩).fault? lateFault.names ((initial "/").after savableRun).resolver ≠ none := by
    decide +kernel
  have hbroken : ∃ fault, BreaksDown ((initial "/").after savableRun).resolver faulty
      "file:///w/b.stg" "/w/b.stg" ")" fault :=
    exists_breaksDown_of_mem_reports rfl (by simp [lateFault, AnalysisResult.reports]) hlast
  obtain ⟨fault, hfails⟩ := hbroken
  obtain ⟨hreply, hcache, -⟩ := step_of_breaksDown "/" savableRun hsubmits hname hfails
  exact ⟨hsubmits, hname, fault, hfails, hreply, hcache, by decide +kernel, by decide +kernel⟩

end Session

end StagedDiagnostics
