import Mathlib.Data.List.Basic
import StagedDiagnostics.Cache

/-!
# Proofs/Buckets/Attribution — every report ends up where it belongs

    report ──attribution──▸ document ─┐
    report ──toDiagnostic──▸ diagnostic ──▸ placement

Reports are taken one by one, and each may be refused, dropped or placed.  Which of the three
happens hangs on the report alone, never on the buckets (`placed?_eq`).  So what becomes of a whole
result is said by the list of its placements up to the first refusal (`extendWith_eq`), and two
facts about pushing a list of placements give the content and the order of the buckets:

* `get?_pushAll` — a bucket grows by its own placements, in their order;
* `keys_pushAll` — new buckets stand behind the old ones, in the order of their first placement.
-/

namespace StagedDiagnostics

/-! ## Keys and sums under writing -/

/-- Setting the list of a key puts its elements in the place of those of the old one. -/
theorem Entries.length_flatMap_insert {κ α : Type} [DecidableEq κ] (k : κ) (l : List α)
    (es : List (κ × List α)) :
    ((insert k l es).flatMap Prod.snd).length + ((get? k es).getD []).length
      = (es.flatMap Prod.snd).length + l.length := by
  induction es with
  | nil => simp [insert, get?]
  | cons e es ih =>
    by_cases h : e.1 = k
    · simp only [insert, get?, if_pos h, List.flatMap_cons, List.length_append, Option.getD_some]
      omega
    · simp only [insert, get?, if_neg h, List.flatMap_cons, List.length_append]
      omega

namespace Table

variable {κ α γ : Type} [DecidableEq κ]

theorem removeAll_congr {ks ls : List κ} (h : ∀ k, k ∈ ks ↔ k ∈ ls) (js : List κ) :
    js.removeAll ks = js.removeAll ls := by
  refine List.filter_congr fun j _ => ?_
  simp only [List.elem_eq_mem, h j]

theorem ite_mem_eq_append_removeAll (ks : List κ) (k : κ) :
    (if k ∈ ks then ks else ks ++ [k]) = ks ++ [k].removeAll ks := by
  by_cases h : k ∈ ks <;> simp [List.removeAll, h]

/-- **Writing keys one after another** adds the new ones at the end, each where it is first
written. -/
theorem keys_foldl {f : Table κ α → γ → Table κ α} {key : γ → κ}
    (hf : ∀ t x, (f t x).keys = if key x ∈ t.keys then t.keys else t.keys ++ [key x])
    (t : Table κ α) (xs : List γ) :
    (xs.foldl f t).keys = t.keys ++ ((xs.map key).removeAll t.keys).eraseDups := by
  induction xs generalizing t with
  | nil => simp [List.removeAll]
  | cons x xs ih =>
    rw [List.foldl_cons, ih, hf]
    by_cases hx : key x ∈ t.keys
    · simp [List.removeAll, hx]
    · rw [if_neg hx]
      have hdrop : (xs.map key).removeAll (t.keys ++ [key x])
          = ((xs.map key).removeAll t.keys).filter fun k => !k == key x := by
        simp only [List.removeAll, List.filter_filter, List.elem_eq_mem, List.mem_append,
          List.mem_singleton]
        refine List.filter_congr fun k _ => ?_
        by_cases hk : k = key x <;> simp [hk]
      have hkeep : ((x :: xs).map key).removeAll t.keys
          = key x :: (xs.map key).removeAll t.keys := by
        simp [List.removeAll, hx]
      rw [hdrop, hkeep, List.eraseDups_cons, List.append_assoc, List.singleton_append]

end Table

/-! ## What becomes of a report -/

namespace Report

/-- The document a report is attributed to: that of its file, if it has one. -/
def attribution (r : Report) (resolver : Resolver) : Except Fault (Option Uri) :=
  r.file? >>= resolver.resolve?

/-- The document of a report that can be attributed to one. -/
def document? (r : Report) (resolver : Resolver) : Option Uri :=
  match r.attribution resolver with
  | .ok uri => uri
  | .error _ => none

/-- Why a report is refused, if it is: its document cannot be told, or it has a document and cannot
be converted. -/
def fault? (r : Report) (names : VirtualNames) (resolver : Resolver) : Option Fault :=
  match r.attribution resolver, r.toDiagnostic names resolver none with
  | .error fault, _ => some fault
  | .ok none, _ => none
  | .ok (some _), .error fault => some fault
  | .ok (some _), .ok _ => none

/-- What a report adds to the buckets: its diagnostic, in the bucket of its document. -/
def placement? (r : Report) (names : VirtualNames) (resolver : Resolver) :
    Option (Uri × Diagnostic) :=
  match r.document? resolver, r.toDiagnostic names resolver none with
  | some uri, .ok d => some (uri, d)
  | _, _ => none

/-- **A report is refused, dropped or placed**, whatever is in the buckets. -/
theorem placed?_eq (r : Report) (names : VirtualNames) (resolver : Resolver) :
    r.placed? names resolver
      = (r.fault? names resolver).elim (.ok (r.placement? names resolver)) .error := by
  have hplaced : r.placed? names resolver = r.attribution resolver >>= fun uri =>
      uri.elim (.ok none) fun uri =>
        r.toDiagnostic names resolver none >>= fun d => .ok (some (uri, d)) := by
    rw [placed?, attribution]
    cases r.file? with
    | error fault => rfl
    | ok file =>
      change (resolver.resolve? file >>= _) = (resolver.resolve? file >>= _)
      congr 1
      funext uri
      cases uri <;> rfl
  rw [hplaced, fault?, placement?, document?]
  cases r.attribution resolver with
  | error fault => rfl
  | ok uri =>
    cases uri with
    | none => rfl
    | some uri => cases r.toDiagnostic names resolver none <;> rfl

/-- A report that is not refused is placed in its document, if it has one. -/
theorem map_fst_placement? {r : Report} {names : VirtualNames} {resolver : Resolver}
    (h : r.fault? names resolver = none) :
    (r.placement? names resolver).map Prod.fst = r.document? resolver := by
  rw [fault?] at h
  rw [placement?, document?]
  cases ha : r.attribution resolver with
  | error fault => rfl
  | ok uri =>
    cases uri with
    | none => rfl
    | some uri =>
      cases hd : r.toDiagnostic names resolver none with
      | error fault => simp [ha, hd] at h
      | ok d => rfl

/-- The document of a report is that of some file. -/
theorem exists_resolve_of_document? {r : Report} {resolver : Resolver} {uri : Uri}
    (h : r.document? resolver = some uri) : ∃ file, resolver.resolve file = .ok uri := by
  rw [document?, attribution] at h
  cases hf : r.file? with
  | error fault => simp [hf, bind, Except.bind] at h
  | ok file =>
    cases file with
    | none => simp [hf, bind, Except.bind, Resolver.resolve?] at h
    | some file =>
      refine ⟨file, ?_⟩
      cases hr : resolver.resolve file with
      | error fault => simp [hf, bind, Except.bind, Resolver.resolve?, hr, Except.map] at h
      | ok other =>
        simp only [hf, bind, Except.bind, Resolver.resolve?, hr, Except.map] at h
        rw [Option.some.inj h]

/-- The placements of reports, in their order. -/
def placements (names : VirtualNames) (resolver : Resolver) (rs : List Report) :
    List (Uri × Diagnostic) :=
  rs.filterMap fun r => r.placement? names resolver

/-- The number of reports before the first one that is refused, and of all of them if none is. -/
def accepted (names : VirtualNames) (resolver : Resolver) (rs : List Report) : Nat :=
  rs.findIdx fun r => (r.fault? names resolver).isSome

theorem fault?_eq_none_of_mem_take {names : VirtualNames} {resolver : Resolver} {rs : List Report}
    {r : Report} (h : r ∈ rs.take (accepted names resolver rs)) :
    r.fault? names resolver = none := by
  obtain ⟨i, hi, rfl⟩ := List.getElem_of_mem h
  rw [List.length_take, Nat.lt_min] at hi
  have hnot := List.not_of_lt_findIdx hi.1
  rw [List.getElem_take]
  simpa using hnot

theorem accepted_eq_length {names : VirtualNames} {resolver : Resolver} {rs : List Report}
    (h : ∀ r ∈ rs, r.fault? names resolver = none) : accepted names resolver rs = rs.length :=
  List.findIdx_eq_length.mpr fun r hr => by rw [h r hr, Option.isSome_none]

/-- There is a fault exactly if some report is refused. -/
theorem fault?_accepted_eq_none_iff {names : VirtualNames} {resolver : Resolver}
    {rs : List Report} :
    (rs[accepted names resolver rs]?.bind fun r => r.fault? names resolver) = none
      ↔ ∀ r ∈ rs, r.fault? names resolver = none := by
  constructor
  · intro hnone r hr
    have hall : ¬ accepted names resolver rs < rs.length := by
      intro hlt
      have hsome : (rs[accepted names resolver rs].fault? names resolver).isSome = true :=
        @List.findIdx_getElem _ _ _ hlt
      rw [List.getElem?_eq_getElem hlt, Option.bind_some] at hnone
      rw [hnone] at hsome
      cases hsome
    have htake : r ∈ rs.take (accepted names resolver rs) := by
      rwa [List.take_of_length_le (Nat.le_of_not_lt hall)]
    exact fault?_eq_none_of_mem_take htake
  · intro h
    rw [accepted_eq_length h, List.getElem?_length]
    rfl

/-- The documents of the placements of reports that are not refused are the documents of those
reports that have one. -/
theorem map_fst_placements {names : VirtualNames} {resolver : Resolver} {rs : List Report}
    (h : ∀ r ∈ rs, r.fault? names resolver = none) :
    (placements names resolver rs).map Prod.fst = rs.filterMap fun r => r.document? resolver := by
  rw [placements, List.map_filterMap]
  exact List.filterMap_congr fun r hr => map_fst_placement? (h r hr)

/-- **Reports that are not refused convert**, and the conversions of those with a document are
their placements there. -/
theorem mapM_toDiagnostic {names : VirtualNames} {resolver : Resolver} {rs : List Report}
    (h : ∀ r ∈ rs, r.fault? names resolver = none) (uri : Uri) :
    (rs.filter fun r => r.document? resolver = some uri).mapM
        (fun r => r.toDiagnostic names resolver none)
      = .ok (((placements names resolver rs).filter fun x => x.1 = uri).map Prod.snd) := by
  induction rs with
  | nil => rfl
  | cons r rs ih =>
    have ih := ih fun q hq => h q (List.mem_cons_of_mem r hq)
    have hr := h r List.mem_cons_self
    have hcons : placements names resolver (r :: rs)
        = (r.placement? names resolver).toList ++ placements names resolver rs := by
      rw [placements, List.filterMap_cons]
      cases r.placement? names resolver <;> rfl
    rw [hcons]
    cases hd : r.document? resolver with
    | none =>
      have hp : r.placement? names resolver = none := by rw [placement?, hd]
      simpa [hd, hp] using ih
    | some other =>
      cases hc : r.toDiagnostic names resolver none with
      | error fault =>
        have hmap := map_fst_placement? hr
        rw [placement?, hd, hc] at hmap
        cases hmap
      | ok d =>
        have hp : r.placement? names resolver = some (other, d) := by rw [placement?, hd, hc]
        by_cases hu : other = uri
        · subst hu
          rw [List.filter_cons_of_pos (by simpa using hd), List.mapM_cons, hc, ih, hp]
          simp [bind, Except.bind, pure, Except.pure]
        · rw [List.filter_cons_of_neg (by simpa [hd] using hu), ih, hp]
          simp [hu]

end Report

/-! ## Pushing placements -/

namespace Buckets

/-- Puts diagnostics into the buckets of their documents, one after another. -/
def pushAll (b : Buckets) (xs : List (Uri × Diagnostic)) : Buckets :=
  xs.foldl (fun b x => b.push x.1 x.2) b

/-- **A bucket grows by its own placements**, in their order. -/
theorem get?_pushAll (b : Buckets) (xs : List (Uri × Diagnostic)) (uri : Uri) :
    ((b.pushAll xs).get? uri).getD []
      = (b.get? uri).getD [] ++ (xs.filter fun x => x.1 = uri).map Prod.snd := by
  induction xs generalizing b with
  | nil => simp [pushAll]
  | cons x xs ih =>
    obtain ⟨other, d⟩ := x
    have hstep : (b.pushAll ((other, d) :: xs)) = (b.push other d).pushAll xs := rfl
    rw [hstep, ih, get?_push]
    by_cases h : other = uri
    · subst h
      simp
    · simp [h]

/-- **New buckets stand behind the old ones**, in the order of their first placement. -/
theorem keys_pushAll (b : Buckets) (xs : List (Uri × Diagnostic)) :
    (b.pushAll xs).keys = b.keys ++ ((xs.map Prod.fst).removeAll b.keys).eraseDups :=
  Table.keys_foldl (fun b x => keys_push b x.1 x.2) b xs

/-- The number of diagnostics in all buckets. -/
def count (b : Buckets) : Nat := (b.entries.flatMap Prod.snd).length

theorem count_insert (b : Buckets) (uri : Uri) (ds : List Diagnostic) :
    count (b.insert uri ds) + ((b.get? uri).getD []).length = b.count + ds.length :=
  Entries.length_flatMap_insert uri ds b.entries

theorem count_push (b : Buckets) (uri : Uri) (d : Diagnostic) :
    (b.push uri d).count = b.count + 1 := by
  have h := count_insert b uri ((b.get? uri).getD [] ++ [d])
  rw [List.length_append, List.length_singleton] at h
  rw [push, Table.modify]
  omega

/-- Every placement is one diagnostic more. -/
theorem count_pushAll (b : Buckets) (xs : List (Uri × Diagnostic)) :
    (b.pushAll xs).count = b.count + xs.length := by
  induction xs generalizing b with
  | nil => rfl
  | cons x xs ih =>
    have hstep : b.pushAll (x :: xs) = (b.push x.1 x.2).pushAll xs := rfl
    rw [hstep, ih, count_push, List.length_cons]
    omega

/-! ## Buckets before the first report -/

/-- Setting an absent key to nothing adds no diagnostic. -/
theorem count_insert_nil {b : Buckets} {uri : Uri} (h : b.get? uri = none) :
    count (b.insert uri []) = b.count := by
  have hcount := count_insert b uri []
  rw [h] at hcount
  exact hcount

theorem keys_seed (uris : List Uri) : (seed uris).keys = uris.eraseDups := by
  have h := Table.keys_foldl (fun (b : Buckets) uri => b.keys_insert uri []) Table.empty uris
  rw [List.map_id'] at h
  rw [seed, h, Table.keys_empty, List.nil_append]
  congr 1
  exact List.filter_eq_self.mpr fun _ _ => rfl

/-- Nothing is in the buckets at the start. -/
theorem get?_seed (uris : List Uri) (uri : Uri) : ((seed uris).get? uri).getD [] = [] := by
  have hempty : ∀ b : Buckets, (b.get? uri).getD [] = [] →
      ((uris.foldl (fun b u => b.insert u []) b).get? uri).getD [] = [] := by
    induction uris with
    | nil => exact fun b hb => hb
    | cons other uris ih =>
      intro b hb
      refine ih _ ?_
      rw [Table.get?_insert]
      split
      · rfl
      · exact hb
  exact hempty Table.empty rfl

theorem count_seed (uris : List Uri) : (seed uris).count = 0 := by
  have hnil : ∀ e ∈ (seed uris).entries, e.2 = [] := by
    intro e he
    have hget := ((seed uris).get?_eq_some_iff e.1 e.2).mpr he
    have hseed := get?_seed uris e.1
    rwa [hget, Option.getD_some] at hseed
  exact List.length_eq_zero_iff.mpr (List.flatMap_eq_nil_iff.mpr hnil)

/-- A bucket that is added is empty. -/
theorem get?_ensure (b : Buckets) (uri other : Uri) :
    ((b.ensure uri).get? other).getD [] = (b.get? other).getD [] := by
  rw [ensure]
  by_cases h : b.contains uri = true
  · rw [if_pos h]
  · rw [if_neg h, Table.get?_insert]
    split
    · rename_i heq
      subst heq
      rw [Option.not_isSome_iff_eq_none.mp h]
      rfl
    · rfl

theorem count_ensure (b : Buckets) (uri : Uri) : (b.ensure uri).count = b.count := by
  rw [ensure]
  by_cases h : b.contains uri = true
  · rw [if_pos h]
  · rw [if_neg h]
    exact count_insert_nil (Option.not_isSome_iff_eq_none.mp h)

/-! ## Filling the buckets -/

/-- **Reports push their placements up to the first one that is refused**, which gives the
fault. -/
theorem extendWith_eq (names : VirtualNames) (resolver : Resolver) (b : Buckets)
    (rs : List Report) :
    extendWith names resolver b rs
      = (b.pushAll (Report.placements names resolver
            (rs.take (Report.accepted names resolver rs))),
          rs[Report.accepted names resolver rs]?.bind fun r => r.fault? names resolver) := by
  induction rs generalizing b with
  | nil => rfl
  | cons r rs ih =>
    rw [extendWith, r.placed?_eq, Report.accepted, List.findIdx_cons]
    cases hr : r.fault? names resolver with
    | some fault => simp [hr, Report.placements, pushAll]
    | none =>
      simp only [Option.isSome_none, cond_false, List.take_succ_cons, List.getElem?_cons_succ]
      rw [Report.placements, List.filterMap_cons]
      cases r.placement? names resolver with
      | none => exact ih b
      | some x => exact ih (b.push x.1 x.2)

/-- The buckets `filled` hold what the buckets `b` held and, behind it, what some reports say. -/
structure Holds (names : VirtualNames) (resolver : Resolver) (b : Buckets) (rs : List Report)
    (filled : Buckets) : Prop where
  /-- Behind what it held, a bucket holds the conversions of the reports on its document. -/
  contents : ∀ uri, ∃ ds,
    (rs.filter fun r => r.document? resolver = some uri).mapM
        (fun r => r.toDiagnostic names resolver none) = .ok ds ∧
      (filled.get? uri).getD [] = (b.get? uri).getD [] ++ ds
  /-- Behind the old buckets stand the new ones, as they were first asked for. -/
  keys : filled.keys
    = b.keys ++ ((rs.filterMap fun r => r.document? resolver).removeAll b.keys).eraseDups
  /-- Every report with a document is one diagnostic more. -/
  count : filled.count = b.count + (rs.filterMap fun r => r.document? resolver).length

theorem holds_pushAll {names : VirtualNames} {resolver : Resolver} {rs : List Report}
    (h : ∀ r ∈ rs, r.fault? names resolver = none) (b : Buckets) :
    Holds names resolver b rs (b.pushAll (Report.placements names resolver rs)) where
  contents uri := ⟨_, Report.mapM_toDiagnostic h uri, b.get?_pushAll _ uri⟩
  keys := by rw [keys_pushAll, Report.map_fst_placements h]
  count := by rw [count_pushAll, ← Report.map_fst_placements h, List.length_map]

end Buckets

/-! ## The pass of a result -/

/-- **A result makes a pass if all its files have documents and none of its reports is refused**,
and this pass. -/
theorem Pass.ofResult_eq_ok_iff {entry : Uri} {result : AnalysisResult} {resolver : Resolver}
    {p : Pass} :
    Pass.ofResult entry result resolver = .ok p
      ↔ ∃ files, result.analyzed.mapM resolver.resolve = .ok files ∧
        (∀ r ∈ result.reports, r.fault? result.names resolver = none) ∧
        p = ⟨entry, ((Buckets.seed files).pushAll
          (Report.placements result.names resolver result.reports)).ensure entry⟩ := by
  rw [Pass.ofResult, Buckets.ofResult]
  cases result.analyzed.mapM resolver.resolve with
  | error fault => simp [bind, Except.bind, Except.map]
  | ok files =>
    change (Buckets.ofResultFor files result resolver).map _ = _ ↔ _
    rw [Buckets.ofResultFor, Buckets.extend, Buckets.extendWith_eq]
    constructor
    · intro h
      split at h
      · rename_i b heq
        obtain ⟨rfl, hnone⟩ := Prod.mk.inj heq
        have hall := Report.fault?_accepted_eq_none_iff.mp hnone
        rw [Report.accepted_eq_length hall, List.take_length] at h
        exact ⟨files, rfl, hall, (Except.ok.inj h).symm⟩
      · cases h
    · rintro ⟨_, hfiles, hall, rfl⟩
      obtain rfl := Except.ok.inj hfiles
      rw [Report.fault?_accepted_eq_none_iff.mpr hall, Report.accepted_eq_length hall,
        List.take_length]
      rfl

/-- The diagnostics of a pass are the conversions of the reports, document by document. -/
theorem Pass.mapM_toDiagnostic_of_ofResult {entry : Uri} {result : AnalysisResult}
    {resolver : Resolver} {p : Pass} (h : Pass.ofResult entry result resolver = .ok p)
    (uri : Uri) :
    (result.reports.filter fun r => r.document? resolver = some uri).mapM
        (fun r => r.toDiagnostic result.names resolver none) = .ok (p.diagnosticsFor uri) := by
  obtain ⟨files, -, hall, rfl⟩ := Pass.ofResult_eq_ok_iff.mp h
  rw [Report.mapM_toDiagnostic hall, Pass.diagnosticsFor, Buckets.get?_ensure,
    Buckets.get?_pushAll, Buckets.get?_seed, List.nil_append]

/-- **The documents of a pass**: the analyzed files, then the documents reports are attributed to,
then the entry, each where it comes first. -/
theorem Pass.uris_of_ofResult {entry : Uri} {result : AnalysisResult} {resolver : Resolver}
    {p : Pass} (h : Pass.ofResult entry result resolver = .ok p) :
    ∃ files, result.analyzed.mapM resolver.resolve = .ok files ∧
      p.uris = files.eraseDups
        ++ ((result.reports.filterMap fun r => r.document? resolver).removeAll files).eraseDups
        ++ [entry].removeAll (files ++ result.reports.filterMap fun r => r.document? resolver) := by
  obtain ⟨files, hfiles, hall, rfl⟩ := Pass.ofResult_eq_ok_iff.mp h
  refine ⟨files, hfiles, ?_⟩
  rw [Pass.uris, Buckets.keys_ensure, Table.ite_mem_eq_append_removeAll, Buckets.keys_pushAll,
    Buckets.keys_seed, Report.map_fst_placements hall,
    Table.removeAll_congr fun _ => List.mem_eraseDups]
  congr 1
  refine Table.removeAll_congr (fun uri => ?_) _
  by_cases hu : uri ∈ files <;> simp [List.mem_eraseDups, List.removeAll, hu]

/-- Every report with a document is one diagnostic of the pass. -/
theorem Pass.count_of_ofResult {entry : Uri} {result : AnalysisResult} {resolver : Resolver}
    {p : Pass} (h : Pass.ofResult entry result resolver = .ok p) :
    Buckets.count p.buckets
      = (result.reports.filterMap fun r => r.document? resolver).length := by
  obtain ⟨files, -, hall, rfl⟩ := Pass.ofResult_eq_ok_iff.mp h
  rw [Buckets.count_ensure, Buckets.count_pushAll, Buckets.count_seed, Nat.zero_add,
    ← Report.map_fst_placements hall, List.length_map]

/-- What has been resolved was resolved from some file. -/
theorem Resolver.exists_resolve_of_mapM {resolver : Resolver} {files : List String}
    {uris : List Uri} (h : files.mapM resolver.resolve = .ok uris) {uri : Uri} (hmem : uri ∈ uris) :
    ∃ file, resolver.resolve file = .ok uri := by
  induction files generalizing uris with
  | nil =>
    obtain rfl := Except.ok.inj h
    cases hmem
  | cons file files ih =>
    rw [List.mapM_cons] at h
    cases hr : resolver.resolve file with
    | error fault =>
      rw [hr] at h
      cases h
    | ok other =>
      cases hrs : files.mapM resolver.resolve with
      | error fault =>
        rw [hr, hrs] at h
        cases h
      | ok others =>
        rw [hr, hrs] at h
        obtain rfl := Except.ok.inj h
        rcases List.mem_cons.mp hmem with rfl | hmem
        · exact ⟨file, hr⟩
        · exact ih hrs hmem

/-- A pass covers its entry and documents of files, and nothing else. -/
theorem Pass.eq_or_exists_resolve_of_covers {entry : Uri} {result : AnalysisResult}
    {resolver : Resolver} {p : Pass} (h : Pass.ofResult entry result resolver = .ok p) {uri : Uri}
    (hcovers : p.covers uri = true) : uri = entry ∨ ∃ file, resolver.resolve file = .ok uri := by
  obtain ⟨files, hfiles, huris⟩ := Pass.uris_of_ofResult h
  rw [← p.mem_uris_iff, huris, List.mem_append, List.mem_append, List.mem_eraseDups,
    List.mem_eraseDups] at hcovers
  rcases hcovers with (hmem | hmem) | hmem
  · exact Or.inr (Resolver.exists_resolve_of_mapM hfiles hmem)
  · obtain ⟨r, -, hr⟩ := List.mem_filterMap.mp (List.mem_filter.mp hmem).1
    exact Or.inr (Report.exists_resolve_of_document? hr)
  · exact Or.inl (List.mem_singleton.mp (List.mem_filter.mp hmem).1)

/-! ## The account of a result -/

/-- **Nothing is lost, doubled or moved.**  The reports before the first one that is refused, and
no others, are in the buckets, each in the bucket of its document, behind what was there, in their
order; a fault is that of the report they end at.  If a pass is made of the result, it has the
analyzed files, the documents of the reports and its entry, in this order, and as many diagnostics
as there are reports with a document. -/
theorem Buckets.extend_holds (b : Buckets) (result : AnalysisResult) (resolver : Resolver) :
    let k := Report.accepted result.names resolver result.reports
    Buckets.Holds result.names resolver b (result.reports.take k) (b.extend result resolver).1 ∧
      (b.extend result resolver).2
        = (result.reports[k]?.bind fun r => r.fault? result.names resolver) ∧
      ∀ entry p, Pass.ofResult entry result resolver = .ok p →
        ∃ files, result.analyzed.mapM resolver.resolve = .ok files ∧
          p.uris = files.eraseDups
            ++ ((result.reports.filterMap fun r => r.document? resolver).removeAll files).eraseDups
            ++ [entry].removeAll
                (files ++ result.reports.filterMap fun r => r.document? resolver) ∧
          (∀ uri, (result.reports.filter fun r => r.document? resolver = some uri).mapM
            (fun r => r.toDiagnostic result.names resolver none) = .ok (p.diagnosticsFor uri)) ∧
          Buckets.count p.buckets
            = (result.reports.filterMap fun r => r.document? resolver).length := by
  intro k
  have hfilled := Buckets.extendWith_eq result.names resolver b result.reports
  refine ⟨?_, ?_, fun entry p hp => ?_⟩
  · rw [Buckets.extend, hfilled]
    exact Buckets.holds_pushAll (fun r hr => Report.fault?_eq_none_of_mem_take hr) b
  · rw [Buckets.extend, hfilled]
  · obtain ⟨files, hfiles, huris⟩ := Pass.uris_of_ofResult hp
    exact ⟨files, hfiles, huris, Pass.mapM_toDiagnostic_of_ofResult hp, Pass.count_of_ofResult hp⟩

/-- Two files, one of them spelt in two ways, with a report on each spelling, one on another
document, and two that belong nowhere. -/
def spelledTwice : AnalysisResult where
  analyzed := ["a.stg", "b.stg", "./a.stg"]
  toplevel := [⟨some "/w/x/../a.stg", 1, "first", none, none⟩, ⟨none, -1, "lost", none, none⟩,
    ⟨some "Untitled-1", 2, "second", none, none⟩]
  inference := [⟨[⟨some "a.stg", 3, "f"⟩, ⟨none, -1, "g"⟩], "third", true, .plain⟩,
    ⟨[⟨none, 1, "f"⟩], "lost", true, .plain⟩]
  names := .empty

theorem extend_holds_spelledTwice :
    ∃ p, Pass.ofResult "file:///w/c.stg" spelledTwice ⟨"/w"⟩ = .ok p ∧
      p.uris = ["file:///w/a.stg", "file:///w/b.stg", "untitled:Untitled-1", "file:///w/c.stg"] ∧
      Buckets.count p.buckets = 3 := by
  have hok : (Pass.ofResult "file:///w/c.stg" spelledTwice ⟨"/w"⟩).isOk = true := by
    decide +kernel
  cases hp : Pass.ofResult "file:///w/c.stg" spelledTwice ⟨"/w"⟩ with
  | error fault =>
    rw [hp] at hok
    cases hok
  | ok p =>
    obtain ⟨files, hfiles, huris, -, hcount⟩ :=
      (Buckets.extend_holds Table.empty spelledTwice ⟨"/w"⟩).2.2 _ p hp
    have hresolved : spelledTwice.analyzed.mapM (Resolver.mk "/w").resolve
        = .ok ["file:///w/a.stg", "file:///w/b.stg", "file:///w/a.stg"] := by decide +kernel
    obtain rfl := Except.ok.inj (hfiles.symm.trans hresolved)
    refine ⟨p, rfl, ?_, ?_⟩
    · rw [huris]
      decide +kernel
    · rw [hcount]
      decide +kernel

end StagedDiagnostics
