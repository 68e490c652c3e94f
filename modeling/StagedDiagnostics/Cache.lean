import StagedDiagnostics.Buckets

/-!
# Cache — the completed passes, by the documents they cover

A **pass** is one completed analysis: the document it was started from, its entry, and the
diagnostics it has for each document it covers.  The cache holds, for each document, the passes that
cover it in the order of their completion, or the mark that it is not subject to analysis.

* `record` — a new pass takes the place of the earlier pass of the same entry, everywhere;
* `discard` — a closed document takes the passes started from it along;
* `full` — a document shows the diagnostics of its passes, one pass after another.
-/

namespace StagedDiagnostics

/-- A completed pass. -/
structure Pass where
  entry : Uri
  buckets : Buckets

namespace Pass

/-- The pass a result makes; its entry is covered in any case. -/
def ofResult (entry : Uri) (result : AnalysisResult) (resolver : Resolver) : Except Fault Pass :=
  (Buckets.ofResult result resolver).map fun b => ⟨entry, b.ensure entry⟩

/-- The documents a pass covers, in order. -/
def uris (p : Pass) : List Uri := p.buckets.keys

/-- Whether a pass covers a document. -/
def covers (p : Pass) (uri : Uri) : Bool := p.buckets.contains uri

/-- What a pass says about a document. -/
def diagnosticsFor (p : Pass) (uri : Uri) : List Diagnostic := (p.buckets.get? uri).getD []

theorem nodup_uris (p : Pass) : p.uris.Nodup := p.buckets.nodup_keys

theorem mem_uris_iff (p : Pass) (uri : Uri) : uri ∈ p.uris ↔ p.covers uri = true :=
  (p.buckets.contains_iff uri).symm

end Pass

/-- What the cache knows of a document. -/
inductive Entry
  | outOfScope
  | passes (ps : List Pass)

namespace Entry

/-- The passes of an entry. -/
def toList : Entry → List Pass
  | outOfScope => []
  | passes ps => ps

/-- An entry without the passes started from a document. -/
def without (entry : Uri) : Entry → Entry
  | outOfScope => outOfScope
  | passes ps => passes (ps.filter fun p => p.entry ≠ entry)

/-- Whether a pass of an entry was started from a document. -/
def startedFrom (entry : Uri) (e : Entry) : Bool := e.toList.any fun p => p.entry = entry

@[simp] theorem toList_outOfScope : outOfScope.toList = [] := rfl

@[simp] theorem toList_passes (ps : List Pass) : (passes ps).toList = ps := rfl

@[simp] theorem toList_without (entry : Uri) (e : Entry) :
    (e.without entry).toList = e.toList.filter fun p => p.entry ≠ entry := by
  cases e <;> rfl

end Entry

/-- The cache of passes. -/
abbrev Cache := Table Uri Entry

namespace Cache

/-- The passes that cover a document. -/
def passes (c : Cache) (uri : Uri) : List Pass := ((c.get? uri).map Entry.toList).getD []

/-- What a document is shown. -/
def full (c : Cache) (uri : Uri) : List Diagnostic :=
  (c.passes uri).flatMap fun p => p.diagnosticsFor uri

@[simp] theorem passes_empty (uri : Uri) : passes (Table.empty : Cache) uri = [] := rfl

theorem passes_eq_of_get? {c : Cache} {uri : Uri} {e : Entry} (h : c.get? uri = some e) :
    c.passes uri = e.toList := by
  rw [passes, h]; rfl

/-- A new entry changes what is known of its own document and of no other. -/
theorem passes_insert (c : Cache) (uri other : Uri) (e : Entry) :
    passes (c.insert uri e) other = if uri = other then e.toList else c.passes other := by
  rw [passes, Table.get?_insert]
  split
  · rfl
  · rfl

/-! ## Writing -/

/-- Replaces the passes of a document. -/
def replace (c : Cache) (uri : Uri) (ps : List Pass) : Cache := c.insert uri (.passes ps)

/-- Marks a document as not subject to analysis. -/
def markOutOfScope (c : Cache) (uri : Uri) : Cache := c.insert uri .outOfScope

/-- Forgets the passes started from a document and keeps every entry. -/
def strip (c : Cache) (entry : Uri) : Cache := c.map fun _ e => e.without entry

/-- Puts a pass behind the passes of a document. -/
def append (p : Pass) (c : Cache) (uri : Uri) : Cache :=
  c.modify uri fun e => .passes ((e.map Entry.toList).getD [] ++ [p])

/-- Records a completed pass for every document it covers. -/
def record (c : Cache) (p : Pass) : Cache := p.uris.foldl (append p) (c.strip p.entry)

theorem passes_replace (c : Cache) (uri other : Uri) (ps : List Pass) :
    (c.replace uri ps).passes other = if uri = other then ps else c.passes other :=
  passes_insert c uri other _

theorem passes_markOutOfScope (c : Cache) (uri other : Uri) :
    (c.markOutOfScope uri).passes other = if uri = other then [] else c.passes other :=
  passes_insert c uri other _

@[simp] theorem keys_strip (c : Cache) (entry : Uri) : (c.strip entry).keys = c.keys :=
  Table.keys_map c _

@[simp] theorem passes_strip (c : Cache) (entry uri : Uri) :
    (c.strip entry).passes uri = (c.passes uri).filter fun p => p.entry ≠ entry := by
  rw [passes, strip, Table.get?_map, passes]
  cases c.get? uri with
  | none => rfl
  | some e => exact e.toList_without entry

theorem passes_append (p : Pass) (c : Cache) (uri other : Uri) :
    (append p c uri).passes other
      = if uri = other then c.passes other ++ [p] else c.passes other := by
  rw [append, Table.modify, passes_insert]
  split
  · rename_i h
    subst h
    rfl
  · rfl

/-- Putting a pass behind the passes of several documents reaches each of them once. -/
theorem passes_foldl_append (p : Pass) {uris : List Uri} (hn : uris.Nodup) (c : Cache)
    (other : Uri) :
    (uris.foldl (append p) c).passes other
      = c.passes other ++ if other ∈ uris then [p] else [] := by
  induction uris generalizing c with
  | nil => simp
  | cons uri uris ih =>
    rw [List.nodup_cons] at hn
    rw [List.foldl_cons, ih hn.2, passes_append]
    by_cases h : uri = other
    · subst h
      simp [hn.1]
    · have h' : ¬ other = uri := fun ho => h ho.symm
      simp [h, h']

/-- **A recorded pass stands last in every document it covers, and no earlier pass of its entry is
left anywhere.** -/
theorem passes_record (c : Cache) (p : Pass) (uri : Uri) :
    (c.record p).passes uri
      = ((c.passes uri).filter fun q => q.entry ≠ p.entry) ++ if p.covers uri then [p] else [] := by
  rw [record, passes_foldl_append p p.nodup_uris, passes_strip]
  simp only [p.mem_uris_iff]

/-- The documents that show a pass started from a document, in the order of the cache. -/
def startedFrom (c : Cache) (entry : Uri) : List Uri :=
  (c.entries.filter fun e => e.2.startedFrom entry).map Prod.fst

/-- What is left of the entry of `uri` when `closed` is closed: an entry that loses its last pass
goes, and so does the entry of the closed document itself unless other passes cover it. -/
def remains (closed uri : Uri) (e : Entry) : Option Entry :=
  match e.without closed with
  | .outOfScope => if uri = closed then none else some .outOfScope
  | .passes [] => if uri = closed ∨ e.startedFrom closed then none else some (.passes [])
  | .passes ps => some (.passes ps)

/-- Drops a closed document and the passes started from it; the documents whose passes have changed
come along, in the order of the cache.  A document the cache does not know changes nothing. -/
def discard (c : Cache) (closed : Uri) : Cache × List Uri :=
  if c.contains closed then (c.filterMap (remains closed), c.startedFrom closed) else (c, [])

/-- What is left of an entry holds what is left of its passes. -/
theorem toList_remains (closed uri : Uri) (e : Entry) :
    ((remains closed uri e).map Entry.toList).getD [] = (e.without closed).toList := by
  rw [remains]
  split
  · split <;> simp_all
  · split <;> simp_all
  · simp_all

/-- **A closed document that the cache knows takes the passes started from it along.** -/
theorem passes_discard {c : Cache} {closed : Uri} (h : c.contains closed = true) (uri : Uri) :
    (c.discard closed).1.passes uri = (c.passes uri).filter fun p => p.entry ≠ closed := by
  rw [discard, if_pos h, passes, Table.get?_filterMap, passes]
  cases c.get? uri with
  | none => rfl
  | some e => exact (toList_remains closed uri e).trans (e.toList_without closed)

theorem discard_of_not_contains {c : Cache} {closed : Uri} (h : ¬ c.contains closed = true) :
    c.discard closed = (c, []) := by
  rw [discard, if_neg h]

end Cache

end StagedDiagnostics
