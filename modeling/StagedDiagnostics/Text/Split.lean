/-!
# Text/Split — a text cut at a separator

`cut` and `join` are inverse to each other in one direction: joining what was cut gives the text
back (`join_cut`).
-/

namespace StagedDiagnostics.Split

variable {α : Type}

/-- Puts an element in front of the first piece. -/
def addFront (a : α) : List (List α) → List (List α)
  | [] => [[a]]
  | l :: ls => (a :: l) :: ls

@[simp] theorem flatten_addFront (a : α) (ls : List (List α)) :
    (addFront a ls).flatten = a :: ls.flatten := by
  cases ls <;> simp [addFront]

/-- The pieces between the separators; there is one piece more than there are separators. -/
def cut (sep : Char) : List Char → List (List Char)
  | [] => [[]]
  | c :: cs => if c = sep then [] :: cut sep cs else addFront c (cut sep cs)

/-- The pieces with a separator between any two. -/
def join (sep : Char) : List (List Char) → List Char
  | [] => []
  | [l] => l
  | l :: m :: ls => l ++ sep :: join sep (m :: ls)

theorem cut_ne_nil (sep : Char) (cs : List Char) : cut sep cs ≠ [] := by
  cases cs with
  | nil => simp [cut]
  | cons c cs =>
    rw [cut]
    split
    · simp
    · cases cut sep cs <;> simp [addFront]

theorem join_addFront (sep c : Char) {ls : List (List Char)} (h : ls ≠ []) :
    join sep (addFront c ls) = c :: join sep ls := by
  match ls, h with
  | [l], _ => rfl
  | l :: m :: ls, _ => rfl

/-- **Joining undoes cutting.** -/
@[simp] theorem join_cut (sep : Char) (cs : List Char) : join sep (cut sep cs) = cs := by
  induction cs with
  | nil => rfl
  | cons c cs ih =>
    rw [cut]
    split
    · rename_i h
      match hc : cut sep cs with
      | [] => exact absurd hc (cut_ne_nil sep cs)
      | l :: ls =>
        rw [hc] at ih
        rw [join, ih, h, List.nil_append]
    · rw [join_addFront sep c (cut_ne_nil sep cs), ih]

end StagedDiagnostics.Split
