/-!
# Cutting a text at its first separator

`cut?` gives the text before and after the first occurrence of a character. Its
laws fix both sides: the part before holds no separator, and putting the
separator back between the parts restores the text.
-/

namespace CronSchedule.Text

set_option autoImplicit false

/-- The parts before and after the first `separator`, or `none` without one. -/
def cut? (separator : Char) : List Char → Option (List Char × List Char)
  | [] => none
  | char :: rest =>
      if char = separator then some ([], rest)
      else (cut? separator rest).map fun (before, after) => (char :: before, after)

theorem cut_eq_none_iff (separator : Char) (text : List Char) :
    cut? separator text = none ↔ separator ∉ text := by
  induction text with
  | nil => simp [cut?]
  | cons char rest induction =>
      by_cases same : char = separator
      · simp [cut?, same]
      · simp [cut?, same, induction, Ne.symm same]

theorem cut_eq_some_iff (separator : Char) (text before after : List Char) :
    cut? separator text = some (before, after) ↔
      text = before ++ separator :: after ∧ separator ∉ before := by
  induction text generalizing before with
  | nil => simp [cut?]
  | cons char rest induction =>
      by_cases same : char = separator
      · subst same
        cases before with
        | nil => simp [cut?]
        | cons first others =>
            simp only [cut?, if_pos, Option.some.injEq, Prod.mk.injEq, List.cons_append,
              List.cons.injEq, List.mem_cons, not_or]
            constructor
            · rintro ⟨impossible, _⟩
              simp at impossible
            · rintro ⟨⟨rfl, _⟩, differs, _⟩
              exact absurd rfl differs
      · cases before with
        | nil => simp [cut?, same]
        | cons first others =>
            simp only [cut?, if_neg same, Option.map_eq_some_iff, Prod.mk.injEq, List.cons.injEq,
              List.cons_append, List.mem_cons, not_or]
            constructor
            · rintro ⟨⟨head, tail⟩, found, ⟨rfl, rfl⟩, rfl⟩
              obtain ⟨restEq, absent⟩ := (induction head).mp found
              exact ⟨⟨rfl, restEq⟩, Ne.symm same, absent⟩
            · rintro ⟨⟨rfl, restEq⟩, _, absent⟩
              exact ⟨(others, after), (induction others).mpr ⟨restEq, absent⟩, ⟨rfl, rfl⟩, rfl⟩

end CronSchedule.Text
