/-!
# Outcomes that may fail

A computation that may fail gives a value or the reason why there is none. The
inversions take such a computation apart: a value comes out of a mapped or a
chained computation only through a value of its first part, and a reason comes
from the first part that fails.
-/

namespace CronSchedule

set_option autoImplicit false

theorem map_eq_ok_iff {Reason Value Other : Type} {outcome : Except Reason Value}
    {change : Value → Other} {result : Other} :
    outcome.map change = .ok result ↔ ∃ value, outcome = .ok value ∧ change value = result := by
  cases outcome <;> simp [Except.map]

theorem bind_eq_ok_iff {Reason Value Other : Type} {outcome : Except Reason Value}
    {next : Value → Except Reason Other} {result : Other} :
    outcome >>= next = .ok result ↔ ∃ value, outcome = .ok value ∧ next value = .ok result := by
  cases outcome <;> simp [bind, Except.bind]

theorem map_eq_error_iff {Reason Value Other : Type} {outcome : Except Reason Value}
    {change : Value → Other} {reason : Reason} :
    outcome.map change = .error reason ↔ outcome = .error reason := by
  cases outcome <;> simp [Except.map]

theorem bind_eq_error_iff {Reason Value Other : Type} {outcome : Except Reason Value}
    {next : Value → Except Reason Other} {reason : Reason} :
    outcome >>= next = .error reason ↔
      outcome = .error reason ∨ ∃ value, outcome = .ok value ∧ next value = .error reason := by
  cases outcome <;> simp [bind, Except.bind]

/-- Reading a list of items stops at the first one that is refused, for its reason. -/
theorem map_list_eq_error_iff {Reason Item Value : Type} {read : Item → Except Reason Value}
    {items : List Item} {reason : Reason} :
    items.mapM read = .error reason ↔
      ∃ before item after, items = before ++ item :: after ∧
        (∀ earlier ∈ before, ∃ value, read earlier = .ok value) ∧ read item = .error reason := by
  induction items with
  | nil =>
      constructor
      · intro refused
        cases refused
      · intro refused
        rcases refused with ⟨before, item, after, split, _⟩
        simp at split
  | cons first rest induction =>
      rw [List.mapM_cons, bind_eq_error_iff]
      simp only [bind_eq_error_iff, induction]
      constructor
      · intro refused
        rcases refused with atFirst | ⟨value, accepted, later | ⟨values, _, impossible⟩⟩
        · exact ⟨[], first, rest, rfl, by simp, atFirst⟩
        · rcases later with ⟨before, item, after, rfl, admitted, bad⟩
          have all := List.forall_mem_cons.mpr ⟨⟨value, accepted⟩, admitted⟩
          exact ⟨first :: before, item, after, rfl, all, bad⟩
        · cases impossible
      · intro refused
        rcases refused with ⟨before, item, after, split, admitted, bad⟩
        cases before with
        | nil =>
            cases split
            exact Or.inl bad
        | cons head others =>
            cases split
            have each := List.forall_mem_cons.mp admitted
            rcases each.1 with ⟨value, accepted⟩
            exact Or.inr ⟨value, accepted, Or.inl ⟨others, item, after, rfl, each.2, bad⟩⟩

end CronSchedule
