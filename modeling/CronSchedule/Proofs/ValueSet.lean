import CronSchedule.ValueSet
import Mathlib.Data.List.Perm.Basic
import Mathlib.Data.List.Nodup
import Mathlib.Order.Basic

/-!
# Value sets by their members

A value set is known as soon as its members are. The stepped sets and the least
member from a start on are described by their members alone, so that no later
proof looks at the ascending lists.
-/

namespace CronSchedule.ValueSet

set_option autoImplicit false

theorem ext {first second : ValueSet} (same : ∀ value, value ∈ first ↔ value ∈ second) :
    first = second := by
  obtain ⟨values, ascending⟩ := first
  obtain ⟨others, othersAscending⟩ := second
  have nodup : values.Nodup := ascending.imp Nat.ne_of_lt
  have othersNodup : others.Nodup := othersAscending.imp Nat.ne_of_lt
  have permuted : values.Perm others := (List.perm_ext_iff_of_nodup nodup othersNodup).mpr same
  have equal : values = others := by
    apply permuted.eq_of_pairwise _ ascending othersAscending
    intro value other _ _ before after
    exact absurd before (Nat.lt_asymm after)
  subst equal
  rfl

theorem of_list_to_list (values : ValueSet) : ofList values.toList = values :=
  ext fun value => mem_of_list value values.toList

theorem two_le_length_iff (values : ValueSet) :
    2 ≤ values.toList.length ↔ ∃ first ∈ values, ∃ second ∈ values, first ≠ second := by
  have nodup : values.toList.Nodup := values.ascending.imp Nat.ne_of_lt
  constructor
  · intro long
    match known : values.toList with
    | [] => simp [known] at long
    | [_] => simp [known] at long
    | first :: second :: rest =>
        rw [known] at nodup
        have differs : first ≠ second := by
          intro same
          simp [same] at nodup
        refine ⟨first, ?_, second, ?_, differs⟩ <;> simp [mem_def, known]
  · rintro ⟨first, firstMember, second, secondMember, differs⟩
    by_contra short
    rw [mem_def] at firstMember secondMember
    match known : values.toList with
    | [] => simp [known] at firstMember
    | [only] =>
        rw [known, List.mem_singleton] at firstMember secondMember
        exact differs (firstMember.trans secondMember.symm)
    | _ :: _ :: _ => simp [known] at short

theorem mem_stepping {lo hi step value : Nat} (advances : 0 < step) :
    value ∈ stepping lo hi step ↔ lo ≤ value ∧ value ≤ hi ∧ step ∣ value - lo := by
  rw [stepping, mem_of_list, List.mem_range']
  constructor
  · rintro ⟨index, bound, rfl⟩
    have inside := (Nat.le_div_iff_mul_le advances).mp bound
    rw [Nat.succ_mul, Nat.mul_comm] at inside
    refine ⟨Nat.le_add_right _ _, by omega, ?_⟩
    rw [Nat.add_sub_cancel_left]
    exact Nat.dvd_mul_right step index
  · rintro ⟨lower, upper, index, distance⟩
    refine ⟨index, ?_, by omega⟩
    apply (Nat.le_div_iff_mul_le advances).mpr
    rw [Nat.succ_mul, Nat.mul_comm]
    omega

theorem mem_stepping_one {lo hi value : Nat} :
    value ∈ stepping lo hi 1 ↔ lo ≤ value ∧ value ≤ hi := by
  rw [mem_stepping Nat.one_pos]
  simp

theorem least_from_eq_none_iff (values : ValueSet) (start : Nat) :
    values.leastFrom? start = none ↔ ∀ value ∈ values, value < start := by
  simp [leastFrom?, mem_def]

theorem least_from_le {values : ValueSet} {start value other : Nat}
    (found : values.leastFrom? start = some value) (member : other ∈ values)
    (reaches : start ≤ other) : value ≤ other := by
  obtain ⟨_, before, after, split, skipped⟩ := List.find?_eq_some_iff_append.mp found
  have ascending := values.ascending
  rw [split] at ascending
  rw [mem_def, split] at member
  rcases List.mem_append.mp member with early | late
  · have below := skipped other early
    simp [reaches] at below
  · rcases List.mem_cons.mp late with rfl | later
    · exact Nat.le_refl _
    · have ordered := (List.pairwise_cons.mp (List.pairwise_append.mp ascending).2.1).1
      exact Nat.le_of_lt (ordered other later)

end CronSchedule.ValueSet
