/-!
# Finite sets of field values

A `ValueSet` keeps its values in ascending order without repetition, so equal
sets are equal as data and are compared and printed in one way. Membership is
the view that the laws speak of: each operation says which values it yields.
-/

namespace CronSchedule

set_option autoImplicit false

/-- Puts a value into its place in an ascending list that may already hold it. -/
def insertAscending (value : Nat) : List Nat → List Nat
  | [] => [value]
  | head :: rest =>
      if value < head then value :: head :: rest
      else if value = head then head :: rest
      else head :: insertAscending value rest

theorem mem_insert_ascending (value item : Nat) (values : List Nat) :
    item ∈ insertAscending value values ↔ item = value ∨ item ∈ values := by
  induction values with
  | nil => simp [insertAscending]
  | cons head rest induction =>
      simp only [insertAscending]
      split
      · simp
      · split
        case isTrue same => simp [same]
        case isFalse => simp only [List.mem_cons, induction, or_left_comm]

theorem insert_ascending_pairwise (value : Nat) {values : List Nat}
    (ascending : values.Pairwise (· < ·)) :
    (insertAscending value values).Pairwise (· < ·) := by
  induction values with
  | nil => simp [insertAscending]
  | cons head rest induction =>
      obtain ⟨headLeast, restAscending⟩ := List.pairwise_cons.mp ascending
      simp only [insertAscending]
      split
      case isTrue before =>
          refine List.pairwise_cons.mpr ⟨?_, ascending⟩
          intro item member
          rcases List.mem_cons.mp member with rfl | member
          · exact before
          · exact Nat.lt_trans before (headLeast item member)
      case isFalse notBefore =>
          split
          case isTrue => exact ascending
          case isFalse differs =>
              refine List.pairwise_cons.mpr ⟨?_, induction restAscending⟩
              intro item member
              rcases (mem_insert_ascending value item rest).mp member with rfl | member
              · omega
              · exact headLeast item member

structure ValueSet where
  toList : List Nat
  ascending : toList.Pairwise (· < ·)
  deriving DecidableEq, Repr

namespace ValueSet

instance : Membership Nat ValueSet where
  mem values value := value ∈ values.toList

theorem mem_def (value : Nat) (values : ValueSet) : value ∈ values ↔ value ∈ values.toList :=
  Iff.rfl

instance (value : Nat) (values : ValueSet) : Decidable (value ∈ values) :=
  decidable_of_iff _ (mem_def value values).symm

/-- Sets are ordered as their ascending lists are, lexicographically. -/
instance : Ord ValueSet where
  compare first second := compare first.toList second.toList

def empty : ValueSet := ⟨[], List.Pairwise.nil⟩

def insert (value : Nat) (values : ValueSet) : ValueSet :=
  ⟨insertAscending value values.toList, insert_ascending_pairwise value values.ascending⟩

/-- The set of the listed values, in whatever order and however often listed. -/
def ofList (values : List Nat) : ValueSet := values.foldr insert empty

def singleton (value : Nat) : ValueSet := ofList [value]

def map (change : Nat → Nat) (values : ValueSet) : ValueSet :=
  ofList (values.toList.map change)

/-- The values `lo`, `lo + step`, `lo + 2 * step` and so on that do not exceed
`hi`. There are none when `lo` exceeds `hi`. -/
def stepping (lo hi step : Nat) : ValueSet :=
  ofList (List.range' lo ((hi + step - lo) / step) step)

/-- The least value of the set that is not below `start`. -/
def leastFrom? (values : ValueSet) (start : Nat) : Option Nat :=
  values.toList.find? fun value => start ≤ value

theorem mem_insert (value item : Nat) (values : ValueSet) :
    item ∈ values.insert value ↔ item = value ∨ item ∈ values :=
  mem_insert_ascending value item values.toList

theorem mem_of_list (item : Nat) (values : List Nat) : item ∈ ofList values ↔ item ∈ values := by
  induction values with
  | nil => simp [ofList, empty, mem_def]
  | cons head rest induction =>
      rw [ofList, List.foldr_cons, mem_insert, List.mem_cons]
      exact or_congr_right induction

theorem mem_singleton (item value : Nat) : item ∈ singleton value ↔ item = value := by
  simp [singleton, mem_of_list]

theorem mem_map (item : Nat) (change : Nat → Nat) (values : ValueSet) :
    item ∈ values.map change ↔ ∃ value ∈ values, change value = item := by
  rw [map, mem_of_list, List.mem_map]
  exact Iff.rfl

theorem least_from_ge {values : ValueSet} {start value : Nat}
    (found : values.leastFrom? start = some value) : start ≤ value := by
  simpa using List.find?_some found

theorem least_from_mem {values : ValueSet} {start value : Nat}
    (found : values.leastFrom? start = some value) : value ∈ values :=
  List.mem_of_find?_eq_some found

end ValueSet

end CronSchedule
