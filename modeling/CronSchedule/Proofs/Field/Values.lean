import CronSchedule.Proofs.Field.Canonical

/-!
# The values of a rule

A rule covers numbers by its form: a set, a stretch of numbers, or the numbers of a
stretch at whole steps from its start. Its values are the numbers that it covers, with
the later name of Sunday replaced by the earlier one. A well formed rule covers some
number, and none outside the domain.
-/

namespace CronSchedule.Rule

set_option autoImplicit false

variable {rule : Rule} {field : Field} {domain : Domain}

/-- The numbers that the form of a rule stands for. Steps without bounds are counted from
the least number of the domain. -/
def Covers (rule : Rule) (domain : Domain) (number : Nat) : Prop :=
  match rule with
  | .any => number ∈ domain
  | .specific value => number = value
  | .list values => number ∈ values
  | .range lo hi => lo ≤ number ∧ number ≤ hi
  | .step size => number ∈ domain ∧ size ∣ number - domain.lo
  | .stepRange lo hi size => (lo ≤ number ∧ number ≤ hi) ∧ size ∣ number - lo

/-- Steps of size zero never advance. The other forms have no steps. -/
def Advances : Rule → Prop
  | .step size | .stepRange _ _ size => 0 < size
  | _ => True

theorem WellFormed.advances (wellFormed : rule.WellFormed field) : rule.Advances := by
  cases rule with
  | step size => exact wellFormed.1
  | stepRange lo hi size => exact wellFormed.2.2.2.1
  | _ => trivial

theorem steps_cover {lo hi size : Nat} (advances : 0 < size) :
    ∃ selected, steps lo hi size = .ok selected ∧
      ∀ number, number ∈ selected ↔ (lo ≤ number ∧ number ≤ hi) ∧ size ∣ number - lo := by
  refine ⟨ValueSet.stepping lo hi size, if_neg (Nat.ne_of_gt advances), ?_⟩
  intro number
  rw [ValueSet.mem_stepping advances, and_assoc]

theorem selection_covers (advances : rule.Advances) :
    ∃ selected, rule.selection domain = .ok selected ∧
      ∀ number, number ∈ selected ↔ rule.Covers domain number := by
  cases rule with
  | any => exact ⟨_, rfl, fun _ => ValueSet.mem_stepping_one⟩
  | specific value => exact ⟨_, rfl, fun number => ValueSet.mem_singleton number value⟩
  | list values => exact ⟨values, rfl, fun _ => Iff.rfl⟩
  | range lo hi => exact ⟨_, rfl, fun _ => ValueSet.mem_stepping_one⟩
  | step size => exact steps_cover advances
  | stepRange lo hi size => exact steps_cover advances

/-- The values are the covered numbers under their canonical names. -/
theorem values_cover (advances : rule.Advances) :
    ∃ values, rule.values field = .ok values ∧ ∀ value, value ∈ values ↔
      ∃ number, rule.Covers field.domain number ∧ field.canonical number = value := by
  rcases selection_covers advances with ⟨selected, known, covered⟩
  refine ⟨selected.map field.canonical, ?_, ?_⟩
  · rw [values, known]
    rfl
  · intro value
    rw [ValueSet.mem_map]
    exact exists_congr fun number => and_congr_left' (covered number)

theorem mem_domain_of_covers {number : Nat} (wellFormed : rule.WellFormed field)
    (covered : rule.Covers field.domain number) : number ∈ field.domain := by
  have inDomain : ∀ {value}, value ∈ field.canonicalDomain → value ∈ field.domain :=
    fun member => ((Field.mem_canonical_domain_iff field _).mp member).1
  cases rule with
  | any => exact covered
  | specific value =>
      rw [show number = value from covered]
      exact inDomain wellFormed
  | list values => exact inDomain (wellFormed.2 number covered)
  | range lo hi =>
      have first := (inDomain wellFormed.1).1
      have last := (inDomain wellFormed.2.1).2
      exact ⟨Nat.le_trans first covered.1, Nat.le_trans covered.2 last⟩
  | step size => exact covered.1
  | stepRange lo hi size =>
      have first := wellFormed.1.1
      have last := wellFormed.2.1.2
      exact ⟨Nat.le_trans first covered.1.1, Nat.le_trans covered.1.2 last⟩

/-- Each form covers its first number. -/
theorem exists_covers (wellFormed : rule.WellFormed field) :
    ∃ number, rule.Covers field.domain number := by
  have least : field.domain.lo ∈ field.domain := by cases field <;> decide
  cases rule with
  | any => exact ⟨field.domain.lo, least⟩
  | specific value => exact ⟨value, rfl⟩
  | list values =>
      rcases (ValueSet.two_le_length_iff values).mp wellFormed.1 with ⟨value, member, _⟩
      exact ⟨value, member⟩
  | range lo hi => exact ⟨lo, Nat.le_refl lo, wellFormed.2.2⟩
  | step size => exact ⟨field.domain.lo, least, by simp⟩
  | stepRange lo hi size => exact ⟨lo, ⟨Nat.le_refl lo, wellFormed.2.2.1⟩, by simp⟩

/-- A well formed rule has values that the clock or the calendar can show, and no others. -/
theorem values_spec (wellFormed : rule.WellFormed field) :
    ∃ values, rule.values field = .ok values ∧ ∀ value ∈ values, value ∈ field.canonicalDomain := by
  rcases values_cover wellFormed.advances with ⟨values, known, covered⟩
  refine ⟨values, known, ?_⟩
  intro value member
  rcases (covered value).mp member with ⟨number, numberCovered, same⟩
  rw [← same]
  exact Field.canonical_mem (mem_domain_of_covers wellFormed numberCovered)

theorem exists_mem_values (wellFormed : rule.WellFormed field) :
    ∃ values, rule.values field = .ok values ∧ ∃ value, value ∈ values := by
  rcases values_cover wellFormed.advances with ⟨values, known, covered⟩
  rcases exists_covers wellFormed with ⟨number, numberCovered⟩
  exact ⟨values, known, field.canonical number, (covered _).mpr ⟨number, numberCovered, rfl⟩⟩

/-- The values of a rule are the numbers that its form covers, with both Sundays made one,
whatever numbers the rule was built from. A rule that was read has values, all of them
inside its domain and inside the week for the day of week. -/
theorem values_are_covered_numbers (field : Field) (rule : Rule) :
    (rule.Advances → ∃ values, rule.values field = .ok values ∧ ∀ value, value ∈ values ↔
        ∃ number, rule.Covers field.domain number ∧
          value = if field = .dayOfWeek ∧ number = 7 then 0 else number) ∧
      ∀ token, parse field token = .ok rule → rule.Advances ∧
        ∃ values, rule.values field = .ok values ∧ (∃ value, value ∈ values) ∧
          ∀ value ∈ values, value ∈ field.domain ∧ (field = .dayOfWeek → value ≤ 6) := by
  constructor
  · intro advances
    rcases values_cover advances with ⟨values, known, covered⟩
    refine ⟨values, known, ?_⟩
    intro value
    rw [covered value]
    exact exists_congr fun number => and_congr_right' eq_comm
  · intro token parsed
    have wellFormed := well_formed_of_parse parsed
    rcases values_spec wellFormed with ⟨values, known, shown⟩
    rcases exists_mem_values wellFormed with ⟨same, sameKnown, some⟩
    rw [known] at sameKnown
    cases sameKnown
    refine ⟨wellFormed.advances, values, known, some, ?_⟩
    intro value member
    have canonical := (Field.mem_canonical_domain_iff field value).mp (shown value member)
    refine ⟨canonical.1, ?_⟩
    intro week
    have inWeek : value ≤ 7 := by
      have most := canonical.1.2
      rwa [week] at most
    have notLater : value ≠ 7 := fun later => canonical.2 ⟨week, later⟩
    omega

/-- Every other day from Monday on reaches the later Sunday, which counts as day 0. -/
theorem values_are_covered_numbers_of_odd_days :
    let rule := Rule.stepRange 1 7 2
    rule.Advances ∧ parse .dayOfWeek "1-7/2" = .ok rule ∧
      (∃ values, rule.values .dayOfWeek = .ok values ∧ ∀ value, value ∈ values ↔
        ∃ number, rule.Covers Field.dayOfWeek.domain number ∧
          value = if Field.dayOfWeek = .dayOfWeek ∧ number = 7 then 0 else number) ∧
      ∃ values, rule.values .dayOfWeek = .ok values ∧ (∃ value, value ∈ values) ∧
        ∀ value ∈ values, value ∈ Field.dayOfWeek.domain ∧
          (Field.dayOfWeek = .dayOfWeek → value ≤ 6) := by
  intro rule
  have advances : rule.Advances := Nat.two_pos
  have parsed : parse .dayOfWeek "1-7/2" = .ok rule := by decide
  have meaning := values_are_covered_numbers .dayOfWeek rule
  exact ⟨advances, parsed, meaning.1 advances, (meaning.2 "1-7/2" parsed).2⟩

/-- A stretch built by hand may leave every domain, and one that runs backwards is empty. -/
example : (Rule.stepRange 250 255 4).values .second = .ok (ValueSet.ofList [250, 254]) ∧
    (Rule.range 5 1).values .hour = .ok .empty := by decide

end CronSchedule.Rule
