import CronSchedule.Proofs.Field.Grammar
import CronSchedule.Text.Blank

/-!
# Canonical tokens

A rule that was read from a token is well formed, and the canonical token of a
well formed rule denotes that rule again. Both facts are read off the grammar,
so they hold for whatever way of writing the first token used.
-/

namespace CronSchedule

set_option autoImplicit false

open Numeral (IsNumeral)

namespace Field

theorem mem_canonical_domain_iff (field : Field) (value : Nat) :
    value ∈ field.canonicalDomain ↔
      value ∈ field.domain ∧ ¬(field = .dayOfWeek ∧ value = 7) := by
  cases field
  case dayOfWeek =>
      simp only [canonicalDomain, domain, Domain.mem_iff, true_and]
      omega
  all_goals simp [canonicalDomain]

theorem canonical_mem {field : Field} {value : Nat} (member : value ∈ field.domain) :
    field.canonical value ∈ field.canonicalDomain := by
  unfold canonical
  split
  case isTrue later =>
      rw [later.1]
      decide
  case isFalse plain => exact (mem_canonical_domain_iff field value).mpr ⟨member, plain⟩

theorem canonical_of_mem {field : Field} {value : Nat}
    (member : value ∈ field.canonicalDomain) : field.canonical value = value :=
  if_neg ((mem_canonical_domain_iff field value).mp member).2

theorem admits_digits {field : Field} {value : Nat} (member : value ∈ field.domain) :
    field.Admits (Numeral.digits value) := by
  refine ⟨Numeral.digits_numeral value, ?_⟩
  rw [Numeral.value_digits]
  exact member

theorem admits_bounds_digits {field : Field} {lo hi : Nat} (first : lo ∈ field.domain)
    (second : hi ∈ field.domain) (ordered : lo ≤ hi) :
    field.AdmitsBounds (Numeral.digits lo) (Numeral.digits hi) := by
  refine ⟨admits_digits first, admits_digits second, ?_⟩
  rw [Numeral.value_digits, Numeral.value_digits]
  exact ordered

end Field

namespace Rule

theorem is_step_size_digits {size : Nat} (bounded : 1 ≤ size ∧ size ≤ maxStep) :
    IsStepSize (Numeral.digits size) := by
  refine ⟨Numeral.digits_numeral size, ?_⟩
  rw [Numeral.value_digits]
  exact bounded

theorem well_formed_of_denotes {field : Field} {text : List Char} {rule : Rule}
    (denoted : Denotes field text rule) : rule.WellFormed field := by
  cases denoted with
  | any => trivial
  | step counted => exact counted.2
  | stepRange bounds counted => exact ⟨bounds.1.2, bounds.2.1.2, bounds.2.2, counted.2⟩
  | @range first second bounds plain =>
      have upper := (Field.mem_canonical_domain_iff _ _).mpr ⟨bounds.2.1.2, plain⟩
      refine ⟨(Field.mem_canonical_domain_iff _ _).mpr ⟨bounds.1.2, ?_⟩, upper, bounds.2.2⟩
      rintro ⟨week, sunday⟩
      have ordered := bounds.2.2
      have most := bounds.2.1.2.2
      rw [week] at most
      simp only [Field.domain] at most
      exact plain ⟨week, by omega⟩
  | untilSunday week bounds sunday earlier wrapped =>
      subst week
      constructor
      · apply (ValueSet.two_le_length_iff _).mpr
        refine ⟨0, (wrapped 0).mpr (Or.inl rfl), 6, (wrapped 6).mpr (Or.inr ?_), by decide⟩
        omega
      · intro day member
        simp only [Field.canonicalDomain, Domain.mem_iff]
        rcases (wrapped day).mp member with rfl | inside
        · omega
        · omega
  | sundayOnly week bounds from7 until7 =>
      rw [week]
      exact ⟨by decide, by decide, Nat.le_refl 0⟩
  | list several admitted collected distinct =>
      refine ⟨(ValueSet.two_le_length_iff _).mpr distinct, ?_⟩
      intro value member
      obtain ⟨item, itemMember, rfl⟩ := (collected value).mp member
      exact Field.canonical_mem (admitted item itemMember).2
  | @repeated items value several admitted same =>
      obtain ⟨item, member⟩ :=
        List.exists_mem_of_length_pos (Nat.lt_of_lt_of_le Nat.two_pos several)
      rw [← same item member]
      exact Field.canonical_mem (admitted item member).2
  | specific admitted => exact Field.canonical_mem admitted.2

theorem denotes_digits {field : Field} {value : Nat} (member : value ∈ field.canonicalDomain) :
    Denotes field (Numeral.digits value) (.specific value) := by
  have admitted := Field.admits_digits ((Field.mem_canonical_domain_iff field value).mp member).1
  have denoted := Denotes.specific admitted
  rwa [Numeral.value_digits, Field.canonical_of_mem member] at denoted

theorem denotes_digits_list {field : Field} {values : ValueSet}
    (long : 2 ≤ values.toList.length)
    (members : ∀ value ∈ values, value ∈ field.canonicalDomain) :
    Denotes field (List.intercalate [','] (values.toList.map Numeral.digits)) (.list values) := by
  refine .list ?_ ?_ ?_ ((ValueSet.two_le_length_iff values).mp long)
  · rwa [List.length_map]
  · intro item itemMember
    obtain ⟨value, member, rfl⟩ := List.mem_map.mp itemMember
    have canonical := (Field.mem_canonical_domain_iff field value).mp (members value member)
    exact Field.admits_digits canonical.1
  · intro value
    constructor
    · intro member
      refine ⟨Numeral.digits value, List.mem_map.mpr ⟨value, member, rfl⟩, ?_⟩
      rw [Numeral.value_digits, Field.canonical_of_mem (members value member)]
    · rintro ⟨item, itemMember, rfl⟩
      obtain ⟨other, member, rfl⟩ := List.mem_map.mp itemMember
      rw [Numeral.value_digits, Field.canonical_of_mem (members other member)]
      exact member

theorem denotes_chars {field : Field} {rule : Rule} (wellFormed : rule.WellFormed field) :
    Denotes field rule.chars rule := by
  cases rule with
  | any => exact .any
  | specific value => exact denotes_digits wellFormed
  | list values => exact denotes_digits_list wellFormed.1 wellFormed.2
  | range lo hi =>
      have lower := (Field.mem_canonical_domain_iff field lo).mp wellFormed.1
      have upper := (Field.mem_canonical_domain_iff field hi).mp wellFormed.2.1
      have bounds := Field.admits_bounds_digits lower.1 upper.1 wellFormed.2.2
      have plain : ¬(field = .dayOfWeek ∧ Numeral.value (Numeral.digits hi) = 7) := by
        rw [Numeral.value_digits]
        exact upper.2
      have denoted := Denotes.range bounds plain
      rwa [Numeral.value_digits, Numeral.value_digits] at denoted
  | step size =>
      have denoted : Denotes field _ _ := .step (is_step_size_digits wellFormed)
      rwa [Numeral.value_digits] at denoted
  | stepRange lo hi size =>
      obtain ⟨lower, upper, ordered, bounded⟩ := wellFormed
      have denoted := Denotes.stepRange (Field.admits_bounds_digits lower upper ordered)
        (is_step_size_digits bounded)
      rwa [Numeral.value_digits, Numeral.value_digits, Numeral.value_digits] at denoted

theorem well_formed_of_parse {field : Field} {token : String} {rule : Rule}
    (parsed : parse field token = .ok rule) : rule.WellFormed field :=
  well_formed_of_denotes (denotes_of_parse parsed)

theorem parse_text {field : Field} {rule : Rule} (wellFormed : rule.WellFormed field) :
    parse field rule.text = .ok rule := by
  apply parse_of_denotes
  rw [text, String.toList_ofList]
  exact denotes_chars wellFormed

/-- The well formed rules are the ones that come back from their canonical token, and the
ones that come from any token at all. -/
theorem well_formed_iff_read_back (field : Field) (rule : Rule) :
    (parse field rule.text = .ok rule ↔ rule.WellFormed field) ∧
      (rule.WellFormed field ↔ ∃ token, parse field token = .ok rule) := by
  constructor
  · constructor
    · exact well_formed_of_parse
    · exact parse_text
  · constructor
    · intro wellFormed
      exact ⟨rule.text, parse_text wellFormed⟩
    · intro written
      rcases written with ⟨token, parsed⟩
      exact well_formed_of_parse parsed

/-- The canonical token of a malformed rule may be that of another rule. -/
example : parse .dayOfWeek (Rule.range 5 7).text = .ok (.list (ValueSet.ofList [0, 5, 6])) := by
  decide

/-- Canonical tokens are made of digits and the four symbols of the grammar. -/
theorem mem_chars {rule : Rule} {char : Char} (member : char ∈ rule.chars) :
    char.isDigit = true ∨ char ∈ ['*', '/', '-', ','] := by
  have ofDigits : ∀ {number : Nat}, char ∈ Numeral.digits number →
      char.isDigit = true ∨ char ∈ ['*', '/', '-', ','] :=
    fun inside => Or.inl ((Numeral.digits_numeral _).2 char inside)
  cases rule with
  | any => exact Or.inr (by simp_all [chars])
  | specific value => exact ofDigits member
  | list values =>
      rcases mem_intercalate member with rfl | ⟨item, itemMember, inside⟩
      · exact Or.inr (by decide)
      · obtain ⟨value, _, rfl⟩ := List.mem_map.mp itemMember
        exact ofDigits inside
  | range lo hi =>
      simp only [chars, List.mem_append, List.mem_cons] at member
      rcases member with inside | rfl | inside
      · exact ofDigits inside
      · exact Or.inr (by decide)
      · exact ofDigits inside
  | step size =>
      simp only [chars, List.mem_cons] at member
      rcases member with rfl | rfl | inside
      · exact Or.inr (by decide)
      · exact Or.inr (by decide)
      · exact ofDigits inside
  | stepRange lo hi size =>
      simp only [chars, List.mem_append, List.mem_cons] at member
      rcases member with inside | rfl | inside | rfl | inside
      · exact ofDigits inside
      · exact Or.inr (by decide)
      · exact ofDigits inside
      · exact Or.inr (by decide)
      · exact ofDigits inside

theorem blank_of_digit {char : Char} (digit : char.isDigit = true) :
    Text.isBlank char = false := by
  have bounds : 48 ≤ char.toNat ∧ char.toNat ≤ 57 := Char.isDigit_iff_toNat.mp digit
  simp only [Text.isBlank, Text.blankRanges, List.any_cons, List.any_nil, Bool.or_false,
    Bool.or_eq_false_iff, Bool.and_eq_false_iff, decide_eq_false_iff_not]
  omega

theorem chars_solid {rule : Rule} {char : Char} (member : char ∈ rule.chars) :
    Text.isBlank char = false := by
  rcases mem_chars member with digit | symbol
  · exact blank_of_digit digit
  · simp only [List.mem_cons, List.not_mem_nil, or_false] at symbol
    rcases symbol with rfl | rfl | rfl | rfl <;> decide

theorem chars_ne_nil {field : Field} {rule : Rule} (wellFormed : rule.WellFormed field) :
    rule.chars ≠ [] := by
  have written : ∀ number, Numeral.digits number ≠ [] :=
    fun number => (Numeral.digits_numeral number).1
  cases rule with
  | list values =>
      have long : 2 ≤ values.toList.length := wellFormed.1
      match known : values.toList with
      | [] => simp [known] at long
      | [_] => simp [known] at long
      | first :: second :: rest => simp [chars, known, written]
  | _ => simp [chars, written]

end Rule

end CronSchedule
