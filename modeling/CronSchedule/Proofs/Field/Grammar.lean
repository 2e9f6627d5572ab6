import CronSchedule.Field.Parser
import CronSchedule.Outcome
import CronSchedule.Proofs.ValueSet

/-!
# The grammar of field tokens

`Field.Accepts` lists the six forms of a token and `Denotes` the rule that each of
them denotes. Both speak of numerals and of members of sets only; cutting, precedence
and error reporting belong to the reader. The reader accepts exactly the tokens
of the grammar and gives the rule that the grammar gives.
-/

namespace CronSchedule

set_option autoImplicit false

open Numeral (IsNumeral)

/-- A numeral for a value of the field's domain. -/
def Field.Admits (field : Field) (item : List Char) : Prop :=
  IsNumeral item ∧ Numeral.value item ∈ field.domain

/-- Two numerals for values of the domain, the lower one first. -/
def Field.AdmitsBounds (field : Field) (first second : List Char) : Prop :=
  field.Admits first ∧ field.Admits second ∧ Numeral.value first ≤ Numeral.value second

/-- A numeral for a step from 1 to 65535. -/
def IsStepSize (size : List Char) : Prop :=
  IsNumeral size ∧ 1 ≤ Numeral.value size ∧ Numeral.value size ≤ 65535

/-- The tokens of a field, each with the rule that it denotes. The bounds of a
range of weekdays may be the later Sunday, 7, at which such a range wraps. -/
inductive Denotes (field : Field) : List Char → Rule → Prop
  | any : Denotes field ['*'] .any
  | step {size : List Char} (counted : IsStepSize size) :
      Denotes field ('*' :: '/' :: size) (.step (Numeral.value size))
  | stepRange {first second size : List Char} (bounds : field.AdmitsBounds first second)
      (counted : IsStepSize size) :
      Denotes field (first ++ '-' :: (second ++ '/' :: size))
        (.stepRange (Numeral.value first) (Numeral.value second) (Numeral.value size))
  | range {first second : List Char} (bounds : field.AdmitsBounds first second)
      (plain : ¬(field = .dayOfWeek ∧ Numeral.value second = 7)) :
      Denotes field (first ++ '-' :: second)
        (.range (Numeral.value first) (Numeral.value second))
  | untilSunday {first second : List Char} {days : ValueSet} (week : field = .dayOfWeek)
      (bounds : field.AdmitsBounds first second) (sunday : Numeral.value second = 7)
      (earlier : Numeral.value first < 7)
      (wrapped : ∀ day, day ∈ days ↔ day = 0 ∨ Numeral.value first ≤ day ∧ day ≤ 6) :
      Denotes field (first ++ '-' :: second) (.list days)
  | sundayOnly {first second : List Char} (week : field = .dayOfWeek)
      (bounds : field.AdmitsBounds first second) (from7 : Numeral.value first = 7)
      (until7 : Numeral.value second = 7) :
      Denotes field (first ++ '-' :: second) (.range 0 0)
  | list {items : List (List Char)} {values : ValueSet} (several : 2 ≤ items.length)
      (admitted : ∀ item ∈ items, field.Admits item)
      (collected : ∀ value, value ∈ values ↔
        ∃ item ∈ items, field.canonical (Numeral.value item) = value)
      (distinct : ∃ first ∈ values, ∃ second ∈ values, first ≠ second) :
      Denotes field (List.intercalate [','] items) (.list values)
  | repeated {items : List (List Char)} {value : Nat} (several : 2 ≤ items.length)
      (admitted : ∀ item ∈ items, field.Admits item)
      (same : ∀ item ∈ items, field.canonical (Numeral.value item) = value) :
      Denotes field (List.intercalate [','] items) (.specific value)
  | specific {item : List Char} (admitted : field.Admits item) :
      Denotes field item (.specific (field.canonical (Numeral.value item)))

namespace Rule

/-- Saturation does not show: it lies beyond every domain. -/
theorem read_mem_domain_iff (field : Field) (item : List Char) :
    min (Numeral.value item) Numeral.saturation ∈ field.domain ↔
      Numeral.value item ∈ field.domain := by
  have bounded : field.domain.hi < Numeral.saturation := by cases field <;> decide
  simp only [Domain.mem_iff]
  omega

theorem min_saturation_of_mem {field : Field} {item : List Char}
    (member : Numeral.value item ∈ field.domain) :
    min (Numeral.value item) Numeral.saturation = Numeral.value item := by
  have bounded : field.domain.hi < Numeral.saturation := by cases field <;> decide
  rw [Domain.mem_iff] at member
  omega

theorem parse_value_eq_ok_iff (field : Field) (item : List Char) (value : Nat) :
    parseValue field item = .ok value ↔
      field.Admits item ∧ field.canonical (Numeral.value item) = value := by
  by_cases numeral : IsNumeral item
  · by_cases member : Numeral.value item ∈ field.domain
    · simp [parseValue, Numeral.read?, numeral, Field.Admits, member,
        min_saturation_of_mem member]
    · have outside := mt (read_mem_domain_iff field item).mp member
      simp [parseValue, Numeral.read?, numeral, Field.Admits, member, outside]
  · simp [parseValue, Numeral.read?, numeral, Field.Admits]

theorem parse_bounds_eq_ok_iff (field : Field) (token : String) (first second : List Char)
    (bounds : Nat × Nat) :
    parseBounds field token first second = .ok bounds ↔
      field.AdmitsBounds first second ∧
        (Numeral.value first, Numeral.value second) = bounds := by
  by_cases numerals : IsNumeral first ∧ IsNumeral second
  · by_cases members : Numeral.value first ∈ field.domain ∧ Numeral.value second ∈ field.domain
    · by_cases ordered : Numeral.value first ≤ Numeral.value second <;>
        simp [parseBounds, Numeral.read?, numerals, Field.AdmitsBounds, Field.Admits, members,
          min_saturation_of_mem members.1, min_saturation_of_mem members.2, ordered]
    · have outside : ¬(min (Numeral.value first) Numeral.saturation ∈ field.domain ∧
          min (Numeral.value second) Numeral.saturation ∈ field.domain) := by
        rw [read_mem_domain_iff, read_mem_domain_iff]
        exact members
      have refused : ¬field.AdmitsBounds first second :=
        fun admitted => members ⟨admitted.1.2, admitted.2.1.2⟩
      simp only [parseBounds, Numeral.read?, numerals, if_true, refused, false_and, iff_false]
      rw [if_neg fun inside => outside ⟨inside.1, inside.2.1⟩]
      simp
  · have refused : ¬field.AdmitsBounds first second :=
      fun admitted => numerals ⟨admitted.1.1, admitted.2.1.1⟩
    simp only [refused, false_and, iff_false]
    rcases not_and_or.mp numerals with noFirst | noSecond
    · simp [parseBounds, Numeral.read?, noFirst]
    · by_cases numeral : IsNumeral first <;>
        simp [parseBounds, Numeral.read?, noSecond, numeral]

theorem parse_step_eq_ok_iff (field : Field) (token : String) (size : List Char) (step : Nat) :
    parseStep field token size = .ok step ↔ IsStepSize size ∧ Numeral.value size = step := by
  by_cases numeral : IsNumeral size
  · by_cases bounded : 1 ≤ Numeral.value size ∧ Numeral.value size ≤ 65535
    · have unsaturated : min (Numeral.value size) Numeral.saturation = Numeral.value size := by
        simp only [Numeral.saturation]
        omega
      simp [parseStep, Numeral.read?, numeral, IsStepSize, maxStep, unsaturated, bounded]
    · have outside : ¬(1 ≤ min (Numeral.value size) Numeral.saturation ∧
          min (Numeral.value size) Numeral.saturation ≤ maxStep) := by
        simp only [Numeral.saturation, maxStep]
        omega
      simp only [parseStep, Numeral.read?, numeral, if_true, IsStepSize, bounded]
      rw [if_neg outside]
      simp
  · simp [parseStep, Numeral.read?, numeral, IsStepSize]

/-- A list is accepted when every item is; the leftmost one that is not stops it. -/
theorem map_parse_value_eq_ok_iff (field : Field) (items : List (List Char))
    (values : List Nat) :
    items.mapM (parseValue field) = .ok values ↔
      (∀ item ∈ items, field.Admits item) ∧
        items.map (fun item => field.canonical (Numeral.value item)) = values := by
  induction items generalizing values with
  | nil =>
      simp only [List.mapM_nil, List.map_nil, List.not_mem_nil, false_implies, implies_true,
        true_and]
      exact ⟨Except.ok.inj, congrArg Except.ok⟩
  | cons item rest induction =>
      rw [List.mapM_cons, bind_eq_ok_iff]
      simp only [bind_eq_ok_iff, parse_value_eq_ok_iff, induction, List.forall_mem_cons,
        List.map_cons]
      constructor
      · rintro ⟨_, ⟨admitted, rfl⟩, _, ⟨others, rfl⟩, same⟩
        exact ⟨⟨admitted, others⟩, Except.ok.inj same⟩
      · rintro ⟨⟨admitted, others⟩, rfl⟩
        exact ⟨_, ⟨admitted, rfl⟩, _, ⟨others, rfl⟩, rfl⟩

def itemValues (field : Field) (items : List (List Char)) : ValueSet :=
  ValueSet.ofList (items.map fun item => field.canonical (Numeral.value item))

theorem mem_item_values (field : Field) (items : List (List Char)) (value : Nat) :
    value ∈ itemValues field items ↔
      ∃ item ∈ items, field.canonical (Numeral.value item) = value := by
  rw [itemValues, ValueSet.mem_of_list, List.mem_map]

theorem parse_items_eq_ok_iff (field : Field) (items : List (List Char)) (rule : Rule) :
    parseItems field items = .ok rule ↔
      (∀ item ∈ items, field.Admits item) ∧ ofValues (itemValues field items) = rule := by
  rw [parseItems, bind_eq_ok_iff]
  simp only [map_parse_value_eq_ok_iff]
  constructor
  · rintro ⟨_, ⟨admitted, rfl⟩, same⟩
    exact ⟨admitted, Except.ok.inj same⟩
  · rintro ⟨admitted, rfl⟩
    exact ⟨_, ⟨admitted, rfl⟩, rfl⟩

theorem of_values_list {values : ValueSet}
    (distinct : ∃ first ∈ values, ∃ second ∈ values, first ≠ second) :
    ofValues values = .list values := by
  have long := (ValueSet.two_le_length_iff values).mpr distinct
  unfold ofValues
  split
  case h_1 value only => simp [only] at long
  case h_2 => rfl

theorem of_values_specific {values : ValueSet} {value : Nat}
    (only : ∀ other, other ∈ values ↔ other = value) : ofValues values = .specific value := by
  have single : values = ValueSet.singleton value := by
    apply ValueSet.ext
    intro other
    rw [only, ValueSet.mem_singleton]
  subst single
  rfl

/-- Either all items stand for one value or two of them differ. -/
theorem denotes_of_items {field : Field} {items : List (List Char)} (nonempty : items ≠ [])
    (admitted : ∀ item ∈ items, field.Admits item) :
    Denotes field (List.intercalate [','] items) (ofValues (itemValues field items)) := by
  obtain ⟨first, rest, rfl⟩ := List.exists_cons_of_ne_nil nonempty
  by_cases same : ∀ item ∈ first :: rest,
      field.canonical (Numeral.value item) = field.canonical (Numeral.value first)
  · have only : ∀ other, other ∈ itemValues field (first :: rest) ↔
        other = field.canonical (Numeral.value first) := by
      intro other
      rw [mem_item_values]
      constructor
      · rintro ⟨item, member, rfl⟩
        exact same item member
      · rintro rfl
        exact ⟨first, List.mem_cons_self, rfl⟩
    rw [of_values_specific only]
    cases rest with
    | nil =>
        rw [List.intercalate_singleton]
        exact .specific (admitted first List.mem_cons_self)
    | cons second others => exact .repeated (by simp) admitted same
  · push Not at same
    obtain ⟨item, member, differs⟩ := same
    have distinct : ∃ one ∈ itemValues field (first :: rest),
        ∃ other ∈ itemValues field (first :: rest), one ≠ other :=
      ⟨_, (mem_item_values _ _ _).mpr ⟨item, member, rfl⟩,
        _, (mem_item_values _ _ _).mpr ⟨first, List.mem_cons_self, rfl⟩, differs⟩
    rw [of_values_list distinct]
    refine .list ?_ admitted (mem_item_values field _) distinct
    cases rest with
    | nil => simp_all
    | cons second others => simp

theorem mem_wrapped_days (lo day : Nat) :
    day ∈ ValueSet.insert 0 (ValueSet.stepping lo 6 1) ↔ day = 0 ∨ lo ≤ day ∧ day ≤ 6 := by
  rw [ValueSet.mem_insert, ValueSet.mem_stepping_one]

theorem denotes_of_bounds {field : Field} {first second : List Char}
    (bounds : field.AdmitsBounds first second) :
    Denotes field (first ++ '-' :: second)
      (ofBounds field (Numeral.value first) (Numeral.value second)) := by
  unfold ofBounds
  split
  case isTrue wraps =>
      split
      case isTrue from7 => exact .sundayOnly wraps.1 bounds from7 wraps.2
      case isFalse notFrom7 =>
          have ordered := bounds.2.2
          have earlier : Numeral.value first < 7 := by omega
          exact .untilSunday wraps.1 bounds wraps.2 earlier (mem_wrapped_days _)
  case isFalse plain => exact .range bounds plain

theorem denotes_of_parse_stepped {field : Field} {token : String} {base size : List Char}
    {rule : Rule} (parsed : parseStepped field token base size = .ok rule) :
    Denotes field (base ++ '/' :: size) rule := by
  obtain ⟨step, counted, rest⟩ := bind_eq_ok_iff.mp parsed
  obtain ⟨isStep, rfl⟩ := (parse_step_eq_ok_iff _ _ _ _).mp counted
  split at rest
  case isTrue star =>
      obtain rfl := Except.ok.inj rest
      rw [star]
      exact .step isStep
  case isFalse =>
      split at rest
      case h_1 first second cut =>
          obtain ⟨baseEq, _⟩ := (Text.cut_eq_some_iff _ _ _ _).mp cut
          obtain ⟨_, bounded, done⟩ := bind_eq_ok_iff.mp rest
          obtain ⟨bounds, rfl⟩ := (parse_bounds_eq_ok_iff _ _ _ _ _).mp bounded
          obtain rfl := Except.ok.inj done
          rw [baseEq, List.append_assoc, List.cons_append]
          exact .stepRange bounds isStep
      case h_2 => cases rest

/-- Whatever the reader accepts is in the grammar, with the rule that was read. -/
theorem denotes_of_parse {field : Field} {token : String} {rule : Rule}
    (parsed : parse field token = .ok rule) : Denotes field token.toList rule := by
  unfold parse at parsed
  split at parsed
  case isTrue star =>
      obtain rfl := Except.ok.inj parsed
      rw [star]
      exact .any
  case isFalse =>
      split at parsed
      case h_1 base size cut =>
          rw [((Text.cut_eq_some_iff _ _ _ _).mp cut).1]
          exact denotes_of_parse_stepped parsed
      case h_2 =>
          split at parsed
          case h_1 first second cut =>
              rw [((Text.cut_eq_some_iff _ _ _ _).mp cut).1]
              obtain ⟨_, bounded, done⟩ := bind_eq_ok_iff.mp parsed
              obtain ⟨bounds, rfl⟩ := (parse_bounds_eq_ok_iff _ _ _ _ _).mp bounded
              obtain rfl := Except.ok.inj done
              exact denotes_of_bounds bounds
          case h_2 =>
              obtain ⟨admitted, rfl⟩ := (parse_items_eq_ok_iff _ _ _).mp parsed
              have written := denotes_of_items (List.splitOn_ne_nil ',' _) admitted
              rwa [List.intercalate_splitOn] at written

/-- No separator is a digit, so numerals hold none. -/
theorem not_mem_of_numeral {text : List Char} {separator : Char} (numeral : IsNumeral text)
    (symbol : separator.isDigit = false) : separator ∉ text := by
  intro member
  rw [numeral.2 separator member] at symbol
  exact Bool.noConfusion symbol

theorem ne_star_of_mem {text : List Char} {separator : Char} (member : separator ∈ text)
    (differs : separator ≠ '*') : text ≠ ['*'] := by
  rintro rfl
  exact differs (List.mem_singleton.mp member)

theorem mem_intercalate {items : List (List Char)} {separator char : Char}
    (member : char ∈ List.intercalate [separator] items) :
    char = separator ∨ ∃ item ∈ items, char ∈ item := by
  induction items with
  | nil => simp at member
  | cons item rest induction =>
      cases rest with
      | nil => exact Or.inr ⟨item, by simp, by simpa using member⟩
      | cons second others =>
          rw [List.intercalate_cons_cons] at member
          simp only [List.mem_append, List.mem_singleton] at member
          rcases member with (inside | joint) | later
          · exact Or.inr ⟨item, by simp, inside⟩
          · exact Or.inl joint
          · rcases induction later with joint | ⟨found, foundMember, inside⟩
            · exact Or.inl joint
            · exact Or.inr ⟨found, List.mem_cons_of_mem _ foundMember, inside⟩

theorem not_mem_intercalate {field : Field} {items : List (List Char)} (separator : Char)
    (admitted : ∀ item ∈ items, field.Admits item) (symbol : separator.isDigit = false)
    (differs : separator ≠ ',') : separator ∉ List.intercalate [','] items := by
  intro member
  rcases mem_intercalate member with same | ⟨item, itemMember, inside⟩
  · exact differs same
  · exact not_mem_of_numeral (admitted item itemMember).1 symbol inside

theorem parse_eq_stepped {field : Field} {token : String} {base size : List Char}
    (written : token.toList = base ++ '/' :: size) (first : '/' ∉ base) :
    parse field token = parseStepped field token base size := by
  have slash : '/' ∈ token.toList := by simp [written]
  have cut := (Text.cut_eq_some_iff '/' token.toList base size).mpr ⟨written, first⟩
  rw [parse, if_neg (ne_star_of_mem slash (by decide)), cut]

theorem parse_eq_range {field : Field} {token : String} {first second : List Char}
    (written : token.toList = first ++ '-' :: second) (noSlash : '/' ∉ token.toList)
    (leftmost : '-' ∉ first) :
    parse field token = parseRange field token first second := by
  have hyphen : '-' ∈ token.toList := by simp [written]
  have noCut := (Text.cut_eq_none_iff '/' token.toList).mpr noSlash
  have cut := (Text.cut_eq_some_iff '-' token.toList first second).mpr ⟨written, leftmost⟩
  rw [parse, if_neg (ne_star_of_mem hyphen (by decide)), noCut, cut]

theorem parse_eq_items {field : Field} {token : String} (notStar : token.toList ≠ ['*'])
    (noSlash : '/' ∉ token.toList) (noHyphen : '-' ∉ token.toList) :
    parse field token = parseItems field (token.toList.splitOn ',') := by
  have noSlashCut := (Text.cut_eq_none_iff '/' token.toList).mpr noSlash
  have noHyphenCut := (Text.cut_eq_none_iff '-' token.toList).mpr noHyphen
  rw [parse, if_neg notStar, noSlashCut, noHyphenCut]

theorem parse_of_bounds {field : Field} {token : String} {first second : List Char}
    (written : token.toList = first ++ '-' :: second)
    (bounds : field.AdmitsBounds first second) :
    parse field token = .ok (ofBounds field (Numeral.value first) (Numeral.value second)) := by
  have noSlash : '/' ∉ token.toList := by
    rw [written]
    simp only [List.mem_append, List.mem_cons, not_or]
    exact ⟨not_mem_of_numeral bounds.1.1 (by decide), by decide,
      not_mem_of_numeral bounds.2.1.1 (by decide)⟩
  rw [parse_eq_range written noSlash (not_mem_of_numeral bounds.1.1 (by decide))]
  unfold parseRange
  rw [(parse_bounds_eq_ok_iff field token first second _).mpr ⟨bounds, rfl⟩]
  rfl

theorem parse_of_items {field : Field} {token : String} {items : List (List Char)}
    (written : token.toList = List.intercalate [','] items) (nonempty : items ≠ [])
    (admitted : ∀ item ∈ items, field.Admits item) :
    parse field token = .ok (ofValues (itemValues field items)) := by
  have apart : ∀ item ∈ items, ',' ∉ item :=
    fun item member => not_mem_of_numeral (admitted item member).1 (by decide)
  have noStar := not_mem_intercalate '*' admitted (by decide) (by decide)
  have noSlash := not_mem_intercalate '/' admitted (by decide) (by decide)
  have noHyphen := not_mem_intercalate '-' admitted (by decide) (by decide)
  rw [← written] at noStar noSlash noHyphen
  have notStar : token.toList ≠ ['*'] := by
    intro star
    exact noStar (by simp [star])
  rw [parse_eq_items notStar noSlash noHyphen, written, List.splitOn_intercalate ',' apart nonempty]
  exact (parse_items_eq_ok_iff field items _).mpr ⟨admitted, rfl⟩

theorem parse_of_step {field : Field} {token : String} {size : List Char}
    (written : token.toList = '*' :: '/' :: size) (counted : IsStepSize size) :
    parse field token = .ok (.step (Numeral.value size)) := by
  have slashed : token.toList = ['*'] ++ '/' :: size := written
  rw [parse_eq_stepped slashed (by decide)]
  unfold parseStepped
  rw [(parse_step_eq_ok_iff field token size _).mpr ⟨counted, rfl⟩]
  rfl

theorem parse_of_step_range {field : Field} {token : String} {first second size : List Char}
    (written : token.toList = first ++ '-' :: (second ++ '/' :: size))
    (bounds : field.AdmitsBounds first second) (counted : IsStepSize size) :
    parse field token =
      .ok (.stepRange (Numeral.value first) (Numeral.value second) (Numeral.value size)) := by
  have noSlash : '/' ∉ first ++ '-' :: second := by
    simp only [List.mem_append, List.mem_cons, not_or]
    exact ⟨not_mem_of_numeral bounds.1.1 (by decide), by decide,
      not_mem_of_numeral bounds.2.1.1 (by decide)⟩
  have hyphen : '-' ∈ first ++ '-' :: second := by simp
  have cut := (Text.cut_eq_some_iff '-' (first ++ '-' :: second) first second).mpr
    ⟨rfl, not_mem_of_numeral bounds.1.1 (by decide)⟩
  have regrouped : token.toList = (first ++ '-' :: second) ++ '/' :: size := by
    rw [written, List.append_assoc, List.cons_append]
  rw [parse_eq_stepped regrouped noSlash]
  apply bind_eq_ok_iff.mpr
  refine ⟨_, (parse_step_eq_ok_iff field token size _).mpr ⟨counted, rfl⟩, ?_⟩
  rw [if_neg (ne_star_of_mem hyphen (by decide)), cut]
  apply bind_eq_ok_iff.mpr
  exact ⟨_, (parse_bounds_eq_ok_iff field token first second _).mpr ⟨bounds, rfl⟩, rfl⟩

/-- The reader accepts every token of the grammar and gives the rule it denotes. -/
theorem parse_of_denotes {field : Field} {token : String} {rule : Rule}
    (denoted : Denotes field token.toList rule) : parse field token = .ok rule := by
  generalize written : token.toList = text at denoted
  cases denoted with
  | any => rw [parse, if_pos written]
  | step counted => exact parse_of_step written counted
  | stepRange bounds counted => exact parse_of_step_range written bounds counted
  | range bounds plain =>
      rw [parse_of_bounds written bounds, ofBounds, if_neg plain]
  | @untilSunday first second days week bounds sunday earlier wrapped =>
      have same : days = ValueSet.insert 0 (ValueSet.stepping (Numeral.value first) 6 1) :=
        ValueSet.ext fun day => (wrapped day).trans (mem_wrapped_days _ day).symm
      rw [parse_of_bounds written bounds, ofBounds, if_pos ⟨week, sunday⟩,
        if_neg (Nat.ne_of_lt earlier), same]
  | sundayOnly week bounds from7 until7 =>
      rw [parse_of_bounds written bounds, ofBounds, if_pos ⟨week, until7⟩, if_pos from7]
  | @list items values several admitted collected distinct =>
      have same : values = itemValues field items :=
        ValueSet.ext fun value => (collected value).trans (mem_item_values field items value).symm
      rw [parse_of_items written (List.ne_nil_of_length_pos (by omega)) admitted, ← same,
        of_values_list distinct]
  | @repeated items value several admitted same =>
      have nonempty : items ≠ [] := List.ne_nil_of_length_pos (by omega)
      have only : ∀ other, other ∈ itemValues field items ↔ other = value := by
        intro other
        rw [mem_item_values]
        constructor
        · rintro ⟨item, member, rfl⟩
          exact same item member
        · rintro rfl
          obtain ⟨item, member⟩ := List.exists_mem_of_ne_nil items nonempty
          exact ⟨item, member, same item member⟩
      rw [parse_of_items written nonempty admitted, of_values_specific only]
  | specific admitted =>
      have single : token.toList = List.intercalate [','] [text] := by
        rw [written, List.intercalate_singleton]
      have only : ∀ other, other ∈ itemValues field [text] ↔
          other = field.canonical (Numeral.value text) := by
        intro other
        rw [mem_item_values]
        simp [eq_comm]
      rw [parse_of_items single (by simp) (by simpa using admitted), of_values_specific only]

/-- A week that ends on the later Sunday is read as the set of its days. -/
example : parse .dayOfWeek "05-7" = .ok (.list (ValueSet.ofList [0, 5, 6])) := by decide

end Rule

end CronSchedule
