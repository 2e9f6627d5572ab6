import CronSchedule.Proofs.Field.Grammar

/-!
# Why a token is refused

The first slash of a token decides, then its first hyphen, then the leftmost bad one
of its items. Each level reports in its own way: a slashed or hyphened token is quoted
whole, an item alone. Every error names the field that the token was read for.
-/

namespace CronSchedule

set_option autoImplicit false

open Numeral (IsNumeral)

/-- The field that an error speaks of. A wrong number of fields is the fault of none. -/
def ParseError.field? : ParseError → Option Field
  | .fieldCount _ => none
  | .range field _ | .step field _ | .outOfDomain field _ _ | .unreadable field _ => some field

namespace Text

/-- The pieces between separators hold none. -/
theorem not_mem_of_mem_split {separator : Char} {text piece : List Char}
    (member : piece ∈ text.splitOn separator) : separator ∉ piece := by
  induction text generalizing piece with
  | nil =>
      rw [List.splitOn_nil, List.mem_singleton] at member
      simp [member]
  | cons char rest induction =>
      rw [List.splitOn_cons_eq_if_modifyHead] at member
      split at member
      case isTrue =>
          rcases List.mem_cons.mp member with same | later
          · simp [same]
          · exact induction later
      case isFalse differs =>
          have apart : separator ≠ char := by
            intro same
            simp [same] at differs
          match known : rest.splitOn separator with
          | [] => exact absurd known (List.splitOn_ne_nil separator rest)
          | first :: others =>
              rw [known, List.modifyHead_cons] at member
              rcases List.mem_cons.mp member with same | later
              · rw [same, List.mem_cons, not_or]
                exact ⟨apart, induction (by simp [known])⟩
              · exact induction (by simp [known, later])

end Text

namespace Rule

variable {field : Field} {token : String} {error : ParseError}

/-- What the error of a refused item says. That of a number outside the domain holds the
domain of the field, and its message states it. -/
structure ItemFault (field : Field) (item : List Char) (error : ParseError) : Prop where
  named : error.field? = some field
  refused : ¬field.Admits item
  outside : error = .outOfDomain field (String.ofList item) field.domain ↔
    IsNumeral item ∧ Numeral.value item ∉ field.domain
  unreadable : error = .unreadable field (String.ofList item) ↔ ¬IsNumeral item
  message : IsNumeral item → error.message =
    field.name ++ " value " ++ String.ofList item ++ " is out of range " ++ field.domain.text

/-- What the error of a slashed token says, by the parts around its first slash. The
step is judged before the bounds, and the bounds are those around the first hyphen. -/
structure SteppedFault (field : Field) (token : String) (base size : List Char)
    (error : ParseError) : Prop where
  named : error.field? = some field
  step : error = .step field token ↔ ¬IsStepSize size
  range : IsStepSize size → (error = .range field token ↔ '-' ∈ base)
  unreadable : IsStepSize size → (error = .unreadable field token ↔ '-' ∉ base)
  bounds : IsStepSize size → ∀ first second, base = first ++ '-' :: second → '-' ∉ first →
    ¬field.AdmitsBounds first second

theorem parse_value_eq_error_iff (item : List Char) :
    parseValue field item = .error error ↔
      IsNumeral item ∧ Numeral.value item ∉ field.domain ∧
          error = .outOfDomain field (String.ofList item) field.domain ∨
        ¬IsNumeral item ∧ error = .unreadable field (String.ofList item) := by
  by_cases numeral : IsNumeral item
  · by_cases member : Numeral.value item ∈ field.domain
    · have inside := (read_mem_domain_iff field item).mpr member
      simp [parseValue, Numeral.read?, numeral, member, inside]
    · have outside := mt (read_mem_domain_iff field item).mp member
      simp [parseValue, Numeral.read?, numeral, member, outside, eq_comm]
  · simp [parseValue, Numeral.read?, numeral, eq_comm]

theorem parse_bounds_error {first second : List Char}
    (refused : parseBounds field token first second = .error error) :
    ¬field.AdmitsBounds first second ∧ error = .range field token := by
  constructor
  · intro admitted
    rw [(parse_bounds_eq_ok_iff field token first second _).mpr ⟨admitted, rfl⟩] at refused
    cases refused
  · unfold parseBounds at refused
    split at refused
    · split at refused
      · cases refused
      · exact (Except.error.inj refused).symm
    · exact (Except.error.inj refused).symm

theorem parse_step_error {size : List Char}
    (refused : parseStep field token size = .error error) :
    ¬IsStepSize size ∧ error = .step field token := by
  constructor
  · intro counted
    rw [(parse_step_eq_ok_iff field token size _).mpr ⟨counted, rfl⟩] at refused
    cases refused
  · unfold parseStep at refused
    split at refused
    · split at refused
      · cases refused
      · exact (Except.error.inj refused).symm
    · exact (Except.error.inj refused).symm

theorem parse_stepped_error {base size : List Char}
    (refused : parseStepped field token base size = .error error) :
    (¬IsStepSize size ∧ error = .step field token) ∨
      IsStepSize size ∧
        ('-' ∉ base ∧ error = .unreadable field token ∨
          ∃ first second, base = first ++ '-' :: second ∧ '-' ∉ first ∧
            ¬field.AdmitsBounds first second ∧ error = .range field token) := by
  rcases bind_eq_error_iff.mp refused with badStep | ⟨step, counted, rest⟩
  · exact Or.inl (parse_step_error badStep)
  · have isStep := ((parse_step_eq_ok_iff field token size step).mp counted).1
    refine Or.inr ⟨isStep, ?_⟩
    split at rest
    case isTrue => cases rest
    case isFalse =>
        split at rest
        case h_1 first second cut =>
            have parts := (Text.cut_eq_some_iff '-' base first second).mp cut
            rcases bind_eq_error_iff.mp rest with badBounds | ⟨bounds, _, impossible⟩
            · have fault := parse_bounds_error badBounds
              exact Or.inr ⟨first, second, parts.1, parts.2, fault.1, fault.2⟩
            · cases impossible
        case h_2 cut =>
            have noHyphen := (Text.cut_eq_none_iff '-' base).mp cut
            exact Or.inl ⟨noHyphen, (Except.error.inj rest).symm⟩

theorem stepped_fault {base size : List Char}
    (refused : parseStepped field token base size = .error error) :
    SteppedFault field token base size error := by
  rcases parse_stepped_error refused with ⟨badStep, same⟩ |
    ⟨counted, ⟨noHyphen, same⟩ | ⟨first, second, written, leftmost, badBounds, same⟩⟩
  · rw [same]
    constructor
    case named => rfl
    case step => simp [badStep]
    all_goals exact fun counted => absurd counted badStep
  · rw [same]
    constructor
    case named => rfl
    case step => simp [counted]
    case range => simp [noHyphen]
    case unreadable => simp [noHyphen]
    case bounds =>
        intro _ lo hi splits
        simp [splits] at noHyphen
  · rw [same]
    have hyphen : '-' ∈ base := by simp [written]
    constructor
    case named => rfl
    case step => simp [counted]
    case range => simp [hyphen]
    case unreadable => simp [hyphen]
    case bounds =>
        -- The first hyphen splits the base in one way only.
        have cut := (Text.cut_eq_some_iff '-' base first second).mpr ⟨written, leftmost⟩
        intro _ lo hi splits earliest
        have other := (Text.cut_eq_some_iff '-' base lo hi).mpr ⟨splits, earliest⟩
        rw [cut] at other
        cases other
        exact badBounds

theorem item_fault {item : List Char} (refused : parseValue field item = .error error) :
    ItemFault field item error := by
  rcases (parse_value_eq_error_iff item).mp refused with
    ⟨numeral, outside, same⟩ | ⟨noNumeral, same⟩
  · rw [same]
    constructor
    case named => rfl
    case refused => exact fun admitted => outside admitted.2
    case outside => simp [numeral, outside]
    case unreadable => simp [numeral]
    case message => exact fun _ => rfl
  · rw [same]
    constructor
    case named => rfl
    case refused => exact fun admitted => noNumeral admitted.1
    case outside => simp [noNumeral]
    case unreadable => simp [noNumeral]
    case message => exact fun numeral => absurd numeral noNumeral

theorem first_item_fault {items : List (List Char)}
    (refused : parseItems field items = .error error) :
    ∃ before item after, items = before ++ item :: after ∧
      (∀ earlier ∈ before, field.Admits earlier) ∧ ItemFault field item error := by
  rcases bind_eq_error_iff.mp refused with badItem | ⟨values, _, impossible⟩
  · rcases map_list_eq_error_iff.mp badItem with ⟨before, item, after, split, accepted, bad⟩
    refine ⟨before, item, after, split, ?_, item_fault bad⟩
    intro earlier member
    rcases accepted earlier member with ⟨value, read⟩
    exact ((parse_value_eq_ok_iff field earlier value).mp read).1
  · cases impossible

theorem range_fault {first second : List Char}
    (refused : parseRange field token first second = .error error) :
    error = .range field token := by
  rcases bind_eq_error_iff.mp refused with badBounds | ⟨bounds, _, impossible⟩
  · exact (parse_bounds_error badBounds).2
  · cases impossible

/-- A refusal comes from the level that the separators choose. -/
theorem refusal_cases (refused : parse field token = .error error) :
    (∃ base size, token.toList = base ++ '/' :: size ∧ '/' ∉ base ∧
        parseStepped field token base size = .error error) ∨
      ('/' ∉ token.toList ∧ '-' ∈ token.toList ∧ error = .range field token) ∨
      ('/' ∉ token.toList ∧ '-' ∉ token.toList ∧
        parseItems field (token.toList.splitOn ',') = .error error) := by
  by_cases slash : '/' ∈ token.toList
  · rcases List.eq_append_cons_of_mem slash with ⟨base, size, written, first⟩
    rw [parse_eq_stepped written first] at refused
    exact Or.inl ⟨base, size, written, first, refused⟩
  · by_cases hyphen : '-' ∈ token.toList
    · rcases List.eq_append_cons_of_mem hyphen with ⟨first, second, written, leftmost⟩
      rw [parse_eq_range written slash leftmost] at refused
      exact Or.inr (Or.inl ⟨slash, hyphen, range_fault refused⟩)
    · have notStar : token.toList ≠ ['*'] := by
        intro star
        rw [parse, if_pos star] at refused
        cases refused
      rw [parse_eq_items notStar slash hyphen] at refused
      exact Or.inr (Or.inr ⟨slash, hyphen, refused⟩)

theorem field_of_refused (refused : parse field token = .error error) :
    error.field? = some field := by
  rcases refusal_cases refused with ⟨_, _, _, _, bad⟩ | ⟨_, _, same⟩ | ⟨_, _, bad⟩
  · exact (stepped_fault bad).named
  · rw [same]
    rfl
  · rcases first_item_fault bad with ⟨_, _, _, _, _, fault⟩
    exact fault.named

/-- A token is refused by its first slash, else by its first hyphen, else by the leftmost
of its items that stands for no value of the domain. -/
theorem refused_by_precedence (refused : parse field token = .error error) :
    error.field? = some field ∧
      ('/' ∈ token.toList → ∃ base size, token.toList = base ++ '/' :: size ∧ '/' ∉ base ∧
        SteppedFault field token base size error) ∧
      ('/' ∉ token.toList → '-' ∈ token.toList → error = .range field token) ∧
      ('/' ∉ token.toList → '-' ∉ token.toList → ∃ before item after,
        token.toList = List.intercalate [','] (before ++ item :: after) ∧
          (∀ piece ∈ before ++ item :: after, ',' ∉ piece) ∧
          (∀ earlier ∈ before, field.Admits earlier) ∧ ItemFault field item error) := by
  have named := field_of_refused refused
  rcases refusal_cases refused with
    ⟨base, size, written, first, bad⟩ | ⟨noSlash, hyphen, same⟩ | ⟨noSlash, noHyphen, bad⟩
  · have slash : '/' ∈ token.toList := by simp [written]
    have fault := stepped_fault bad
    exact ⟨named, fun _ => ⟨base, size, written, first, fault⟩, fun absent => absurd slash absent,
      fun absent => absurd slash absent⟩
  · exact ⟨named, fun slash => absurd slash noSlash, fun _ _ => same,
      fun _ absent => absurd hyphen absent⟩
  · rcases first_item_fault bad with ⟨before, item, after, split, admitted, fault⟩
    have written : token.toList = List.intercalate [','] (before ++ item :: after) := by
      rw [← split, List.intercalate_splitOn]
    have apart : ∀ piece ∈ before ++ item :: after, ',' ∉ piece := by
      rw [← split]
      intro piece member
      exact Text.not_mem_of_mem_split member
    exact ⟨named, fun slash => absurd slash noSlash, fun _ hyphen => absurd hyphen noHyphen,
      fun _ _ => ⟨before, item, after, written, apart, admitted, fault⟩⟩

/-- The second item has too many digits for any machine number. It is reported as a number,
and the third one, which is no number, is not reached. -/
theorem refused_by_precedence_of_saturated_item :
    let token := "07,00099999999999999999,x"
    let error := ParseError.outOfDomain .dayOfWeek "00099999999999999999" ⟨0, 7⟩
    parse .dayOfWeek token = .error error ∧ error.field? = some .dayOfWeek ∧
      ∃ before item after,
        token.toList = List.intercalate [','] (before ++ item :: after) ∧
          (∀ piece ∈ before ++ item :: after, ',' ∉ piece) ∧
          (∀ earlier ∈ before, Field.dayOfWeek.Admits earlier) ∧
          ItemFault .dayOfWeek item error := by
  intro token error
  have refused : parse .dayOfWeek token = .error error := by decide
  have classified := refused_by_precedence refused
  exact ⟨refused, classified.1, classified.2.2.2 (by decide) (by decide)⟩

/-- The step is at fault before the bounds, and a hyphen behind the slash is no range. -/
example : parse .hour "30-10/-5" = .error (.step .hour "30-10/-5") := by decide

end Rule

end CronSchedule
