import CronSchedule.Expression.Parser
import CronSchedule.Proofs.Field.Refusal
import CronSchedule.Proofs.Text.Layout

/-!
# Tokens and the fields they stand for

The number of tokens assigns each of them its field. An expression is read when every
token is read under its own field, and takes each rule from the token of that field.
Otherwise the leftmost refused token gives the error. Blanks have no part in this: all
texts that lay out the same tokens are read alike.
-/

namespace CronSchedule

set_option autoImplicit false

/-- The fields of so many tokens, from left to right. Five tokens leave out the seconds. -/
def Field.roles (count : Nat) : List Field := if count = 6 then all else all.tail

namespace FieldTokens

variable {tokens : FieldTokens} {expression : Expression} {error : ParseError}

theorem of_list_spec {texts : List String} (count : texts.length = 5 ∨ texts.length = 6) :
    ∃ tokens, ofList texts = .ok tokens ∧
      tokens.toList = (Field.roles texts.length).zip texts ∧
      tokens.second.isSome = decide (texts.length = 6) := by
  match texts with
  | [_, _, _, _, _] => exact ⟨_, rfl, rfl, rfl⟩
  | [_, _, _, _, _, _] => exact ⟨_, rfl, rfl, rfl⟩
  | [] | [_] | [_, _] | [_, _, _] | [_, _, _, _] => simp at count
  | _ :: _ :: _ :: _ :: _ :: _ :: _ :: _ => simp at count

theorem of_list_refused {texts : List String} (count : ¬(texts.length = 5 ∨ texts.length = 6)) :
    ofList texts = .error (.fieldCount texts.length) := by
  unfold ofList
  split
  case h_1 => exact absurd (Or.inl rfl) count
  case h_2 => exact absurd (Or.inr rfl) count
  case h_3 => rfl

/-- The rules of an expression come from reading its tokens one after the other. -/
theorem written_rules_parse (tokens : FieldTokens) :
    Expression.writtenRules <$> tokens.parse =
      tokens.toList.mapM fun pair => Rule.parse pair.1 pair.2 := by
  cases known : tokens.second with
  | none =>
      have absent : parseOptional .second none = pure none := rfl
      simp [parse, toList, known, absent, Expression.writtenRules]
  | some second =>
      have present : parseOptional .second (some second) =
          some <$> Rule.parse .second second := rfl
      simp [parse, toList, known, present, Expression.writtenRules]

theorem parse_eq_error_iff :
    tokens.parse = .error error ↔ ∃ before field token after,
      tokens.toList = before ++ (field, token) :: after ∧
        (∀ earlier ∈ before, ∃ rule, Rule.parse earlier.1 earlier.2 = .ok rule) ∧
        Rule.parse field token = .error error := by
  have same : tokens.parse = .error error ↔
      Expression.writtenRules <$> tokens.parse = .error error := map_eq_error_iff.symm
  rw [same, written_rules_parse, map_list_eq_error_iff]
  constructor
  · intro refused
    rcases refused with ⟨before, ⟨field, token⟩, after, split, admitted, bad⟩
    exact ⟨before, field, token, after, split, admitted, bad⟩
  · intro refused
    rcases refused with ⟨before, field, token, after, split, admitted, bad⟩
    exact ⟨before, (field, token), after, split, admitted, bad⟩

/-- A missing token is as good as one for second 0. -/
theorem parse_optional_eq_ok_iff {token : Option String} {second : Option Rule} :
    parseOptional .second token = .ok second ↔
      token.isSome = second.isSome ∧
        ∀ text ∈ token, Rule.parse .second text = .ok (second.getD (.specific 0)) := by
  cases token with
  | none => cases second <;> simp [parseOptional]
  | some text => cases second <;> simp [parseOptional, map_eq_ok_iff]

theorem parse_eq_ok_iff :
    tokens.parse = .ok expression ↔ tokens.second.isSome = expression.hasSeconds ∧
      ∀ pair ∈ tokens.toList, Rule.parse pair.1 pair.2 = .ok (expression.rule pair.1) := by
  constructor
  · intro read
    simp only [parse, bind_eq_ok_iff] at read
    rcases read with ⟨second, secondRead, minute, minuteRead, hour, hourRead, dayOfMonth,
      dayOfMonthRead, month, monthRead, dayOfWeek, dayOfWeekRead, done⟩
    cases done
    have seconds := parse_optional_eq_ok_iff.mp secondRead
    refine ⟨seconds.1, ?_⟩
    intro pair member
    simp only [toList, List.mem_append, List.mem_map, Option.mem_toList, List.mem_cons,
      List.not_mem_nil, or_false] at member
    rcases member with ⟨text, written, rfl⟩ | rfl | rfl | rfl | rfl | rfl
    · exact seconds.2 text written
    · exact minuteRead
    · exact hourRead
    · exact dayOfMonthRead
    · exact monthRead
    · exact dayOfWeekRead
  · intro accepted
    rcases accepted with ⟨count, each⟩
    simp only [toList, List.forall_mem_append, List.forall_mem_map, List.forall_mem_cons,
      Option.mem_toList] at each
    rcases each with ⟨seconds, minute, hour, dayOfMonth, month, dayOfWeek, _⟩
    have second := parse_optional_eq_ok_iff.mpr ⟨count, seconds⟩
    simp only [parse, second, minute, hour, dayOfMonth, month, dayOfWeek]
    rfl

theorem exists_parse_iff :
    (∃ expression, tokens.parse = .ok expression) ↔
      ∀ pair ∈ tokens.toList, ∃ rule, Rule.parse pair.1 pair.2 = .ok rule := by
  constructor
  · intro accepted pair member
    rcases accepted with ⟨expression, read⟩
    exact ⟨_, (parse_eq_ok_iff.mp read).2 pair member⟩
  · intro each
    cases read : tokens.parse with
    | ok expression => exact ⟨expression, rfl⟩
    | error error =>
        rcases parse_eq_error_iff.mp read with ⟨before, field, token, after, split, _, bad⟩
        have member : (field, token) ∈ tokens.toList := by simp [split]
        rcases each (field, token) member with ⟨rule, good⟩
        rw [bad] at good
        cases good

/-- The number of tokens is settled before any of them is read. -/
theorem parse_ne_field_count (found : Nat) : tokens.parse ≠ .error (.fieldCount found) := by
  intro refused
  rcases parse_eq_error_iff.mp refused with ⟨before, field, token, after, _, _, bad⟩
  cases Rule.field_of_refused bad

end FieldTokens

namespace Expression

variable {tokens : List String} {text : String}

theorem parse_laid_out (laid : Text.LaidOut (tokens.map String.toList) text.toList) :
    parse text = FieldTokens.ofList tokens >>= FieldTokens.parse := by
  have same : (Text.words text.toList).map String.ofList = tokens := by
    rw [Text.words_eq_iff_laid_out.mpr laid, List.map_map]
    simp [Function.comp_def]
  rw [parse, FieldTokens.ofText, same]

theorem rule_second_of_not_hasSeconds {expression : Expression}
    (absent : expression.hasSeconds = false) : expression.rule .second = .specific 0 := by
  have missing : expression.second = none := by simpa [hasSeconds] using absent
  rw [rule, missing, Option.getD_none]

/-- The tokens of a text decide what it is read as, however they are laid out: their number
decides the fields, the leftmost token that its field refuses decides the error, and
without one each field takes its rule from its own token. -/
theorem tokens_decide_expression
    (laid : Text.LaidOut (tokens.map String.toList) text.toList) :
    let assigned := (Field.roles tokens.length).zip tokens
    (parse text = .error (.fieldCount tokens.length) ↔
        tokens.length ≠ 5 ∧ tokens.length ≠ 6) ∧
      (tokens.length = 5 ∨ tokens.length = 6 →
        (∀ error, parse text = .error error ↔ ∃ before field token after,
          assigned = before ++ (field, token) :: after ∧
            (∀ earlier ∈ before, ∃ rule, Rule.parse earlier.1 earlier.2 = .ok rule) ∧
            Rule.parse field token = .error error) ∧
        ((∃ expression, parse text = .ok expression) ↔
          ∀ pair ∈ assigned, ∃ rule, Rule.parse pair.1 pair.2 = .ok rule) ∧
        ∀ expression, parse text = .ok expression ↔
          expression.hasSeconds = decide (tokens.length = 6) ∧
            (∀ pair ∈ assigned, Rule.parse pair.1 pair.2 = .ok (expression.rule pair.1)) ∧
            (tokens.length = 5 → expression.rule .second = .specific 0)) ∧
      ∀ other : String, Text.LaidOut (tokens.map String.toList) other.toList →
        parse other = parse text := by
  intro assigned
  have read := parse_laid_out laid
  have alike : ∀ other : String, Text.LaidOut (tokens.map String.toList) other.toList →
      parse other = parse text := by
    intro other otherLaid
    rw [read, parse_laid_out otherLaid]
  by_cases count : tokens.length = 5 ∨ tokens.length = 6
  · rcases FieldTokens.of_list_spec count with ⟨byField, made, listed, seconds⟩
    have same : parse text = byField.parse := by
      rw [read, made]
      rfl
    rw [same, show assigned = byField.toList from listed.symm]
    refine ⟨?_, fun _ => ⟨?_, FieldTokens.exists_parse_iff, ?_⟩, same ▸ alike⟩
    · constructor
      · intro refused
        exact absurd refused (FieldTokens.parse_ne_field_count _)
      · intro neither
        omega
    · intro error
      exact FieldTokens.parse_eq_error_iff
    · intro expression
      rw [FieldTokens.parse_eq_ok_iff, seconds, eq_comm]
      constructor
      · intro accepted
        refine ⟨accepted.1, accepted.2, ?_⟩
        intro five
        apply rule_second_of_not_hasSeconds
        rw [accepted.1, five]
        rfl
      · intro accepted
        exact ⟨accepted.1, accepted.2.1⟩
  · have refused : parse text = .error (.fieldCount tokens.length) := by
      rw [read, FieldTokens.of_list_refused count]
      rfl
    refine ⟨?_, fun known => absurd known count, alike⟩
    constructor
    · intro _
      exact not_or.mp count
    · intro _
      exact refused

/-- Of two tokens that are refused the left one is reported, with wide blanks between the
tokens as with plain ones. -/
theorem tokens_decide_expression_of_two_bad_tokens :
    let tokens := ["0", "99", "*", "*", "5-1"]
    let text := "\u3000 0\t99\u00a0* *\u2028\u20285-1"
    Text.LaidOut (tokens.map String.toList) text.toList ∧
      parse text = .error (.outOfDomain .hour "99" ⟨0, 23⟩) ∧
      (¬∃ expression, parse text = .ok expression) ∧ parse "0 99 * * 5-1" = parse text := by
  intro tokens text
  have laid : Text.LaidOut (tokens.map String.toList) text.toList :=
    Text.words_eq_iff_laid_out.mp (by decide)
  have plain : Text.LaidOut (tokens.map String.toList) "0 99 * * 5-1".toList :=
    Text.words_eq_iff_laid_out.mp (by decide)
  have settled := tokens_decide_expression laid
  have five := settled.2.1 (Or.inl rfl)
  have bad : Rule.parse .hour "99" = .error (.outOfDomain .hour "99" ⟨0, 23⟩) := by decide
  have refused : parse text = .error (.outOfDomain .hour "99" ⟨0, 23⟩) := by
    apply (five.1 _).mpr
    refine ⟨[(.minute, "0")], .hour, "99", _, rfl, ?_, bad⟩
    intro earlier member
    rw [List.mem_singleton.mp member]
    exact ⟨.specific 0, by decide⟩
  refine ⟨laid, refused, ?_, settled.2.2 _ plain⟩
  intro accepted
  rcases five.2.1.mp accepted (.hour, "99") (by decide) with ⟨rule, good⟩
  rw [bad] at good
  cases good

end Expression

end CronSchedule
