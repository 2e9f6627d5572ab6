import CronSchedule.Expression.Datum
import CronSchedule.Proofs.Expression.WellFormed

/-!
# Canonical texts read back

The canonical text of an accepted expression has one word for each written rule,
and each word is read back as its rule. So the canonical text denotes the
expression again, whatever text it was first read from, and expressions are told
apart by their canonical texts.
-/

namespace CronSchedule

set_option autoImplicit false

namespace Text

/-- Solid words joined by single spaces are the words of the joined text. -/
theorem words_intercalate {tokens : List (List Char)}
    (solid : ∀ token ∈ tokens, token ≠ [] ∧ ∀ char ∈ token, isBlank char = false) :
    words (List.intercalate [' '] tokens) = tokens := by
  induction tokens with
  | nil => rfl
  | cons token rest induction =>
      obtain ⟨⟨nonempty, letters⟩, others⟩ := List.forall_mem_cons.mp solid
      cases rest with
      | nil =>
          rw [List.intercalate_singleton]
          exact words_of_solid nonempty letters
      | cons next later =>
          rw [List.intercalate_cons_cons, List.append_assoc, List.singleton_append,
            words_append_blank nonempty letters (by decide), induction others]

end Text

namespace Expression

variable {expression : Expression}

theorem written_rule_well_formed (wellFormed : expression.WellFormed) {rule : Rule}
    (written : rule ∈ expression.writtenRules) : ∃ field, rule.WellFormed field := by
  simp only [writtenRules, List.mem_append, Option.mem_toList, List.mem_cons,
    List.not_mem_nil, or_false] at written
  rcases written with second | rfl | rfl | rfl | rfl | rfl
  · exact ⟨_, wellFormed.second rule second⟩
  · exact ⟨_, wellFormed.minute⟩
  · exact ⟨_, wellFormed.hour⟩
  · exact ⟨_, wellFormed.dayOfMonth⟩
  · exact ⟨_, wellFormed.month⟩
  · exact ⟨_, wellFormed.dayOfWeek⟩

theorem words_text (wellFormed : expression.WellFormed) :
    Text.words expression.text.toList = expression.writtenRules.map Rule.chars := by
  rw [text, String.toList_ofList]
  apply Text.words_intercalate
  intro token member
  obtain ⟨rule, written, rfl⟩ := List.mem_map.mp member
  obtain ⟨field, ruleWellFormed⟩ := written_rule_well_formed wellFormed written
  exact ⟨Rule.chars_ne_nil ruleWellFormed, fun char => Rule.chars_solid⟩

def tokens (expression : Expression) : FieldTokens :=
  { second := expression.second.map Rule.text
    minute := expression.minute.text
    hour := expression.hour.text
    dayOfMonth := expression.dayOfMonth.text
    month := expression.month.text
    dayOfWeek := expression.dayOfWeek.text }

/-- The number of words tells whether the seconds were written. -/
theorem tokens_of_text (wellFormed : expression.WellFormed) :
    FieldTokens.ofText expression.text = .ok expression.tokens := by
  rw [FieldTokens.ofText, words_text wellFormed, List.map_map]
  unfold writtenRules tokens
  cases expression.second <;> rfl

theorem parse_tokens (wellFormed : expression.WellFormed) :
    expression.tokens.parse = .ok expression := by
  have second : FieldTokens.parseOptional .second (expression.second.map Rule.text) =
      .ok expression.second := by
    cases known : expression.second with
    | none => rfl
    | some rule =>
        rw [Option.map_some, FieldTokens.parseOptional,
          Rule.parse_text (wellFormed.second rule known)]
        rfl
  simp only [FieldTokens.parse, tokens, second, Rule.parse_text wellFormed.minute,
    Rule.parse_text wellFormed.hour, Rule.parse_text wellFormed.dayOfMonth,
    Rule.parse_text wellFormed.month, Rule.parse_text wellFormed.dayOfWeek]
  rfl

theorem parse_text (wellFormed : expression.WellFormed) :
    parse expression.text = .ok expression := by
  rw [parse, tokens_of_text wellFormed]
  exact parse_tokens wellFormed

theorem text_injective {other : Expression} (wellFormed : expression.WellFormed)
    (otherWellFormed : other.WellFormed) (same : expression.text = other.text) :
    expression = other := by
  have read := parse_text wellFormed
  rw [same, parse_text otherWellFormed] at read
  exact (Except.ok.inj read).symm

theorem of_datum_to_datum (wellFormed : expression.WellFormed) :
    ofDatum expression.toDatum = .ok expression := by
  rw [toDatum, ofDatum, parse_text wellFormed]
  rfl

/-- The canonical text of an accepted expression is read back as that expression, in
a text of its own as well as inside other data, and accepted expressions are equal
exactly when their canonical texts are. -/
theorem canonical_text_round_trip {text otherText : String} {expression other : Expression}
    (accepted : parse text = .ok expression) (otherAccepted : parse otherText = .ok other) :
    (∃ again, parse expression.text = .ok again ∧ again = expression ∧
      again.hasSeconds = expression.hasSeconds ∧
      (∀ field, again.rule field = expression.rule field) ∧ again.text = expression.text) ∧
      ofDatum expression.toDatum = .ok expression ∧
      (expression = other ↔ expression.text = other.text) := by
  have wellFormed := well_formed_of_parse accepted
  have otherWellFormed := well_formed_of_parse otherAccepted
  refine ⟨⟨expression, parse_text wellFormed, rfl, rfl, fun _ => rfl, rfl⟩,
    of_datum_to_datum wellFormed, congrArg Expression.text, ?_⟩
  exact text_injective wellFormed otherWellFormed

/-- Wide blanks, leading zeros, a repeated list, and a week that wraps at Sunday. -/
theorem canonical_text_round_trip_of_sundays :
    let expression : Expression := ⟨none, .specific 7, .list (ValueSet.ofList [3, 12]), .any, .any,
      .list (ValueSet.ofList [0, 5, 6])⟩
    let other : Expression := ⟨some (.step 5), .any, .any, .any, .any, .range 0 0⟩
    parse "\u3000007\t12,03,3  * * 5-7 " = .ok expression ∧
      parse "*/05 * * * * 7-7" = .ok other ∧
      (∃ again, parse expression.text = .ok again ∧ again = expression ∧
        again.hasSeconds = expression.hasSeconds ∧
        (∀ field, again.rule field = expression.rule field) ∧ again.text = expression.text) ∧
      ofDatum expression.toDatum = .ok expression ∧
      (expression = other ↔ expression.text = other.text) := by
  intro expression other
  have accepted : parse "\u3000007\t12,03,3  * * 5-7 " = .ok expression := by decide
  have otherAccepted : parse "*/05 * * * * 7-7" = .ok other := by decide
  exact ⟨accepted, otherAccepted, canonical_text_round_trip accepted otherAccepted⟩

end Expression

end CronSchedule
