import CronSchedule.Expression.Description
import CronSchedule.Proofs.Expression.RoundTrip

/-!
# How a phrase is read

A reader of a sentence sees numbers, times on a clock, other words, and commas.
`Token.ofText` takes a text apart into these. The relation `Reads` says which
tokens a phrase is made of, piece by piece as phrases are put together, and
`Reads.of_text` that these are the tokens of its text: nothing runs into its
neighbours when the words are set side by side.
-/

namespace CronSchedule

set_option autoImplicit false

inductive Token where
  | comma
  | number (value : Nat)
  /-- Numbers with colons between them. -/
  | clock (numbers : List Nat)
  | word (text : String)
  deriving DecidableEq, Repr

namespace Token

/-- The token of a word that no comma follows. -/
def ofChars (chars : List Char) : Token :=
  if Numeral.IsNumeral chars then .number (Numeral.value chars)
  else if ':' ∈ chars then .clock ((chars.splitOn ':').map Numeral.value)
  else .word (String.ofList chars)

def ofWord (word : List Char) : List Token :=
  match Text.cut? ',' word with
  | some (before, _) => [ofChars before, .comma]
  | none => [ofChars word]

def ofText (text : String) : List Token := (Text.words text.toList).flatMap ofWord

/-- Items in the form `a, b and c`. -/
def enumeration : List Token → List Token
  | [] => []
  | [item] => [item]
  | [first, second] => [first, .word "and", second]
  | item :: rest => item :: .comma :: enumeration rest

theorem enumeration_cons (first : Token) (others : List Token) :
    ∃ tail, enumeration (first :: others) = first :: tail := by
  match others with
  | [] => exact ⟨_, rfl⟩
  | [_] => exact ⟨_, rfl⟩
  | _ :: _ :: _ => exact ⟨_, rfl⟩

/-- A step of one is no step. -/
def every (size : Nat) (unit : String) : List Token :=
  if size = 1 then [.word "every", .word unit]
  else [.word "every", .number size, .word (unit ++ "s")]

end Token

namespace Phrase

/-- A word that is one token, and behind which a comma may be set. -/
structure Plain (word : String) (token : Token) : Prop where
  nonempty : word.toList ≠ []
  solid : ∀ char ∈ word.toList, Text.isBlank char = false
  noComma : ',' ∉ word.toList
  read : Token.ofChars word.toList = token

theorem plain_iff {word : String} {token : Token} :
    Plain word token ↔ word.toList ≠ [] ∧ (∀ char ∈ word.toList, Text.isBlank char = false) ∧
      ',' ∉ word.toList ∧ Token.ofChars word.toList = token :=
  ⟨fun ⟨nonempty, solid, noComma, read⟩ => ⟨nonempty, solid, noComma, read⟩,
    fun ⟨nonempty, solid, noComma, read⟩ => ⟨nonempty, solid, noComma, read⟩⟩

instance (word : String) (token : Token) : Decidable (Plain word token) :=
  decidable_of_bool (!word.toList.isEmpty && word.toList.all (fun char => !Text.isBlank char) &&
    !word.toList.contains ',' && Token.ofChars word.toList == token)
    (by simp [plain_iff, and_assoc])

/-- Phrases by their tokens. No phrase ends in a comma. -/
inductive Reads : Phrase → List Token → Prop where
  | nil : Reads [] []
  | plain {word : String} {token : Token} {phrase : Phrase} {tokens : List Token} :
      Plain word token → Reads phrase tokens → Reads (word :: phrase) (token :: tokens)
  | comma {word next : String} {token : Token} {phrase : Phrase} {tokens : List Token} :
      Plain word token → Reads (next :: phrase) tokens →
      Reads ((word ++ ",") :: next :: phrase) (token :: .comma :: tokens)

variable {word : String} {token : Token} {phrase others : Phrase} {tokens more : List Token}

theorem plain_number_word (number : Nat) :
    Plain (Description.numberWord number) (.number number) := by
  have numeral := Numeral.digits_numeral number
  rw [plain_iff, Description.numberWord, String.toList_ofList, Token.ofChars, if_pos numeral,
    Numeral.value_digits]
  exact ⟨numeral.1, fun char member => Rule.blank_of_digit (numeral.2 char member),
    Rule.not_mem_of_numeral numeral (by decide), rfl⟩

/-- Zeros in front keep the value of a numeral. -/
theorem padded_numeral (width number : Nat) :
    Numeral.IsNumeral (Numeral.padded width number) ∧
      Numeral.value (Numeral.padded width number) = number := by
  have zeros : ∀ count, Numeral.value (List.replicate count '0' ++ Numeral.digits number) =
      number := by
    intro count
    induction count with
    | zero => exact Numeral.value_digits number
    | succ count induction => exact induction
  have numeral := Numeral.digits_numeral number
  rw [Numeral.padded, List.leftpad]
  refine ⟨⟨?_, ?_⟩, zeros _⟩
  · simp [numeral.1]
  · intro char member
    rcases List.mem_append.mp member with zero | digit
    · rw [List.eq_of_mem_replicate zero]
      decide
    · exact numeral.2 char digit

theorem mem_intercalate_of_two {pieces : List (List Char)} (several : 2 ≤ pieces.length)
    (separator : Char) : separator ∈ List.intercalate [separator] pieces := by
  match pieces with
  | [] => simp at several
  | [_] => simp at several
  | first :: second :: rest =>
      rw [List.intercalate_cons_cons]
      simp

theorem plain_clock_word {numbers : List Nat} (several : 2 ≤ numbers.length) :
    Plain (Description.clockWord numbers) (.clock numbers) := by
  let pieces := numbers.map (Numeral.padded 2)
  have numerals : ∀ piece ∈ pieces, Numeral.IsNumeral piece := by
    intro piece member
    obtain ⟨number, _, rfl⟩ := List.mem_map.mp member
    exact (padded_numeral 2 number).1
  have values : pieces.map Numeral.value = numbers := by
    rw [List.map_map]
    exact List.map_id'' (fun number => (padded_numeral 2 number).2) numbers
  have digitOrColon : ∀ char ∈ List.intercalate [':'] pieces,
      char.isDigit = true ∨ char = ':' := by
    intro char member
    rcases Rule.mem_intercalate member with colon | ⟨piece, pieceMember, inside⟩
    · exact Or.inr colon
    · exact Or.inl ((numerals piece pieceMember).2 char inside)
  have colon : ':' ∈ List.intercalate [':'] pieces :=
    mem_intercalate_of_two (by rwa [List.length_map]) ':'
  -- One colon is enough to tell the word from a numeral.
  have noNumeral : ¬Numeral.IsNumeral (List.intercalate [':'] pieces) :=
    fun numeral => Rule.not_mem_of_numeral numeral (by decide) colon
  have split : (List.intercalate [':'] pieces).splitOn ':' = pieces := by
    apply List.splitOn_intercalate
    · exact fun piece member => Rule.not_mem_of_numeral (numerals piece member) (by decide)
    · exact List.ne_nil_of_length_pos (by rw [List.length_map]; omega)
  rw [plain_iff, Description.clockWord, String.toList_ofList, Token.ofChars, if_neg noNumeral,
    if_pos colon, split, values]
  refine ⟨List.ne_nil_of_mem colon, ?_, ?_, rfl⟩
  · intro char member
    rcases digitOrColon char member with digit | rfl
    · exact Rule.blank_of_digit digit
    · decide
  · intro comma
    rcases digitOrColon ',' comma with impossible | impossible <;> cases impossible

theorem Reads.append (read : Reads phrase tokens) (rest : Reads others more) :
    Reads (phrase ++ others) (tokens ++ more) := by
  induction read with
  | nil => exact rest
  | plain word _ induction => exact .plain word induction
  | comma word _ induction => exact .comma word induction

theorem Reads.append_after_comma {next : String} (read : Reads phrase tokens)
    (nonempty : phrase ≠ []) (rest : Reads (next :: others) more) :
    Reads (phrase.withComma ++ next :: others) (tokens ++ .comma :: more) := by
  induction read with
  | nil => exact absurd rfl nonempty
  | @plain _ _ phrase _ word tail induction =>
      cases phrase with
      | nil =>
          cases tail
          exact .comma word rest
      | cons => exact .plain word (induction (List.cons_ne_nil _ _))
  | @comma _ next _ phrase _ word _ induction =>
      have later := induction (List.cons_ne_nil next phrase)
      cases phrase with
      | nil => exact .comma word later
      | cons => exact .comma word later

theorem enumeration_ne_nil (first : String) (rest : List String) :
    enumeration (first :: rest) ≠ [] := by
  match rest with
  | [] => simp [enumeration]
  | [_] => simp [enumeration]
  | _ :: _ :: _ => simp [enumeration]

theorem reads_enumeration {words : List String} {items : List Token}
    (plain : List.Forall₂ Plain words items) :
    Reads (enumeration words) (Token.enumeration items) := by
  induction plain with
  | nil => exact .nil
  | cons first rest induction =>
      cases rest with
      | nil => exact .plain first .nil
      | @cons word _ words _ second rest =>
          cases rest with
          | nil => exact .plain first (.plain (by decide) (.plain second .nil))
          | @cons other _ words _ _ _ =>
              obtain ⟨next, others, known⟩ :=
                List.exists_cons_of_ne_nil (enumeration_ne_nil word (other :: words))
              change Reads ((_ ++ ",") :: enumeration (word :: other :: words)) (_ :: .comma :: _)
              rw [known] at induction ⊢
              exact .comma first induction

theorem reads_enumeration_map {values : List Nat} {write : Nat → String} {item : Nat → Token}
    (plain : ∀ value ∈ values, Plain (write value) (item value)) :
    Reads (enumeration (values.map write)) (Token.enumeration (values.map item)) := by
  apply reads_enumeration
  rw [List.forall₂_map_left_iff, List.forall₂_map_right_iff, List.forall₂_same]
  exact plain

theorem reads_every (size : Nat) {unit : String} (one : Plain unit (.word unit))
    (many : Plain (unit ++ "s") (.word (unit ++ "s"))) :
    Reads (Description.every size unit) (Token.every size unit) := by
  unfold Description.every Token.every
  split
  · exact .plain (by decide) (.plain one .nil)
  · exact .plain (by decide) (.plain (plain_number_word size) (.plain many .nil))

/-- A word that is read as a word is that word. -/
theorem Plain.eq_word {word text : String} (plain : Plain word (.word text)) : word = text := by
  have read := plain.read
  unfold Token.ofChars at read
  split at read
  · cases read
  · split at read
    · cases read
    · rwa [Token.word.injEq, String.ofList_toList] at read

theorem Reads.exists_cons (reads : Reads phrase (token :: tokens)) :
    ∃ word others, phrase = word :: others := by
  cases reads with
  | plain => exact ⟨_, _, rfl⟩
  | comma => exact ⟨_, _, rfl⟩

theorem Reads.exists_opening {text : String} {next : Token}
    (reads : Reads phrase (.word text :: next :: tokens)) (noComma : next ≠ .comma) :
    ∃ others, phrase = text :: others ∧ Reads others (next :: tokens) := by
  cases reads with
  | plain word others => exact ⟨_, congrArg (· :: _) word.eq_word, others⟩
  | comma => exact absurd rfl noComma

theorem Plain.of_word (plain : Plain word token) : Token.ofWord word.toList = [token] := by
  rw [Token.ofWord, (Text.cut_eq_none_iff ',' word.toList).mpr plain.noComma]
  exact congrArg (fun token => [token]) plain.read

theorem Plain.of_word_comma (plain : Plain word token) :
    Token.ofWord (word ++ ",").toList = [token, .comma] := by
  have cut : Text.cut? ',' (word ++ ",").toList = some (word.toList, []) := by
    apply (Text.cut_eq_some_iff ',' _ _ _).mpr
    exact ⟨by simp, plain.noComma⟩
  rw [Token.ofWord, cut]
  exact congrArg (fun token => [token, Token.comma]) plain.read

theorem Reads.solid (read : Reads phrase tokens) :
    ∀ letters ∈ phrase.map String.toList, letters ≠ [] ∧
      ∀ char ∈ letters, Text.isBlank char = false := by
  induction read with
  | nil => simp
  | plain word _ induction =>
      rw [List.map_cons, List.forall_mem_cons]
      exact ⟨⟨word.nonempty, word.solid⟩, induction⟩
  | comma word _ induction =>
      rw [List.map_cons, List.forall_mem_cons, String.toList_append]
      refine ⟨⟨by simp, ?_⟩, induction⟩
      intro char member
      rcases List.mem_append.mp member with letter | comma
      · exact word.solid char letter
      · rw [List.mem_singleton.mp comma]
        decide

/-- The tokens of a phrase are the tokens of its text. -/
theorem Reads.of_text (read : Reads phrase tokens) : Token.ofText phrase.text = tokens := by
  rw [Token.ofText, text, String.toList_intercalate]
  have words := Text.words_intercalate read.solid
  rw [show " ".toList = [' '] by decide, words]
  induction read with
  | nil => rfl
  | plain word tail induction =>
      rw [List.map_cons, List.flatMap_cons, word.of_word,
        induction (Text.words_intercalate tail.solid)]
      rfl
  | comma word tail induction =>
      rw [List.map_cons, List.flatMap_cons, word.of_word_comma,
        induction (Text.words_intercalate tail.solid)]
      rfl

end Phrase

end CronSchedule
