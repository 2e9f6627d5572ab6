import CronSchedule.Proofs.Expression.Normal
import CronSchedule.Proofs.Expression.Token

/-!
# A reader of descriptions

The reader takes a description apart from left to right: first the clauses about
the time of day, then what is said of the months, of the days of the month and of
the days of the week. It answers with an expression in normal form.
-/

namespace CronSchedule

set_option autoImplicit false

/-- What is said between two commas about the time of day. -/
inductive Clause where
  | clock (hour minute : Nat) (second : Option Nat)
  | unit (field : Field) (rule : Rule)
  deriving DecidableEq, Repr

/-- What the clause says of a field. -/
def Clause.rule? (field : Field) : Clause → Option Rule
  | .clock hour minute second =>
      match field with
      | .hour => some (.specific hour)
      | .minute => some (.specific minute)
      | .second => second.map .specific
      | _ => none
  | .unit other rule => if other = field then some rule else none

namespace Reader

def clockUnits : List Field := [.second, .minute, .hour]

def unit? (word : String) : Option Field := clockUnits.find? fun field => field.name = word

def units? (word : String) : Option Field := clockUnits.find? fun field => field.name ++ "s" = word

/-- Months are counted from 1. -/
def months : List String := "" :: monthNames

def value? (names : List String) : Token → Option Nat
  | .number value => some value
  | .word name => if name ∈ names then some (names.idxOf name) else none
  | _ => none

/-- The items of an enumeration, and what follows it. -/
def items : List Token → List Token × List Token
  | item :: .comma :: rest => (item :: (items rest).1, (items rest).2)
  | first :: .word "and" :: second :: rest => ([first, second], rest)
  | item :: rest => ([item], rest)
  | [] => ([], [])

/-- A single value, a range or an enumeration. -/
def choice (names : List String) : List Token → Option (Rule × List Token)
  | lo :: .word "through" :: hi :: rest => do
      return (.range (← value? names lo) (← value? names hi), rest)
  | tokens => do
      let values ← (items tokens).1.mapM (value? names)
      return (Rule.ofValues (ValueSet.ofList values), (items tokens).2)

/-- The rule of a step, which bounds may follow. -/
def step (names : List String) (size : Nat) : List Token → Rule × List Token
  | .word "from" :: lo :: .word "through" :: hi :: rest =>
      match value? names lo, value? names hi with
      | some lo, some hi => (.stepRange lo hi size, rest)
      | _, _ => (.step size, .word "from" :: lo :: .word "through" :: hi :: rest)
  | rest => (.step size, rest)

def single (field : Field) : List Token → Option (Clause × List Token)
  | .number value :: rest => some (.unit field (.specific value), rest)
  | _ => none

def clause : List Token → Option (Clause × List Token)
  | .word "at" :: .clock (hour :: minute :: second) :: rest =>
      some (.clock hour minute second.head?, rest)
  | .word "at" :: .word word :: rest =>
      match unit? word with
      | some field => single field rest
      | none => do
          let field ← units? word
          let (rule, rest) ← choice [] rest
          return (.unit field rule, rest)
  | .word "every" :: .word word :: rest => do
      return ((step [] 1 rest).map (.unit (← unit? word)) id)
  | .word "every" :: .number size :: .word word :: rest => do
      return ((step [] size rest).map (.unit (← units? word)) id)
  | _ => none

/-- At most `count` clauses with commas between them. -/
def clauses : Nat → List Token → Option (List Clause × List Token)
  | 0, tokens => some ([], tokens)
  | count + 1, tokens => do
      let (first, rest) ← clause tokens
      match rest with
      | .comma :: rest => do
          let (others, rest) ← clauses count rest
          return (first :: others, rest)
      | rest => return ([first], rest)

def month : List Token → Option (Rule × List Token)
  | .word "in" :: rest => choice months rest
  | .word "from" :: rest => choice months rest
  | .word "every" :: .word "month" :: rest => some (step months 1 rest)
  | .word "every" :: .number size :: .word "months" :: rest => some (step months size rest)
  | tokens => some (.any, tokens)

def dayStep (size : Nat) : List Token → Rule × List Token
  | .word "from" :: .word "day" :: .number lo :: .word "through" :: .number hi ::
      .word "of" :: .word "the" :: .word "month" :: rest => (.stepRange lo hi size, rest)
  | rest => (.step size, rest)

def dayOfMonth : List Token → Option (Rule × List Token)
  | .word "on" :: .word "day" :: rest => do
      let (rule, rest) ← choice [] rest
      return (rule, rest.drop 3)
  | .word "on" :: .word "days" :: rest => do
      let (rule, rest) ← choice [] rest
      return (rule, rest.drop 3)
  | .word "every" :: .word "day" :: rest => some (dayStep 1 rest)
  | .word "every" :: .number size :: .word "days" :: rest => some (dayStep size rest)
  | tokens => some (.any, tokens)

def dayOfWeek : List Token → Option (Rule × List Token)
  | .word "or" :: .word "on" :: rest => choice weekdayNames rest
  | .word "on" :: rest => choice weekdayNames rest
  | tokens => some (.any, tokens)

def opening : List Token → List Token
  | .word "At" :: rest => .word "at" :: rest
  | .word "Every" :: rest => .word "every" :: rest
  | tokens => tokens

/-- What clauses say of a unit of the clock. Seconds that are not mentioned are
zero, and other units are unrestricted then. -/
def told (said : List Clause) (field : Field) : Rule :=
  (said.findSome? (Clause.rule? field)).getD (if field = .second then .specific 0 else .step 1)

def expression (tokens : List Token) : Option Expression := do
  let (said, rest) ← clauses 3 (opening tokens)
  let (month, rest) ← month rest
  let (dayOfMonth, rest) ← dayOfMonth rest
  let (dayOfWeek, _) ← dayOfWeek rest
  return ⟨some (told said .second), told said .minute, told said .hour, dayOfMonth, month,
    dayOfWeek⟩

variable {names : List String} {rest : List Token}

/-- Nothing that goes on with an enumeration or a range. -/
def Stops (rest : List Token) : Prop :=
  rest.head? ≠ some .comma ∧ rest.head? ≠ some (.word "and") ∧ rest.head? ≠ some (.word "through")

theorem items_enumeration {tokens : List Token} (several : 2 ≤ tokens.length)
    (rest : List Token) : items (Token.enumeration tokens ++ rest) = (tokens, rest) := by
  induction tokens with
  | nil => simp at several
  | cons first others induction =>
      match others with
      | [] => simp at several
      | [second] => rfl
      | second :: third :: others =>
          have later := induction (by simp)
          change items (first :: .comma ::
            (Token.enumeration (second :: third :: others) ++ rest)) = _
          rw [items, later]

theorem items_single (item : Token) (stops : Stops rest) :
    items (item :: rest) = ([item], rest) := by
  obtain ⟨noComma, noAnd, _⟩ := stops
  match rest with
  | [] => rfl
  | next :: rest =>
      rw [items]
      · rintro rest ⟨⟩
        exact noComma rfl
      · rintro second rest ⟨⟩
        exact noAnd rfl

theorem values_of_items {item : Nat → Token} {values : List Nat}
    (read : ∀ value ∈ values, value? names (item value) = some value) :
    (values.map item).mapM (value? names) = some values := by
  induction values with
  | nil => rfl
  | cons value values induction =>
      rw [List.forall_mem_cons] at read
      simp [read.1, induction read.2]

theorem choice_specific {token : Token} {value : Nat} (read : value? names token = some value)
    (stops : Stops rest) : choice names (token :: rest) = some (.specific value, rest) := by
  have single : ∀ other, other ∈ ValueSet.ofList [value] ↔ other = value := by
    simp [ValueSet.mem_of_list]
  rw [choice, items_single token stops]
  · simp [read, Rule.of_values_specific single]
  · intro _ _ _ same
    cases same
    exact stops.2.2 rfl

theorem choice_range {lo hi : Token} {first last : Nat} (loRead : value? names lo = some first)
    (hiRead : value? names hi = some last) (rest : List Token) :
    choice names (lo :: .word "through" :: hi :: rest) = some (.range first last, rest) := by
  simp [choice, loRead, hiRead]

/-- The token behind the first item is a comma or the word in front of the last. -/
theorem enumeration_ne_range {tokens : List Token} (several : 2 ≤ tokens.length)
    (lo hi : Token) (rest others : List Token) :
    Token.enumeration tokens ++ rest ≠ lo :: .word "through" :: hi :: others := by
  match tokens with
  | [] => simp at several
  | [_] => simp at several
  | [_, _] => simp [Token.enumeration]
  | _ :: _ :: _ :: _ => simp [Token.enumeration]

theorem choice_list {item : Nat → Token} {values : ValueSet}
    (several : 2 ≤ values.toList.length)
    (read : ∀ value ∈ values, value? names (item value) = some value) (rest : List Token) :
    choice names (Token.enumeration (values.toList.map item) ++ rest) =
      some (.list values, rest) := by
  have long : 2 ≤ (values.toList.map item).length := by rwa [List.length_map]
  rw [choice, items_enumeration long]
  · have listed : Rule.ofValues values = .list values :=
      Rule.of_values_list ((ValueSet.two_le_length_iff values).mp several)
    simp [values_of_items read, ValueSet.of_list_to_list, listed]
  · intro lo hi others
    exact enumeration_ne_range long lo hi rest others

theorem choice_of_values {item : Nat → Token} {values : ValueSet}
    (nonempty : ∃ value, value ∈ values)
    (read : ∀ value ∈ values, value? names (item value) = some value) (stops : Stops rest) :
    choice names (Token.enumeration (values.toList.map item) ++ rest) =
      some (Rule.ofValues values, rest) := by
  by_cases several : 2 ≤ values.toList.length
  · rw [choice_list several read,
      Rule.of_values_list ((ValueSet.two_le_length_iff values).mp several)]
  · obtain ⟨value, member⟩ := nonempty
    have only : values.toList = [value] := by
      rw [ValueSet.mem_def] at member
      match known : values.toList with
      | [] => simp [known] at member
      | [_] => simp_all
      | _ :: _ :: _ => simp [known] at several
    rw [Rule.ofValues, only]
    exact choice_specific (read value member) stops

/-- Nothing that is read as the bounds of a step. -/
def NoBounds (names : List String) (rest : List Token) : Prop :=
  ∀ size, step names size rest = (.step size, rest)

theorem no_bounds_of_head (noFrom : rest.head? ≠ some (.word "from")) :
    NoBounds names rest := by
  intro size
  unfold step
  split
  · exact absurd rfl noFrom
  · rfl

theorem step_bounds {lo hi : Token} {first last : Nat} (loRead : value? names lo = some first)
    (hiRead : value? names hi = some last) (size : Nat) (rest : List Token) :
    step names size (.word "from" :: lo :: .word "through" :: hi :: rest) =
      (.stepRange first last size, rest) := by
  simp [step, loRead, hiRead]

end Reader

end CronSchedule
