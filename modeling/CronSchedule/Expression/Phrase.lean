/-!
# Phrases

A phrase is a sequence of words; its text sets one space between neighbours. A
comma belongs to the word that it follows.
-/

namespace CronSchedule

set_option autoImplicit false

abbrev Phrase := List String

namespace Phrase

def text (phrase : Phrase) : String := String.intercalate " " phrase

def withComma : Phrase → Phrase
  | [] => []
  | [word] => [word ++ ","]
  | word :: rest => word :: withComma rest

def commaSeparated : List Phrase → Phrase
  | [] => []
  | [phrase] => phrase
  | phrase :: rest => phrase.withComma ++ commaSeparated rest

/-- Words in the form `a, b and c`. -/
def enumeration : List String → Phrase
  | [] => []
  | [word] => [word]
  | [first, second] => [first, "and", second]
  | word :: rest => (word ++ ",") :: enumeration rest

/-- The phrase as a sentence opens: with a capital letter. -/
def capitalized : Phrase → Phrase
  | [] => []
  | word :: rest => word.capitalize :: rest

end Phrase

end CronSchedule
