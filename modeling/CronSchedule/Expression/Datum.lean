import CronSchedule.Expression.Parser

/-!
# Expressions inside other data

In a larger document an expression is stored as its canonical text. A `Datum` is
a value met in such a document; only text can hold an expression, so nothing is
kept of the contents of sequences and maps.
-/

namespace CronSchedule

set_option autoImplicit false

inductive Datum where
  | null
  | boolean (value : Bool)
  | integer (value : Int)
  | text (value : String)
  | sequence
  | map
  deriving DecidableEq, Repr

inductive DecodeError where
  | notText (found : Datum)
  | invalid (error : ParseError)
  deriving DecidableEq, Repr

namespace Expression

def toDatum (expression : Expression) : Datum := .text expression.text

def ofDatum : Datum → Except DecodeError Expression
  | .text value => (parse value).mapError .invalid
  | found => .error (.notText found)

end Expression

end CronSchedule
