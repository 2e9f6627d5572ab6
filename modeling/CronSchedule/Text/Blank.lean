/-!
# Blank characters and words

The words of a text are its maximal runs of characters that are not blank. Blank
means the Unicode property White_Space: twenty-five code points, among them the
no-break and the ideographic space, but neither the zero width characters nor
the information separators.
-/

namespace CronSchedule.Text

set_option autoImplicit false

/-- The inclusive code point ranges of the Unicode property White_Space. -/
def blankRanges : List (Nat × Nat) :=
  [(0x09, 0x0D), (0x20, 0x20), (0x85, 0x85), (0xA0, 0xA0), (0x1680, 0x1680),
    (0x2000, 0x200A), (0x2028, 0x2029), (0x202F, 0x202F), (0x205F, 0x205F), (0x3000, 0x3000)]

def isBlank (char : Char) : Bool :=
  blankRanges.any fun range => range.1 ≤ char.toNat && char.toNat ≤ range.2

/-- Adjacent, leading and trailing blanks delimit empty pieces, which are no words. -/
def words (text : List Char) : List (List Char) :=
  (text.splitOnP isBlank).filter fun piece => !piece.isEmpty

theorem words_cons_of_blank {char : Char} (blank : isBlank char = true) (text : List Char) :
    words (char :: text) = words text := by
  simp [words, List.splitOnP_cons_eq_if_modifyHead, blank]

/-- A blank-free text that is not empty is one word, whatever blanks follow it. -/
theorem words_append_blank {word : List Char} {char : Char} (nonempty : word ≠ [])
    (solid : ∀ letter ∈ word, isBlank letter = false) (blank : isBlank char = true)
    (text : List Char) : words (word ++ char :: text) = word :: words text := by
  simp [words, List.splitOnP_append_cons_of_forall_mem solid char blank text, nonempty]

theorem words_of_solid {word : List Char} (nonempty : word ≠ [])
    (solid : ∀ letter ∈ word, isBlank letter = false) : words word = [word] := by
  simp [words, List.splitOnP_eq_singleton solid, nonempty]

end CronSchedule.Text
