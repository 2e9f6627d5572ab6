import CronSchedule.Text.Blank

/-!
# Words laid out with blanks

A text lays words out when it shows them in their order, with any blanks before
the first and after the last and with at least one between two of them. Splitting
a text into words undoes each of its layouts: the words are exactly the list that
the text lays out, so all layouts of one list have the same words.
-/

namespace CronSchedule.Text

set_option autoImplicit false

/-- A run of blanks, which may be empty. -/
def IsGap (gap : List Char) : Prop := ∀ char ∈ gap, isBlank char = true

def IsWord (word : List Char) : Prop := word ≠ [] ∧ ∀ char ∈ word, isBlank char = false

inductive LaidOut : List (List Char) → List Char → Prop
  | blank {gap : List Char} (blanks : IsGap gap) : LaidOut [] gap
  | last {lead word trail : List Char} (before : IsGap lead) (solid : IsWord word)
      (after : IsGap trail) : LaidOut [word] (lead ++ (word ++ trail))
  | next {lead word gap text : List Char} {words : List (List Char)} (before : IsGap lead)
      (solid : IsWord word) (between : IsGap gap) (apart : gap ≠ []) (others : LaidOut words text) :
      LaidOut (word :: words) (lead ++ (word ++ (gap ++ text)))

variable {tokens : List (List Char)} {text : List Char}

theorem gap_nil : IsGap [] := by
  intro char member
  cases member

theorem gap_cons {char : Char} {gap : List Char} (blank : isBlank char = true)
    (blanks : IsGap gap) : IsGap (char :: gap) :=
  List.forall_mem_cons.mpr ⟨blank, blanks⟩

theorem word_cons {char : Char} {word : List Char} (letter : isBlank char = false)
    (letters : ∀ other ∈ word, isBlank other = false) : IsWord (char :: word) :=
  ⟨List.cons_ne_nil char word, List.forall_mem_cons.mpr ⟨letter, letters⟩⟩

theorem words_gap_append {gap : List Char} (blanks : IsGap gap) (text : List Char) :
    words (gap ++ text) = words text := by
  induction gap with
  | nil => rfl
  | cons char rest induction =>
      have first := List.forall_mem_cons.mp blanks
      rw [List.cons_append, words_cons_of_blank first.1]
      exact induction first.2

theorem words_word_append {word gap : List Char} (solid : IsWord word) (blanks : IsGap gap)
    (apart : gap ≠ []) (text : List Char) :
    words (word ++ (gap ++ text)) = word :: words text := by
  cases gap with
  | nil => exact absurd rfl apart
  | cons char rest =>
      have first := List.forall_mem_cons.mp blanks
      rw [List.cons_append, words_append_blank solid.1 solid.2 first.1, words_gap_append first.2]

theorem words_of_gap {gap : List Char} (blanks : IsGap gap) : words gap = [] := by
  have alone := words_gap_append blanks []
  rwa [List.append_nil] at alone

theorem words_of_laid_out (laid : LaidOut tokens text) : words text = tokens := by
  induction laid with
  | blank blanks => exact words_of_gap blanks
  | @last lead word trail before solid after =>
      rw [words_gap_append before]
      cases trail with
      | nil => rw [List.append_nil, words_of_solid solid.1 solid.2]
      | cons char rest =>
          have one := words_word_append solid after (List.cons_ne_nil char rest) []
          rwa [List.append_nil] at one
  | next before solid between apart others induction =>
      rw [words_gap_append before, words_word_append solid between apart, induction]

theorem LaidOut.cons_blank {char : Char} (blank : isBlank char = true)
    (laid : LaidOut tokens text) : LaidOut tokens (char :: text) := by
  cases laid with
  | blank blanks => exact .blank (gap_cons blank blanks)
  | last before solid after => exact .last (gap_cons blank before) solid after
  | next before solid between apart others =>
      exact .next (gap_cons blank before) solid between apart others

/-- A letter joins the word that the text begins with, or is a word of its own. -/
theorem LaidOut.exists_cons_letter {char : Char} (letter : isBlank char = false)
    (laid : LaidOut tokens text) : ∃ longer, LaidOut longer (char :: text) := by
  have single : IsWord [char] := word_cons letter (by simp)
  cases laid with
  | blank blanks => exact ⟨_, .last gap_nil single blanks⟩
  | @last lead word trail before solid after =>
      cases lead with
      | nil => exact ⟨_, .last gap_nil (word_cons letter solid.2) after⟩
      | cons first rest =>
          exact ⟨_, .next gap_nil single before (List.cons_ne_nil first rest)
            (.last gap_nil solid after)⟩
  | @next lead word gap remaining words before solid between apart others =>
      cases lead with
      | nil => exact ⟨_, .next gap_nil (word_cons letter solid.2) between apart others⟩
      | cons first rest =>
          exact ⟨_, .next gap_nil single before (List.cons_ne_nil first rest)
            (.next gap_nil solid between apart others)⟩

theorem exists_laid_out (text : List Char) : ∃ tokens, LaidOut tokens text := by
  induction text with
  | nil => exact ⟨[], .blank gap_nil⟩
  | cons char rest induction =>
      rcases induction with ⟨tokens, laid⟩
      cases known : isBlank char with
      | true => exact ⟨tokens, laid.cons_blank known⟩
      | false => exact laid.exists_cons_letter known

/-- The words of a text are the one list that it lays out. -/
theorem words_eq_iff_laid_out : words text = tokens ↔ LaidOut tokens text := by
  constructor
  · intro same
    rcases exists_laid_out text with ⟨shown, laid⟩
    rw [words_of_laid_out laid] at same
    rwa [← same]
  · exact words_of_laid_out

end CronSchedule.Text
