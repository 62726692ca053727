import Mathlib

/-!
# Quoted text

Two ways to write an arbitrary text between double quotes, each with the reader that finds the
closing quote again: a backslash before the characters that mean something (`backslashed`), and
a quote written twice (`doubled`).  Reading back returns the text and stops right after the
closing quote, whatever follows.
-/

namespace Quoting

/-- One character between quotes, with a backslash where it needs one; a line break is the
letter `n`. -/
def escape : Char → List Char
  | '\\' => ['\\', '\\']
  | '"' => ['\\', '"']
  | '\n' => ['\\', 'n']
  | c => [c]

/-- A text between quotes. -/
def backslashed (text : List Char) : List Char := text.flatMap escape

/-- Reads up to the closing quote; a line break or an unknown escape is no text. -/
def readBackslashed : List Char → Option (List Char × List Char)
  | [] => none
  | '"' :: rest => some ([], rest)
  | '\\' :: '\\' :: rest => (readBackslashed rest).map fun read => ('\\' :: read.1, read.2)
  | '\\' :: '"' :: rest => (readBackslashed rest).map fun read => ('"' :: read.1, read.2)
  | '\\' :: 'n' :: rest => (readBackslashed rest).map fun read => ('\n' :: read.1, read.2)
  | '\\' :: _ => none
  | '\n' :: _ => none
  | c :: rest => (readBackslashed rest).map fun read => (c :: read.1, read.2)

theorem readBackslashed_escape (c : Char) (rest : List Char) :
    readBackslashed (escape c ++ rest) =
      (readBackslashed rest).map fun read => (c :: read.1, read.2) := by
  unfold escape
  split
  · rfl
  · rfl
  · rfl
  next hslash hquote hbreak =>
    rw [List.singleton_append, readBackslashed]
    · exact hquote
    · exact fun _ h => (hslash h).elim
    · exact fun _ h => (hslash h).elim
    · exact fun _ h => (hslash h).elim
    · exact hslash
    · exact hbreak

theorem readBackslashed_append (text rest : List Char) :
    readBackslashed (backslashed text ++ '"' :: rest) = some (text, rest) := by
  induction text with
  | nil => rw [backslashed, List.flatMap_nil, List.nil_append, readBackslashed]
  | cons c text ih =>
    rw [backslashed, List.flatMap_cons, List.append_assoc, readBackslashed_escape]
    exact congrArg (Option.map _) ih

theorem newline_not_mem_backslashed (text : List Char) : '\n' ∉ backslashed text := by
  intro hmem
  obtain ⟨c, -, hc⟩ := List.mem_flatMap.mp hmem
  unfold escape at hc
  split at hc
  · revert hc; decide
  · revert hc; decide
  · revert hc; decide
  next hbreak => exact hbreak (List.mem_singleton.mp hc).symm

/-- A text between quotes, every quote in it written twice. -/
def doubled (text : List Char) : List Char := text.flatMap fun c => if c = '"' then [c, c] else [c]

/-- Reads up to the first quote that is not doubled. -/
def readDoubled : List Char → Option (List Char × List Char)
  | [] => none
  | '"' :: '"' :: rest => (readDoubled rest).map fun read => ('"' :: read.1, read.2)
  | '"' :: rest => some ([], rest)
  | c :: rest => (readDoubled rest).map fun read => (c :: read.1, read.2)

theorem readDoubled_append (text : List Char) {rest : List Char} (hrest : rest.head? ≠ some '"') :
    readDoubled (doubled text ++ '"' :: rest) = some (text, rest) := by
  induction text with
  | nil =>
    rw [doubled, List.flatMap_nil, List.nil_append, readDoubled]
    rintro rest' rfl
    exact hrest rfl
  | cons c text ih =>
    rw [doubled, List.flatMap_cons, List.append_assoc]
    by_cases hquote : c = '"'
    · rw [if_pos hquote, hquote]
      exact congrArg (Option.map _) ih
    · rw [if_neg hquote, List.singleton_append, readDoubled]
      · exact congrArg (Option.map _) ih
      · exact fun _ h => absurd h hquote
      · exact fun h => absurd h hquote

end Quoting
