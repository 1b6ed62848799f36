import ListQuery.Text.Words

set_option autoImplicit false

/-!
Patterns of the store that stand for literal text: a substring, or several words in any order.
Every character with a meaning in patterns is escaped, so the text of a caller cannot take one.
-/

namespace ListQuery.Pattern

def metacharacters : List Char :=
  ['\\', '.', '+', '*', '?', '(', ')', '|', '[', ']', '\x7b', '\x7d', '^', '$', '#', '&', '-', '~']

/-- Puts a backslash before each metacharacter. -/
def escape : List Char → List Char
  | [] => []
  | c :: rest => if c ∈ metacharacters then '\\' :: c :: escape rest else c :: escape rest

/-- Matches the texts that hold the literal in one line. -/
def substring (literal : List Char) : List Char :=
  ".*".toList ++ escape literal ++ ".*".toList

def lookahead (word : List Char) : List Char := "(?=.*".toList ++ escape word ++ [')']

/-- A lookahead for each word of the text; a blank text gives the empty pattern. -/
def allWords (text : List Char) : List Char := (Text.words text).flatMap lookahead

theorem substring_eq (literal : List Char) :
    substring literal = '.' :: '*' :: (escape literal ++ ['.', '*']) := by
  have dots : ".*".toList = ['.', '*'] := by decide
  unfold substring
  rw [dots]
  simp only [List.cons_append, List.nil_append]

theorem lookahead_eq (word : List Char) :
    lookahead word = '(' :: '?' :: '=' :: '.' :: '*' :: (escape word ++ [')']) := by
  have opening : "(?=.*".toList = ['(', '?', '=', '.', '*'] := by decide
  unfold lookahead
  rw [opening]
  simp only [List.cons_append, List.nil_append]

example : substring "a+b".toList = ".*a\\+b.*".toList := by decide
example : allWords "  mushroom   white ".toList = "(?=.*mushroom)(?=.*white)".toList := by decide

end ListQuery.Pattern
