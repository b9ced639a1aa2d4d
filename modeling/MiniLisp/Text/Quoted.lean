import MiniLisp.Text.Printable

/-!
# Quoted text

Two ways of writing a text so that it can be told from other things:

* `Text.quoted` — in single quotes, or in double quotes when the text holds a single quote
  and no double quote. Backslash, the quote in use, line feed, carriage return and tab are
  escaped by a letter, and every character that is not printable by its code point.
* `Text.doubleQuoted` — always in double quotes; only backslash and double quote are
  escaped, and everything else stands for itself.
-/

namespace MiniLisp.Text

/-- The `width` last hexadecimal digits of `n`, in lower case. -/
def hexDigits (width n : Nat) : List Char :=
  match width with
  | 0 => []
  | w + 1 => hexDigits w (n / 16) ++ [Nat.digitChar (n % 16)]

/-- A character written by its code point, in two, four or eight hexadecimal digits. -/
def codePointEscape (c : Char) : List Char :=
  let n := c.toNat
  if n < 256 then ['\\', 'x'] ++ hexDigits 2 n
  else if n < 65536 then ['\\', 'u'] ++ hexDigits 4 n
  else ['\\', 'U'] ++ hexDigits 8 n

/-- A character as it stands between two `quote` characters. -/
def escaped (quote c : Char) : List Char :=
  if c = quote ∨ c = '\\' then ['\\', c]
  else if c = '\n' then ['\\', 'n']
  else if c = '\r' then ['\\', 'r']
  else if c = '\t' then ['\\', 't']
  else if isPrintable c then [c]
  else codePointEscape c

/-- The quote that a text is written in: single, unless only that one would need escapes. -/
def quoteFor (s : String) : Char :=
  if s.toList.contains '\'' && !s.toList.contains '"' then '"' else '\''

/-- A text in the quotes that suit it, with escapes. -/
def quoted (s : String) : String :=
  let quote := quoteFor s
  String.ofList (quote :: s.toList.flatMap (escaped quote) ++ [quote])

/-- Puts a backslash before every occurrence of a character. -/
def guardAll (c : Char) (cs : List Char) : List Char :=
  cs.flatMap fun d => if d = c then ['\\', d] else [d]

/-- A text in double quotes, with backslashes before its backslashes and then before its double
    quotes (`_quote_string`). -/
def doubleQuoted (s : String) : String :=
  String.ofList ('"' :: guardAll '"' (guardAll '\\' s.toList) ++ ['"'])

/-- A character as it stands between double quotes when only those and the backslash are
    escaped. -/
def guarded (c : Char) : List Char :=
  if c = '"' ∨ c = '\\' then ['\\', c] else [c]

/-- The second pass comes after the first one: the backslashes that it adds are not doubled, and
    those that it finds are no double quotes. So both can be made in one. -/
theorem guardAll_guardAll (cs : List Char) :
    guardAll '"' (guardAll '\\' cs) = cs.flatMap guarded := by
  rw [guardAll, guardAll, List.flatMap_assoc]
  congr 1
  funext c
  by_cases hslash : c = '\\'
  · simp [guarded, hslash]
  · by_cases hquote : c = '"'
    · simp [guarded, hquote]
    · simp [guarded, hslash, hquote]

theorem doubleQuoted_eq (s : String) :
    doubleQuoted s = String.ofList ('"' :: s.toList.flatMap guarded ++ ['"']) := by
  rw [doubleQuoted, guardAll_guardAll]

end MiniLisp.Text
