/-
# Blanks

Blanks separate names in a grammar description and words in an input. They are the characters with
the Unicode property White_Space, twenty-five in number.
-/

namespace DeterministicParsing.Text

/-- Whether a character has the Unicode property White_Space. -/
def isBlank (char : Char) : Bool :=
  let code := char.toNat
  (0x09 ≤ code && code ≤ 0x0D) || code == 0x20 || code == 0x85 || code == 0xA0 ||
    code == 0x1680 || (0x2000 ≤ code && code ≤ 0x200A) || code == 0x2028 || code == 0x2029 ||
    code == 0x202F || code == 0x205F || code == 0x3000

/-- Cut a list of characters into words: the longest stretches without a blank. The first argument
is the part of the current word that has been seen, in reverse. -/
def wordsFrom : List Char → List Char → List (List Char)
  | word, [] => if word.isEmpty then [] else [word.reverse]
  | word, char :: rest =>
      if isBlank char then
        if word.isEmpty then wordsFrom [] rest else word.reverse :: wordsFrom [] rest
      else wordsFrom (char :: word) rest

/-- The words of a text, that is, its longest stretches without a blank. -/
def words (text : String) : List String :=
  (wordsFrom [] text.toList).map String.ofList

/-- A text without the blanks at its end. -/
def trimRight (text : String) : String :=
  String.ofList (text.toList.reverse.dropWhile isBlank).reverse

end DeterministicParsing.Text
