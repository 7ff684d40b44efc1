/-
# Tokens of a grammar description

A description consists of names, the three keywords, colons, semicolons and bars. Blanks and
comments stand between them. A name is a stretch of characters without blanks and punctuation; any
other name, and a name that reads as a keyword, is written in single quotes, where a backslash makes
the next character stand for itself. Comments and quotes are recognised only where a token could
begin, so a slash or a quote inside a name belongs to the name.

`scan` cuts a text into tokens. Every step splits off the front of what is left, so that the pieces,
put together again, are the text.
-/
import DeterministicParsing.Text.Blank

namespace DeterministicParsing.Description

/-- The words with a meaning of their own. -/
inductive Keyword where
  | token
  | epsilon
  | start
  deriving DecidableEq

inductive Token where
  | keyword (keyword : Keyword)
  | name (text : String)
  | colon
  | semicolon
  | bar
  deriving DecidableEq

namespace Token

/-- The token as error messages show it. -/
def describe : Token → String
  | keyword .token => "`token`"
  | keyword .epsilon => "`epsilon`"
  | keyword .start => "`start`"
  | name text => "name `" ++ text ++ "`"
  | colon => "`:`"
  | semicolon => "`;`"
  | bar => "`|`"

/-- What an unquoted word stands for: a keyword, or else a name. -/
def ofWord (word : String) : Token :=
  if word = "token" then keyword .token
  else if word = "epsilon" then keyword .epsilon
  else if word = "start" then keyword .start
  else name word

end Token

/-- A token and the stretch of bytes it is written in. -/
structure Lexeme where
  start : Nat
  stop : Nat
  token : Token
  deriving DecidableEq

structure Scan where
  /-- The tokens, up to the end of the text or to a quote that is never closed. -/
  lexemes : List Lexeme
  /-- The offset of a quote that is never closed. -/
  openQuote : Option Nat
  deriving DecidableEq

/-- The number of bytes in which characters are written. -/
def byteLength (chars : List Char) : Nat :=
  chars.foldl (fun length char => length + char.utf8Size) 0

/-- The characters that are tokens by themselves. -/
def isPunctuation (char : Char) : Bool := char == ':' || char == ';' || char == '|'

/-- The characters that do not end a name. -/
def isNameChar (char : Char) : Bool := !(Text.isBlank char || isPunctuation char)

/-- Where a stretch of text between tokens stands. -/
inductive Gap where
  | blank
  | line
  | block

/-- Put characters in front of the first part of a split. -/
def consumed (chars : List Char) (split : List Char × List Char) : List Char × List Char :=
  (chars ++ split.1, split.2)

/-- Split off the blanks and comments in front of the next token. -/
def splitGap : Gap → List Char → List Char × List Char
  | _, [] => ([], [])
  | .blank, '/' :: '/' :: rest => consumed ['/', '/'] (splitGap .line rest)
  | .blank, '/' :: '*' :: rest => consumed ['/', '*'] (splitGap .block rest)
  | .blank, char :: rest =>
      if Text.isBlank char then consumed [char] (splitGap .blank rest) else ([], char :: rest)
  | .line, char :: rest =>
      consumed [char] (splitGap (if char = '\n' then .blank else .line) rest)
  | .block, '*' :: '/' :: rest => consumed ['*', '/'] (splitGap .blank rest)
  | .block, char :: rest => consumed [char] (splitGap .block rest)

/-- Split off a quoted name whose opening quote has been read. The result is the name, what it is
written in, the closing quote included, and the rest; there is none if the quote is not closed. -/
def splitQuoted : List Char → Option (List Char × List Char × List Char)
  | [] => none
  | '\x27' :: rest => some ([], ['\x27'], rest)
  | ['\x5c'] => none
  | '\x5c' :: char :: rest =>
      (splitQuoted rest).map fun (name, written, rest) =>
        (char :: name, '\x5c' :: char :: written, rest)
  | char :: rest =>
      (splitQuoted rest).map fun (name, written, rest) => (char :: name, char :: written, rest)

/-- Split off the token at the front of a text that starts with one. The result is the token, what
it is written in and the rest; there is none if an opening quote is not closed. -/
def splitToken (first : Char) (rest : List Char) : Option (Token × List Char × List Char) :=
  if first = ':' then some (.colon, [first], rest)
  else if first = ';' then some (.semicolon, [first], rest)
  else if first = '|' then some (.bar, [first], rest)
  else if first = '\x27' then
    (splitQuoted rest).map fun (name, written, rest) =>
      (.name (String.ofList name), first :: written, rest)
  else
    let word := first :: rest.takeWhile isNameChar
    some (.ofWord (String.ofList word), word, rest.dropWhile isNameChar)

/-- The tokens of a text that begins at an offset, at most `bound` of them. -/
def scanFrom : Nat → Nat → List Char → Scan
  | 0, _, _ => ⟨[], none⟩
  | bound + 1, offset, chars =>
      let (gap, rest) := splitGap .blank chars
      let start := offset + byteLength gap
      match rest with
      | [] => ⟨[], none⟩
      | first :: rest =>
          match splitToken first rest with
          | none => ⟨[], some start⟩
          | some (token, written, rest) =>
              let stop := start + byteLength written
              let others := scanFrom bound stop rest
              ⟨⟨start, stop, token⟩ :: others.lexemes, others.openQuote⟩

/-- Cut a text into tokens. A text has no more tokens than characters, and one more look finds that
nothing is left. -/
def scan (text : String) : Scan :=
  let chars := text.toList
  scanFrom (chars.length + 1) 0 chars

end DeterministicParsing.Description
