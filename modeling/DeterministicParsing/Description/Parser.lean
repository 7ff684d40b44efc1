/-
# Parsing descriptions

Declarations are read one token at a time. What is being read is a `Context`, and each token moves
from one context to the next, or is refused. Since a context accepts a token only if the tokens so
far can be completed to a description, the first token that is refused is the first one that no
description could have in its place.
-/
import DeterministicParsing.Description.Basic

namespace DeterministicParsing.Description

/-- What is being read when a token arrives. -/
inductive Context where
  | outside
  | tokenNames
  | startName
  | startEnd (name : Name)
  | ruleColon (name : Name)
  /-- The variants of a rule: those that are complete, the names of the current one, and whether the
  current one has been marked as empty. -/
  | variants (name : Name) (complete : List (List Name)) (current : List Name) (marked : Bool)
  deriving DecidableEq

/-- What the context waits for when the text ends in it. Outside a declaration the text may end. -/
def Context.awaits : Context → Option Expectation
  | outside => none
  | tokenNames => some .tokenName
  | startName => some .startSymbol
  | startEnd _ => some .semicolon
  | ruleColon _ => some .colon
  | variants .. => some .variantPart

/-- A description as far as it has been read. -/
structure Progress where
  context : Context := .outside
  description : Description := {}
  deriving DecidableEq

namespace Progress

def refuse (lexeme : Lexeme) (expected : Expectation) : Except Error Progress :=
  .error (.unexpected lexeme.start lexeme.token expected)

/-- Go on after one more token. -/
def read (progress : Progress) (lexeme : Lexeme) : Except Error Progress :=
  let description := progress.description
  match progress.context, lexeme.token with
  | .outside, .semicolon => .ok progress
  | .outside, .keyword .token => .ok { progress with context := .tokenNames }
  | .outside, .keyword .start => .ok { progress with context := .startName }
  | .outside, .name text => .ok { progress with context := .ruleColon ⟨text, lexeme.start⟩ }
  | .outside, _ => refuse lexeme .declaration
  | .tokenNames, .semicolon => .ok { progress with context := .outside }
  | .tokenNames, .name text =>
      .ok ⟨.tokenNames,
        { description with tokens := description.tokens ++ [⟨text, lexeme.start⟩] }⟩
  | .tokenNames, _ => refuse lexeme .tokenName
  | .startName, .name text => .ok { progress with context := .startEnd ⟨text, lexeme.start⟩ }
  | .startName, _ => refuse lexeme .startSymbol
  | .startEnd name, .semicolon =>
      .ok ⟨.outside, { description with starts := description.starts ++ [name] }⟩
  | .startEnd _, _ => refuse lexeme .semicolon
  | .ruleColon name, .colon => .ok { progress with context := .variants name [] [] false }
  | .ruleColon _, _ => refuse lexeme .colon
  | .variants name complete current _, .semicolon =>
      let declaration : RuleDeclaration := ⟨name, complete ++ [current]⟩
      .ok ⟨.outside, { description with rules := description.rules ++ [declaration] }⟩
  | .variants name complete current _, .bar =>
      .ok { progress with context := .variants name (complete ++ [current]) [] false }
  | .variants name complete current marked, .keyword .epsilon =>
      if marked || !current.isEmpty then refuse lexeme .variantEnd
      else .ok { progress with context := .variants name complete [] true }
  | .variants name complete current marked, .name text =>
      if marked then refuse lexeme .variantEnd
      else
        .ok { progress with
          context := .variants name complete (current ++ [⟨text, lexeme.start⟩]) false }
  | .variants .., _ => refuse lexeme .variantPart

/-- The description, if the text may end here. -/
def finish (progress : Progress) : Except Error Description :=
  match progress.context.awaits with
  | none => .ok progress.description
  | some expected => .error (.unexpectedEnd expected)

end Progress

/-- What the tokens of a text declare. A quote that is never closed is only noticed when all tokens
in front of it have been accepted. -/
def ofScan (scan : Scan) : Except Error Description := do
  let progress ← scan.lexemes.foldlM Progress.read {}
  match scan.openQuote with
  | some offset => throw (.unterminated offset)
  | none => progress.finish

/-- What a text declares. -/
def parse (text : String) : Except Error Description := ofScan (scan text)

end DeterministicParsing.Description
