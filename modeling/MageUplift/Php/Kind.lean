/-!
# Kinds of PHP tokens

Every piece of a PHP file belongs to exactly one `Kind`. Reserved words are a type of their own,
`Keyword`, because a word is reserved only in some positions: the lexer asks `Keyword.ofWord?` and then
decides whether the position admits the answer.

The classes that the rest of the library asks for are stated here once: trivia, names, modifiers, and
the brackets with their closers.
-/

namespace MageUplift.Php

/-! ## §1. Reserved words. -/

/-- The reserved words of PHP. `die` is another spelling of `exit`. -/
inductive Keyword where
  | abstractKw | andKw | arrayKw | asKw | breakKw | callableKw | caseKw | catchKw | classKw | cloneKw
  | constKw | continueKw | declareKw | defaultKw | doKw | echoKw | elseKw | elseifKw | emptyKw | evalKw
  | exitKw | extendsKw | finalKw | finallyKw | fnKw | forKw | foreachKw | functionKw | globalKw | gotoKw
  | ifKw | implementsKw | includeKw | includeOnceKw | instanceofKw | insteadofKw | interfaceKw | issetKw
  | listKw | matchKw | namespaceKw | newKw | orKw | printKw | privateKw | protectedKw | publicKw
  | readonlyKw | requireKw | requireOnceKw | returnKw | staticKw | switchKw | throwKw | traitKw | tryKw
  | unsetKw | useKw | varKw | whileKw | xorKw | yieldKw
  deriving Repr, DecidableEq

namespace Keyword

def all : List Keyword :=
  [.abstractKw, .andKw, .arrayKw, .asKw, .breakKw, .callableKw, .caseKw, .catchKw, .classKw, .cloneKw,
   .constKw, .continueKw, .declareKw, .defaultKw, .doKw, .echoKw, .elseKw, .elseifKw, .emptyKw, .evalKw,
   .exitKw, .extendsKw, .finalKw, .finallyKw, .fnKw, .forKw, .foreachKw, .functionKw, .globalKw, .gotoKw,
   .ifKw, .implementsKw, .includeKw, .includeOnceKw, .instanceofKw, .insteadofKw, .interfaceKw, .issetKw,
   .listKw, .matchKw, .namespaceKw, .newKw, .orKw, .printKw, .privateKw, .protectedKw, .publicKw,
   .readonlyKw, .requireKw, .requireOnceKw, .returnKw, .staticKw, .switchKw, .throwKw, .traitKw, .tryKw,
   .unsetKw, .useKw, .varKw, .whileKw, .xorKw, .yieldKw]

def spelling : Keyword → String
  | .abstractKw => "abstract"
  | .andKw => "and"
  | .arrayKw => "array"
  | .asKw => "as"
  | .breakKw => "break"
  | .callableKw => "callable"
  | .caseKw => "case"
  | .catchKw => "catch"
  | .classKw => "class"
  | .cloneKw => "clone"
  | .constKw => "const"
  | .continueKw => "continue"
  | .declareKw => "declare"
  | .defaultKw => "default"
  | .doKw => "do"
  | .echoKw => "echo"
  | .elseKw => "else"
  | .elseifKw => "elseif"
  | .emptyKw => "empty"
  | .evalKw => "eval"
  | .exitKw => "exit"
  | .extendsKw => "extends"
  | .finalKw => "final"
  | .finallyKw => "finally"
  | .fnKw => "fn"
  | .forKw => "for"
  | .foreachKw => "foreach"
  | .functionKw => "function"
  | .globalKw => "global"
  | .gotoKw => "goto"
  | .ifKw => "if"
  | .implementsKw => "implements"
  | .includeKw => "include"
  | .includeOnceKw => "include_once"
  | .instanceofKw => "instanceof"
  | .insteadofKw => "insteadof"
  | .interfaceKw => "interface"
  | .issetKw => "isset"
  | .listKw => "list"
  | .matchKw => "match"
  | .namespaceKw => "namespace"
  | .newKw => "new"
  | .orKw => "or"
  | .printKw => "print"
  | .privateKw => "private"
  | .protectedKw => "protected"
  | .publicKw => "public"
  | .readonlyKw => "readonly"
  | .requireKw => "require"
  | .requireOnceKw => "require_once"
  | .returnKw => "return"
  | .staticKw => "static"
  | .switchKw => "switch"
  | .throwKw => "throw"
  | .traitKw => "trait"
  | .tryKw => "try"
  | .unsetKw => "unset"
  | .useKw => "use"
  | .varKw => "var"
  | .whileKw => "while"
  | .xorKw => "xor"
  | .yieldKw => "yield"

/-- The reserved word that `word` spells, in any mixture of ASCII capitals and small letters. -/
def ofWord? (word : String) : Option Keyword :=
  let lower := word.toLower
  if lower = "die" then some .exitKw else all.find? fun k => k.spelling = lower

/-- The words that may stand before a member declaration or a promoted parameter. -/
def isModifier : Keyword → Bool
  | .publicKw | .protectedKw | .privateKw | .staticKw | .abstractKw | .finalKw | .readonlyKw | .varKw => true
  | _ => false

end Keyword

/-! ## §2. Kinds. -/

/-- The lexical category of a token. `error` holds a character that no rule accepts, so that every
character of a file is in some token. -/
inductive Kind where
  | whitespace | comment | docComment
  | inlineHtml | openTag | openTagWithEcho | closeTag
  | variableName
  | identifier
  /-- A name with a namespace separator in it: `Foo\Bar`, `\Foo`. -/
  | qualifiedName
  | stringLiteral | heredoc | number
  | keyword (word : Keyword)
  | leftParen | rightParen | leftBrace | rightBrace | leftBracket | rightBracket
  | semicolon | comma | equals | doubleColon | arrow | nullsafeArrow | fatArrow | ellipsis
  | question | colon | dot | ampersand | atSign | dollar
  | attributeStart
  | operator
  | error
  deriving Repr, DecidableEq

namespace Kind

/-- Blanks and comments, which carry no meaning. -/
def isTrivia : Kind → Bool
  | .whitespace | .comment | .docComment => true
  | _ => false

def isKeyword : Kind → Bool
  | .keyword _ => true
  | _ => false

def isLiteral : Kind → Bool
  | .stringLiteral | .heredoc | .number => true
  | _ => false

def isName : Kind → Bool
  | .identifier | .qualifiedName => true
  | _ => false

def isModifier : Kind → Bool
  | .keyword k => k.isModifier
  | _ => false

/-- The kind that closes an opening bracket; `none` for every other kind. -/
def closer? : Kind → Option Kind
  | .leftParen => some .rightParen
  | .leftBrace => some .rightBrace
  | .leftBracket => some .rightBracket
  | .attributeStart => some .rightBracket
  | _ => none

def isOpener (k : Kind) : Bool := k.closer?.isSome

def isCloser : Kind → Bool
  | .rightParen | .rightBrace | .rightBracket => true
  | _ => false

/-- A closer is never an opener. -/
theorem closer?_of_isCloser {k : Kind} (h : k.isCloser = true) : k.closer? = none := by
  cases k <;> simp_all [isCloser, closer?]

end Kind

end MageUplift.Php
