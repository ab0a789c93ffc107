import MageUplift.Php.Kind

/-!
# Tokens

A token is a kind together with the text it stands for. Names in PHP are compared without regard to
ASCII case (`Token.isWord`), and only names are: a string or a comment that spells the same letters
is not the word.
-/

namespace MageUplift.Php

structure Token where
  kind : Kind
  text : String
  deriving Repr, DecidableEq

def sameWord (a b : String) : Bool := a.toLower == b.toLower

namespace Token

def isTrivia (t : Token) : Bool := t.kind.isTrivia

def isWord (t : Token) (word : String) : Bool := t.kind.isName && sameWord t.text word

end Token

end MageUplift.Php
