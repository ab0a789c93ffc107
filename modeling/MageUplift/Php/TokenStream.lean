import MageUplift.Edit
import MageUplift.Php.Lexer

/-!
# Token streams

The tokens of one file, addressed by index. A stream is never changed in place: edits are collected
against its indices and `apply` gives a new stream. Tokens of inserted code are read from fragments, so
an edited stream may be cut otherwise than the lexer would cut its text; `refresh` reads it anew.

Questions about the neighbourhood of a token skip trivia (`nextSignificant?`, `prevSignificant?`).
Brackets are matched with a stack of expected closers (`closeFrom?`): an attribute's `#[` closes with
`]`, and a closer that is not the expected one ends the search.
-/

namespace MageUplift.Php

structure TokenStream where
  tokens : Array Token
  deriving Repr, DecidableEq

namespace TokenStream

/-! ## §1. Reading and rendering. -/

def ofTokens (tokens : List Token) : TokenStream := ⟨tokens.toArray⟩

def ofSource (source : String) : TokenStream := ofTokens (lex source)

def size (s : TokenStream) : Nat := s.tokens.size

def get? (s : TokenStream) (i : Nat) : Option Token := s.tokens[i]?

def kind? (s : TokenStream) (i : Nat) : Option Kind := (s.get? i).map Token.kind

def hasKind (s : TokenStream) (i : Nat) (k : Kind) : Bool := s.kind? i == some k

def text (s : TokenStream) (i : Nat) : String := ((s.get? i).map Token.text).getD ""

def joinTexts (tokens : List Token) : String := String.join (tokens.map Token.text)

def textOf (s : TokenStream) (start stop : Nat) : String :=
  joinTexts (s.tokens.extract start stop).toList

def render (s : TokenStream) : String := joinTexts s.tokens.toList

def byteOffset (s : TokenStream) (i : Nat) : Nat :=
  (s.tokens.toList.take i).foldr (fun t n => t.text.utf8ByteSize + n) 0

/-! ## §2. Searching. -/

def findFrom? (s : TokenStream) (p : Token → Bool) (i : Nat) : Option Nat :=
  if h : i < s.tokens.size then
    if p s.tokens[i] then some i else findFrom? s p (i + 1)
  else none
termination_by s.tokens.size - i

/-- The last index before `i` whose token is there and satisfies `p`. -/
def findBefore? (s : TokenStream) (p : Token → Bool) : Nat → Option Nat
  | 0 => none
  | i + 1 => if (s.get? i).any p then some i else findBefore? s p i

def nextOfKind? (s : TokenStream) (i : Nat) (k : Kind) : Option Nat := s.findFrom? (·.kind == k) i

def nextSignificant? (s : TokenStream) (i : Nat) : Option Nat := s.findFrom? (!·.isTrivia) i

def prevSignificant? (s : TokenStream) (i : Nat) : Option Nat :=
  s.findBefore? (!·.isTrivia) (min i s.size)

theorem le_of_findFrom? {s : TokenStream} {p : Token → Bool} {i j : Nat}
    (h : s.findFrom? p i = some j) : i ≤ j := by
  fun_induction findFrom? s p i with
  | case1 => simp at h; omega
  | case2 _ _ _ ih => have := ih h; omega
  | case3 => simp at h

theorem lt_of_findBefore? {s : TokenStream} {p : Token → Bool} {i j : Nat}
    (h : s.findBefore? p i = some j) : j < i := by
  induction i with
  | zero => simp [findBefore?] at h
  | succ i ih =>
    rw [findBefore?] at h
    split at h
    · simp at h; omega
    · have := ih h; omega

theorem lt_of_prev {s : TokenStream} {i j : Nat} (h : s.prevSignificant? i = some j) :
    j < i := by
  have := lt_of_findBefore? h
  omega

/-- The next significant token after `i`, provided that it has kind `k`. -/
def followedBy? (s : TokenStream) (i : Nat) (k : Kind) : Option Nat :=
  (s.nextSignificant? (i + 1)).filter (s.hasKind · k)

theorem lt_of_followedBy? {s : TokenStream} {i j : Nat} {k : Kind} (h : s.followedBy? i k = some j) :
    i < j := by
  simp only [followedBy?, Option.filter_eq_some_iff] at h
  exact le_of_findFrom? h.1

/-! ## §3. Brackets. -/

/-- Where the last of the `expected` closers stands, searching from `i` on. -/
def closeFrom? (s : TokenStream) (expected : List Kind) (i : Nat) : Option Nat :=
  if h : i < s.tokens.size then
    let k := s.tokens[i].kind
    match k.closer? with
    | some closer => closeFrom? s (closer :: expected) (i + 1)
    | none =>
      if k.isCloser then
        match expected with
        | [] => none
        | top :: rest =>
          if top ≠ k then none
          else if rest.isEmpty then some i
          else closeFrom? s rest (i + 1)
      else closeFrom? s expected (i + 1)
  else none
termination_by s.tokens.size - i

def matchingClose? (s : TokenStream) (i : Nat) : Option Nat :=
  ((s.kind? i).bind Kind.closer?).bind fun closer => s.closeFrom? [closer] (i + 1)

/-- Every bracket of the kinds is closed by its counterpart, given the closers still expected. -/
def balancedFrom (expected : List Kind) : List Kind → Bool
  | [] => expected.isEmpty
  | k :: ks =>
    match k.closer? with
    | some closer => balancedFrom (closer :: expected) ks
    | none =>
      if k.isCloser then
        match expected with
        | [] => false
        | top :: rest => top == k && balancedFrom rest ks
      else balancedFrom expected ks

def isBalanced (s : TokenStream) : Bool := balancedFrom [] (s.tokens.toList.map Token.kind)

theorem closeFrom?_bounds {s : TokenStream} {expected : List Kind} {i c : Nat}
    (h : s.closeFrom? expected i = some c) : i ≤ c ∧ c < s.size := by
  fun_induction closeFrom? s expected i with
  | case1 _ _ _ _ _ _ ih => have := ih h; omega
  | case2 | case3 | case7 => simp at h
  | case4 => simp at h; subst h; exact ⟨Nat.le_refl _, by assumption⟩
  | case5 _ _ _ _ _ _ _ _ _ ih => have := ih h; omega
  | case6 _ _ _ _ _ _ ih => have := ih h; omega

/-- A closer stands after its opener and within the stream. -/
theorem lt_close {s : TokenStream} {i c : Nat} (h : s.matchingClose? i = some c) :
    i < c ∧ c < s.size := by
  simp only [matchingClose?, Option.bind_eq_some_iff] at h
  obtain ⟨_, _, hc⟩ := h
  have := closeFrom?_bounds hc
  omega

/-! ## §4. Editing. -/

def apply (s : TokenStream) (edits : List (Edit Token)) : Except Edit.Error TokenStream :=
  (Edit.applyAll s.tokens.toList edits).map ofTokens

def refresh (s : TokenStream) : TokenStream := ofSource s.render

end TokenStream

end MageUplift.Php
