import MageUplift.Wiring.ClassBody

/-!
# Members of a class

A scan over the class body that jumps over everything in brackets finds the properties that the class
declares and its constructor. Only the first constructor counts; it must have a parameter list and a
body, or nothing can be injected.
-/

namespace MageUplift.Wiring

open Php

def variableText (s : TokenStream) (i : Nat) : String :=
  String.ofList ((s.text i).toList.dropWhile (· == '$'))

/-! ## §1. The constructor. -/

/-- The tokens of a constructor that later questions start from. -/
structure Constructor where
  functionKw : Nat
  left : Nat
  right : Nat
  bodyLeft : Nat
  bodyRight : Nat
  indent : String
  deriving Repr, DecidableEq

/-- The name `__construct` after the `function` at `i`, which may return by reference. -/
def constructorName? (s : TokenStream) (i : Nat) : Option Nat :=
  ((s.nextSignificant? (i + 1)).bind fun name =>
    if s.hasKind name .ampersand then s.nextSignificant? (name + 1) else some name).filter
      fun name => (s.get? name).any (·.isWord "__construct")

/-- The first brace or semicolon from `i` on and before `limit`; `limit` or beyond if there is none. -/
def signatureEnd (s : TokenStream) (limit : Nat) (i : Nat) : Nat :=
  if i < limit then
    if s.hasKind i .leftBrace || s.hasKind i .semicolon then i else signatureEnd s limit (i + 1)
  else i
termination_by limit - i

theorem le_signatureEnd (s : TokenStream) (limit i : Nat) : i ≤ signatureEnd s limit i := by
  fun_induction signatureEnd s limit i with
  | case1 => exact Nat.le_refl _
  | case2 _ _ _ ih => omega
  | case3 => exact Nat.le_refl _

/-- The constructor whose `function` stands at `i` and whose name stands at `name`, inside a class body
that ends at `limit`. -/
def readConstructor (s : TokenStream) (limit i name : Nat) : Except InjectError Constructor :=
  match s.followedBy? name .leftParen with
  | none => .error (.malformedConstructor ⟨i, name + 1⟩ .missingParameters)
  | some left =>
    match s.matchingClose? left with
    | none => .error (.malformedConstructor ⟨i, left + 1⟩ .unbalancedParameters)
    | some right =>
      let stop := signatureEnd s limit (right + 1)
      if stop < limit && s.hasKind stop .leftBrace then
        match s.matchingClose? stop with
        | none => .error (.malformedConstructor ⟨i, stop + 1⟩ .unbalancedBody)
        | some bodyRight => .ok ⟨i, left, right, stop, bodyRight, lineIndent s i⟩
      else if stop < limit then .error (.malformedConstructor ⟨i, stop + 1⟩ .noBody)
      else .error (.malformedConstructor ⟨i, stop⟩ .noBody)

theorem lt_constructorName? {s : TokenStream} {i name : Nat} (h : constructorName? s i = some name) :
    i < name := by
  simp only [constructorName?, Option.filter_eq_some_iff, Option.bind_eq_some_iff] at h
  obtain ⟨⟨first, hfirst, hname⟩, _⟩ := h
  have := TokenStream.le_of_findFrom? hfirst
  split at hname
  · have := TokenStream.le_of_findFrom? hname
    omega
  · simp at hname
    omega

theorem lt_bodyRight_of_read {s : TokenStream} {limit i name : Nat} {c : Constructor}
    (h : readConstructor s limit i name = .ok c) : name < c.bodyRight := by
  unfold readConstructor at h
  split at h
  · simp at h
  · rename_i left hleft
    have h₁ := TokenStream.lt_of_followedBy? hleft
    split at h
    · simp at h
    · rename_i right hright
      have h₂ := TokenStream.lt_close hright
      have h₃ := le_signatureEnd s limit (right + 1)
      dsimp only at h
      split at h
      · split at h
        · simp at h
        · rename_i bodyRight hbody
          have h₄ := TokenStream.lt_close hbody
          simp at h
          subst h
          show name < bodyRight
          omega
      · split at h <;> simp at h

/-! ## §2. The members. -/

structure Members where
  properties : List String
  ctor : Option Constructor
  deriving Repr, DecidableEq

def membersFrom (s : TokenStream) (cls : ClassBody) (found : Members) (i : Nat) :
    Except InjectError Members :=
  if i < cls.right then
    match s.kind? i with
    | none => .ok found
    | some k =>
      if k = .variableName then
        membersFrom s cls { found with properties := found.properties ++ [variableText s i] } (i + 1)
      else if k = .keyword .functionKw && found.ctor.isNone then
        match _hn : constructorName? s i with
        | none => membersFrom s cls found (i + 1)
        | some name =>
          match _hc : readConstructor s cls.right i name with
          | .error e => .error e
          | .ok c => membersFrom s cls { found with ctor := some c } (c.bodyRight + 1)
      else if k.isOpener then
        match _hm : s.matchingClose? i with
        | none => .error (.unbalancedClassBody cls.left)
        | some close => membersFrom s cls found (close + 1)
      else membersFrom s cls found (i + 1)
  else .ok found
termination_by cls.right - i
decreasing_by
  · omega
  · omega
  · have := lt_constructorName? _hn
    have := lt_bodyRight_of_read _hc
    omega
  · have := TokenStream.lt_close _hm
    omega
  · omega

def members (s : TokenStream) (cls : ClassBody) : Except InjectError Members :=
  membersFrom s cls ⟨[], none⟩ (cls.left + 1)

end MageUplift.Wiring
