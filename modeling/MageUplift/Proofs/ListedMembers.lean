import MageUplift.Proofs.CompactClasses
import MageUplift.Proofs.ListedParameters

/-!
# Members by the tokens of their class

The scan over a class jumps over everything in brackets, and over its first constructor. What it finds depends on the
significant tokens of the class alone. `Outlines` says this as a relation on lists of tokens: how the properties and
the constructor's two token lists are collected, with one rule for each kind of step.
-/

namespace MageUplift.Wiring

open Php TokenStream List Option

variable {rest : List Token} {c : Constructor} {t : Token} {j : Nat}
open Call (Collaborator)

/-! ## §1. Tokens and their places. -/

section

variable {s : TokenStream} {a b m : Nat} {t : Token}

theorem isTrivia_of_mem_codeIn (h : t ∈ s.codeIn a b) : t.isTrivia = false := by
  have := (mem_filter.mp h).2
  simpa using this

theorem codeIn_split (ht : s.get? m = some t) (hsig : t.isTrivia = false) (ham : a ≤ m) (hmb : m < b) :
    s.codeIn a b = s.codeIn a m ++ t :: s.codeIn (m + 1) b := by
  rw [codeIn_append s ham hmb.le, codeIn_code ht hsig hmb]

theorem mem_codeIn (ht : s.get? m = some t) (hsig : t.isTrivia = false) (ham : a ≤ m) (hmb : m < b) :
    t ∈ s.codeIn a b := by
  rw [codeIn_split ht hsig ham hmb]
  exact mem_append_right _ mem_cons_self

theorem exists_split_of_codeIn {front : List Token} (h : s.codeIn a b = front ++ t :: rest) :
    ∃ m, a ≤ m ∧ m < b ∧ s.get? m = some t ∧ s.codeIn a m = front ∧ s.codeIn (m + 1) b = rest := by
  obtain ⟨m, ham, hmb, ht, hrest⟩ := exists_place_of_codeIn h
  have hsig : t.isTrivia = false := isTrivia_of_mem_codeIn (h ▸ mem_append_right front mem_cons_self)
  have hsplit := codeIn_split ht hsig ham hmb
  rw [h, hrest] at hsplit
  exact ⟨m, ham, hmb, ht, (append_cancel_right hsplit).symm, hrest⟩

theorem triviaIn_of_nil (hb : b ≤ s.size) (h : s.codeIn a b = []) : s.TriviaIn a b := by
  intro m ham hmb
  obtain ⟨t, ht⟩ := get?_of_lt (s := s) (i := m) (by omega)
  refine ⟨t, ht, ?_⟩
  by_cases htriv : t.isTrivia
  · exact htriv
  · have hmem := mem_codeIn ht (by simpa using htriv) ham hmb
    rw [h] at hmem
    cases hmem

theorem close_of_codeIn {o c : Token} {inner : List Token} (ho : s.get? a = some o)
    (hpair : o.kind.closer? = some c.kind) (hinner : Balanced (inner.map Token.kind))
    (h : s.codeIn (a + 1) b = inner ++ c :: rest) :
    ∃ close, s.matchingClose? a = some close ∧ close < b ∧ s.get? close = some c ∧ s.codeIn (a + 1) close = inner
      ∧ s.codeIn (close + 1) b = rest := by
  obtain ⟨close, hle, hlt, hc, hfront, hrest⟩ := exists_split_of_codeIn h
  refine ⟨close, close_iff.mpr ⟨c.kind, ?_, hle, kind?_get? hc, ?_⟩, hlt, hc, hfront, hrest⟩
  · rw [kind?_get? ho]
    exact hpair
  · rw [← balanced_codeIn, hfront]
    exact hinner

end

/-! ## §2. The tokens of a constructor. -/

/-- The name of a constructor, which may return by reference. -/
def IsConstructorName (ts : List Token) : Prop :=
  ∃ w, w.isWord "__construct" = true ∧ (ts = [w] ∨ ∃ a, a.kind = .ampersand ∧ ts = [a, w])

def NamesConstructor (ts : List Token) : Prop := ∃ name rest, IsConstructorName name ∧ ts = name ++ rest

/-- The tokens of a whole constructor. -/
structure ConstructorCode where
  function : Token
  name : List Token
  left : Token
  parameters : List Token
  right : Token
  signature : List Token
  bodyLeft : Token
  body : List Token
  bodyRight : Token
  isFunction : function.kind = .keyword .functionKw
  isName : IsConstructorName name
  isLeft : left.kind = .leftParen
  isRight : right.kind = .rightParen
  balanced : Balanced (parameters.map Token.kind)
  isSignature : ∀ t ∈ signature, t.kind ≠ .leftBrace ∧ t.kind ≠ .semicolon
  isBodyLeft : bodyLeft.kind = .leftBrace
  isBodyRight : bodyRight.kind = .rightBrace
  bodyBalanced : Balanced (body.map Token.kind)

namespace ConstructorCode

def tokens (c : ConstructorCode) : List Token :=
  c.function :: (c.name
    ++ c.left :: (c.parameters ++ c.right :: (c.signature ++ c.bodyLeft :: (c.body ++ [c.bodyRight]))))

def replace (c : ConstructorCode) {parameters body : List Token} (hparams : Balanced (parameters.map Token.kind))
    (hbody : Balanced (body.map Token.kind)) : ConstructorCode :=
  { c with parameters := parameters, body := body, balanced := hparams, bodyBalanced := hbody }

end ConstructorCode

section

variable {s : TokenStream} {limit i name : Nat}

theorem kind_ne_ampersand_of_isWord {word : String} (h : t.isWord word) : t.kind ≠ .ampersand := by
  intro hk
  rw [Token.isWord, hk] at h
  cases h

theorem constructorName?_iff : constructorName? s i = some name ↔
    ∃ w, s.get? name = some w ∧ w.isWord "__construct" ∧ (s.nextSignificant? (i + 1) = some name
      ∨ ∃ a t, s.nextSignificant? (i + 1) = some a ∧ s.get? a = some t ∧ t.kind = .ampersand
        ∧ s.nextSignificant? (a + 1) = some name) := by
  rw [constructorName?, filter_eq_some_iff, bind_eq_some_iff, Option.any_eq_true]
  constructor
  · rintro ⟨⟨first, hfst, hname⟩, w, hw, hword⟩
    refine ⟨w, hw, hword, ?_⟩
    split at hname
    · rename_i hamp
      rw [hasKind, beq_iff_eq] at hamp
      obtain ⟨t, ht, hkind⟩ := map_eq_some_iff.mp hamp
      exact .inr ⟨first, t, hfst, ht, hkind, hname⟩
    · cases hname
      exact .inl hfst
  · rintro ⟨w, hw, hword, hnext | ⟨a, t, ha, ht, hkind, hnext⟩⟩
    · refine ⟨⟨name, hnext, if_neg ?_⟩, w, hw, hword⟩
      rw [hasKind, kind?_get? hw, beq_iff_eq, some.injEq]
      exact kind_ne_ampersand_of_isWord hword
    · refine ⟨⟨a, ha, ?_⟩, w, hw, hword⟩
      rw [if_pos (by rw [hasKind, kind?_get? ht, hkind]; rfl), hnext]

theorem codeIn_constructorName (ht : s.get? limit = some t) (hbrace : t.kind = .rightBrace)
    (hi : i < limit) (h : constructorName? s i = some name) :
    ∃ ts, IsConstructorName ts ∧ name < limit ∧ s.codeIn (i + 1) limit = ts ++ s.codeIn (name + 1) limit := by
  have hsig : t.isTrivia = false := by rw [Token.isTrivia, hbrace]; rfl
  obtain ⟨w, hw, hword, hname⟩ := constructorName?_iff.mp h
  -- the brace is significant, and neither a word nor an ampersand
  have hne : name ≠ limit := by
    rintro rfl
    rw [ht, some.injEq] at hw
    subst hw
    rw [Token.isWord, hbrace] at hword
    cases hword
  have hbef : ∀ {j n}, j ≤ limit → s.nextSignificant? j = some n → n ≤ limit := by
    intro j n hj hn
    obtain ⟨-, -, htrivia⟩ := next_spec hn
    refine Nat.le_of_not_lt fun hlt => ?_
    obtain ⟨u, hu, htriv⟩ := htrivia limit hj hlt
    rw [ht, some.injEq] at hu
    rw [← hu, hsig] at htriv
    cases htriv
  obtain hnext | ⟨a, u, ha, hu, hamp, hnext⟩ := hname
  · have hlt : name < limit := by
      have := hbef hi hnext
      omega
    exact ⟨[w], ⟨w, hword, .inl rfl⟩, hlt, codeIn_next hnext hw hlt⟩
  · have hane : a ≠ limit := by
      rintro rfl
      rw [ht, some.injEq] at hu
      rw [← hu, hbrace] at hamp
      cases hamp
    have halt : a < limit := by
      have := hbef hi ha
      omega
    have hlt : name < limit := by
      have := hbef halt hnext
      omega
    refine ⟨[u, w], ⟨w, hword, .inr ⟨u, hamp, rfl⟩⟩, hlt, ?_⟩
    rw [codeIn_next ha hu halt, codeIn_next hnext hw hlt]
    rfl

theorem constructorName?_codeIn {ts : List Token} (hname : IsConstructorName ts)
    (h : s.codeIn (i + 1) limit = ts ++ rest) :
    ∃ name, constructorName? s i = some name ∧ s.codeIn (name + 1) limit = rest := by
  obtain ⟨w, hword, rfl | ⟨a, hamp, rfl⟩⟩ := hname
  · obtain ⟨name, hnext, hw, -, hrest⟩ := next_of_codeIn h
    exact ⟨name, constructorName?_iff.mpr ⟨w, hw, hword, .inl hnext⟩, hrest⟩
  · obtain ⟨first, ha, hget, -, h'⟩ := next_of_codeIn h
    obtain ⟨name, hnext, hw, -, hrest⟩ := next_of_codeIn h'
    exact ⟨name, constructorName?_iff.mpr ⟨w, hw, hword, .inr ⟨first, a, ha, hget, hamp, hnext⟩⟩, hrest⟩

theorem signatureEnd_eq_iff {stop : Nat} (hstop : stop < limit) : signatureEnd s limit i = stop ↔
    i ≤ stop ∧ (s.hasKind stop .leftBrace || s.hasKind stop .semicolon)
      ∧ ∀ k, i ≤ k → k < stop → (s.hasKind k .leftBrace || s.hasKind k .semicolon) = false := by
  fun_induction signatureEnd s limit i with
  | case1 i hi hends =>
    constructor
    · rintro rfl
      exact ⟨le_rfl, hends, fun k h₁ h₂ => by omega⟩
    · rintro ⟨hle, -, hnone⟩
      refine hle.antisymm (Nat.le_of_not_lt fun hlt => ?_)
      rw [hnone i le_rfl hlt] at hends
      cases hends
  | case2 i hi hends ih =>
    rw [Bool.not_eq_true] at hends
    rw [ih]
    constructor
    · rintro ⟨hle, hstops, hnone⟩
      refine ⟨by omega, hstops, fun k h₁ h₂ => ?_⟩
      obtain rfl | hlt := Nat.eq_or_lt_of_le h₁
      · exact hends
      · exact hnone k hlt h₂
    · rintro ⟨hle, hstops, hnone⟩
      obtain rfl | hlt := Nat.eq_or_lt_of_le hle
      · rw [hends] at hstops
        cases hstops
      · exact ⟨hlt, hstops, fun k h₁ h₂ => hnone k (by omega) h₂⟩
  | case3 i hi =>
    constructor
    · rintro rfl
      omega
    · rintro ⟨hle, -⟩
      omega

theorem kind?_of_close {close : Nat} {k c : Kind} (h : s.matchingClose? i = some close) (hk : s.kind? i = some k)
    (hc : k.closer? = some c) : s.kind? close = some c := by
  obtain ⟨c', hc', -, hclose, -⟩ := close_iff.mp h
  rw [hk, bind_some, hc] at hc'
  rw [hclose, hc']

theorem exists_code_of_read {cls : ClassBody}
    (hcls : s.matchingClose? cls.left = some cls.right) (hbrace : s.kind? cls.left = some .leftBrace) (hi : cls.left < i)
    (hfun : s.kind? i = some (.keyword .functionKw)) (hname : constructorName? s i = some name)
    (hread : readConstructor s cls.right i name = .ok c) :
    ∃ code : ConstructorCode, s.codeIn i (c.left + 1) = code.function :: (code.name ++ [code.left])
      ∧ s.codeIn c.right (c.bodyLeft + 1) = code.right :: (code.signature ++ [code.bodyLeft])
      ∧ s.codeIn c.bodyRight cls.right = code.bodyRight :: s.codeIn (c.bodyRight + 1) cls.right := by
  obtain ⟨hleft, hright, hend, hlt, hisBrace, hbody, -, -⟩ := readConstructor_iff.mp hread
  obtain ⟨hnextLeft, hkindLeft⟩ := followedBy?_iff.mp hleft
  have hnameLt := lt_constructorName? hname
  have hleftLt := lt_of_followedBy? hleft
  have hrightLt := (lt_close hright).1
  have hbodyLt := (lt_close hbody).1
  have hstopLe := le_signatureEnd s cls.right (c.right + 1)
  rw [hend] at hstopLe
  have hin := close_lt_of_inside hcls (by omega) hlt hbody
  rw [hasKind, beq_iff_eq] at hisBrace
  -- the tokens that stand at the places
  obtain ⟨f, hf, hfkind⟩ := map_eq_some_iff.mp hfun
  obtain ⟨l, hl, hlkind⟩ := map_eq_some_iff.mp hkindLeft
  obtain ⟨r, hr, hrkind⟩ := map_eq_some_iff.mp (kind?_of_close hright hkindLeft rfl)
  obtain ⟨bl, hbl, hblkind⟩ := map_eq_some_iff.mp hisBrace
  obtain ⟨br, hbr, hbrkind⟩ := map_eq_some_iff.mp (kind?_of_close hbody hisBrace rfl)
  obtain ⟨e, he, hekind⟩ := map_eq_some_iff.mp (kind?_of_close hcls hbrace rfl)
  have hsig : ∀ {t : Token} {k : Kind}, t.kind = k → k.isTrivia = false → t.isTrivia = false := by
    intro t k hk htriv
    rw [Token.isTrivia, hk, htriv]
  obtain ⟨ts, hts, -, hcode⟩ := codeIn_constructorName he hekind (by omega) hname
  have hhead : s.codeIn (i + 1) (c.left + 1) = ts ++ [l] := by
    rw [codeIn_next hnextLeft hl (by omega),
      codeIn_append s (show i + 1 ≤ c.left + 1 by omega) (show c.left + 1 ≤ cls.right by omega),
      ← singleton_append, ← append_assoc] at hcode
    exact append_cancel_right hcode
  have hsignature : ∀ u ∈ s.codeIn (c.right + 1) c.bodyLeft, u.kind ≠ .leftBrace ∧ u.kind ≠ .semicolon := by
    intro u hu
    obtain ⟨front, rest, hsplit⟩ := append_of_mem hu
    obtain ⟨k, hk₁, hk₂, hget, -⟩ := exists_split_of_codeIn hsplit
    have hnone := ((signatureEnd_eq_iff hlt).mp hend).2.2 k hk₁ hk₂
    rw [hasKind, hasKind, kind?_get? hget] at hnone
    constructor <;> intro hkind <;> rw [hkind] at hnone <;> simp at hnone
  refine ⟨⟨f, ts, l, s.codeIn (c.left + 1) c.right, r, s.codeIn (c.right + 1) c.bodyLeft, bl,
    s.codeIn (c.bodyLeft + 1) c.bodyRight, br, hfkind, hts, hlkind, hrkind, balanced_codeIn.mpr (balanced_inside hright),
    hsignature, hblkind, hbrkind, balanced_codeIn.mpr (balanced_inside hbody)⟩, ?_, ?_, ?_⟩
  · rw [codeIn_code hf (hsig hfkind rfl) (by omega), hhead]
  · rw [codeIn_code hr (hsig hrkind rfl) (by omega), codeIn_split hbl (hsig hblkind rfl) hstopLe (Nat.lt_succ_self _),
      codeIn_self]
  · exact codeIn_code hbr (hsig hbrkind rfl) hin

theorem readConstructor_of_codeIn {code : ConstructorCode} {rest : List Token}
    (h : s.codeIn (i + 1) limit = code.name ++ code.left :: (code.parameters ++ code.right :: (code.signature
      ++ code.bodyLeft :: (code.body ++ code.bodyRight :: rest)))) :
    ∃ name c, constructorName? s i = some name ∧ readConstructor s limit i name = .ok c
      ∧ s.codeIn (c.left + 1) c.right = code.parameters ∧ s.codeIn (c.bodyLeft + 1) c.bodyRight = code.body
      ∧ s.codeIn (c.bodyRight + 1) limit = rest := by
  obtain ⟨name, hname, h⟩ := constructorName?_codeIn code.isName h
  obtain ⟨left, hnext, hleft, -, h⟩ := next_of_codeIn h
  obtain ⟨right, hright, -, -, hparams, h⟩ :=
    close_of_codeIn hleft (by rw [code.isLeft, code.isRight]; rfl) code.balanced h
  obtain ⟨stop, hle, hlt, hstop, hsignature, h⟩ := exists_split_of_codeIn h
  obtain ⟨bodyRight, hbody, -, -, hcode, hrest⟩ :=
    close_of_codeIn hstop (by rw [code.isBodyLeft, code.isBodyRight]; rfl) code.bodyBalanced h
  have hbrace : s.hasKind stop .leftBrace := by rw [hasKind, kind?_get? hstop, code.isBodyLeft]; rfl
  have hend : signatureEnd s limit (right + 1) = stop := by
    refine (signatureEnd_eq_iff hlt).mpr ⟨hle, by rw [hbrace]; rfl, fun k hk₁ hk₂ => ?_⟩
    have hnot : ∀ {kind : Kind}, kind.isTrivia = false → (∀ t ∈ code.signature, t.kind ≠ kind) →
      s.hasKind k kind = false := by
      intro kind htriv hne
      refine Bool.eq_false_iff.mpr fun hk => ?_
      obtain ⟨t, ht, hkind⟩ := map_eq_some_iff.mp (eq_of_beq hk)
      exact hne t (hsignature ▸ mem_codeIn ht (by rw [Token.isTrivia, hkind, htriv]) hk₁ hk₂) hkind
    rw [hnot rfl fun t ht => (code.isSignature t ht).1, hnot rfl fun t ht => (code.isSignature t ht).2, Bool.or_self]
  exact ⟨name, ⟨i, left, right, stop, bodyRight, lineIndent s i⟩, hname,
    readConstructor_iff.mpr ⟨followedBy?_iff.mpr ⟨hnext, by rw [kind?_get? hleft, code.isLeft]⟩, hright,
      hend, hlt, hbrace, hbody, rfl, rfl⟩, hparams, hcode, hrest⟩

end

/-! ## §3. Outlines. -/

/-- What a class declares: its properties, and the tokens of its constructor's list and body. -/
structure Outline where
  properties : List String
  ctor : Option (List Token × List Token)

/-- **How a class is outlined**, from the first of its tokens to the last. What stands in brackets is passed over, and
so is everything in the first constructor. -/
inductive Outlines : Outline → List Token → Outline → Prop where
  | done (m : Outline) : Outlines m [] m
  | property {m m' : Outline} {t : Token} {rest : List Token} (isVariable : t.kind = .variableName)
      (tail : Outlines ⟨m.properties ++ [variableOf t], m.ctor⟩ rest m') : Outlines m (t :: rest) m'
  | skip {m m' : Outline} {t : Token} {rest : List Token} (noVariable : t.kind ≠ .variableName)
      (noBracket : t.kind.closer? = none)
      (noConstructor : t.kind = .keyword .functionKw → m.ctor = none → ¬ NamesConstructor rest)
      (tail : Outlines m rest m') : Outlines m (t :: rest) m'
  | bracket {m m' : Outline} {o c : Token} {inner rest : List Token} (pair : o.kind.closer? = some c.kind)
      (inside : Balanced (inner.map Token.kind)) (tail : Outlines m rest m') : Outlines m (o :: (inner ++ c :: rest)) m'
  | ctor {m m' : Outline} {rest : List Token} (free : m.ctor = none) (c : ConstructorCode)
      (tail : Outlines ⟨m.properties, some (c.parameters, c.body)⟩ rest m') : Outlines m (c.tokens ++ rest) m'

namespace Outlines

variable {m m' : Outline} {ts : List Token}

theorem ctor_eq (h : Outlines m ts m') {x : List Token × List Token} (hx : m.ctor = some x) : m'.ctor = some x := by
  induction h with
  | done m => exact hx
  | property _ _ ih => exact ih hx
  | skip _ _ _ _ ih => exact ih hx
  | bracket _ _ _ ih => exact ih hx
  | ctor free c tail ih =>
    rw [hx] at free
    cases free

theorem prepend (h : Outlines m ts m') (before : List String) :
    Outlines ⟨before ++ m.properties, m.ctor⟩ ts ⟨before ++ m'.properties, m'.ctor⟩ := by
  induction h with
  | done m => exact .done _
  | property isVariable _ ih =>
    refine .property isVariable ?_
    rw [append_assoc]
    exact ih
  | skip noVariable noBracket noConstructor _ ih => exact .skip noVariable noBracket noConstructor ih
  | bracket pair inside _ ih => exact .bracket pair inside ih
  | @ctor m m' rest free c _ ih => exact .ctor (m := ⟨before ++ m.properties, m.ctor⟩) free c ih

theorem behind {ctor : Option (List Token × List Token)} (h : Outlines ⟨[], ctor⟩ ts m') (before : List String) :
    Outlines ⟨before, ctor⟩ ts ⟨before ++ m'.properties, m'.ctor⟩ := by
  have hbef := h.prepend before
  rwa [append_nil] at hbef

theorem settle (h : Outlines m ts m') (hctor : m.ctor ≠ none ∨ m'.ctor = none) (x : List Token × List Token) :
    Outlines ⟨m.properties, some x⟩ ts ⟨m'.properties, some x⟩ := by
  induction h with
  | done m => exact .done _
  | property isVariable _ ih => exact .property isVariable (ih hctor)
  | skip noVariable noBracket _ _ ih =>
    exact .skip noVariable noBracket (fun _ hnone => by cases hnone) (ih hctor)
  | bracket pair inside _ ih => exact .bracket pair inside (ih hctor)
  | ctor free c tail ih =>
    rcases hctor with hsome | hnone
    · exact absurd free hsome
    · rw [tail.ctor_eq rfl] at hnone
      cases hnone

end Outlines

/-! ## §4. The scan. -/

/-- The outline of what a scan has found. -/
def Members.outline (s : TokenStream) (m : Members) : Outline :=
  ⟨m.properties, m.ctor.map fun c => (s.codeIn (c.left + 1) c.right, s.codeIn (c.bodyLeft + 1) c.bodyRight)⟩

section

variable {s : TokenStream} {cls : ClassBody} {found m : Members} {i : Nat} {c : Constructor}

theorem not_namesConstructor (h : constructorName? s i = none) (b : Nat) : ¬ NamesConstructor (s.codeIn (i + 1) b) := by
  rintro ⟨name, rest, hname, hcode⟩
  obtain ⟨place, hplace, -⟩ := constructorName?_codeIn hname hcode
  rw [h] at hplace
  cases hplace

/-- The places of a constructor, in order and inside its class, behind `i` and at least two tokens. -/
structure Constructor.Inside (s : TokenStream) (cls : ClassBody) (i : Nat) (c : Constructor) : Prop where
  lt_left : i < c.left
  headed : 2 ≤ (s.codeIn (i + 1) (c.left + 1)).length
  list : s.matchingClose? c.left = some c.right
  lt_bodyLeft : c.right < c.bodyLeft
  body : s.matchingClose? c.bodyLeft = some c.bodyRight
  lt_right : c.bodyRight < cls.right

theorem constructor_inside {name : Nat} {c : Constructor} (hcls : s.matchingClose? cls.left = some cls.right)
    (hi : cls.left < i) (hname : constructorName? s i = some name) (hread : readConstructor s cls.right i name = .ok c) :
    c.Inside s cls i := by
  obtain ⟨hleft, hright, hend, hlt, -, hbody, -, -⟩ := readConstructor_iff.mp hread
  have hnameLt := lt_constructorName? hname
  have hleftLt := lt_of_followedBy? hleft
  have hrightLt := (lt_close hright).1
  have hstopLe := le_signatureEnd s cls.right (c.right + 1)
  rw [hend] at hstopLe
  refine ⟨by omega, ?_, hright, hstopLe, hbody, close_lt_of_inside hcls (by omega) hlt hbody⟩
  -- the name and the parenthesis
  obtain ⟨w, hw, hword, -⟩ := constructorName?_iff.mp hname
  obtain ⟨hnext, hkind⟩ := followedBy?_iff.mp hleft
  obtain ⟨l, hl, -⟩ := map_eq_some_iff.mp hkind
  rw [codeIn_split hw (isTrivia_of_isWord hword).1 hnameLt (show name < c.left + 1 by omega),
    codeIn_next hnext hl (Nat.lt_succ_self _), codeIn_self, length_append]
  exact Nat.le_add_left _ _

theorem Constructor.Inside.of_le (h : c.Inside s cls j) (hij : i ≤ j) : c.Inside s cls i := by
  have hleft := h.lt_left
  refine ⟨by omega, ?_, h.list, h.lt_bodyLeft, h.body, h.lt_right⟩
  rw [codeIn_append s (show i + 1 ≤ j + 1 by omega) (show j + 1 ≤ c.left + 1 by omega), length_append]
  exact h.headed.trans (Nat.le_add_left _ _)

theorem Constructor.Inside.order (h : c.Inside s cls i) :
    i < c.left ∧ c.left < c.right ∧ c.right < c.bodyLeft ∧ c.bodyLeft < c.bodyRight ∧ c.bodyRight < cls.right :=
  ⟨h.lt_left, (lt_close h.list).1, h.lt_bodyLeft, (lt_close h.body).1, h.lt_right⟩

theorem Constructor.Inside.codeIn_eq (h : c.Inside s cls i) :
    s.codeIn i cls.right = s.codeIn i (c.left + 1) ++ s.codeIn (c.left + 1) c.right ++ s.codeIn c.right (c.bodyLeft + 1)
      ++ s.codeIn (c.bodyLeft + 1) c.bodyRight ++ s.codeIn c.bodyRight cls.right := by
  have horder := h.order
  rw [← codeIn_append s (show i ≤ c.left + 1 by omega) (show c.left + 1 ≤ c.right by omega),
    ← codeIn_append s (show i ≤ c.right by omega) (show c.right ≤ c.bodyLeft + 1 by omega),
    ← codeIn_append s (show i ≤ c.bodyLeft + 1 by omega) (show c.bodyLeft + 1 ≤ c.bodyRight by omega),
    ← codeIn_append s (show i ≤ c.bodyRight by omega) (show c.bodyRight ≤ cls.right by omega)]

section

variable (hcls : s.matchingClose? cls.left = some cls.right)

include hcls

theorem outlines_constructor {name : Nat} {m' : Outline} {parameters body : List Token}
    (hbrace : s.kind? cls.left = some .leftBrace) (hi : cls.left < i)
    (hfun : s.kind? i = some (.keyword .functionKw)) (hname : constructorName? s i = some name)
    (hread : readConstructor s cls.right i name = .ok c) (hnone : found.ctor = none)
    (hparams : Balanced (parameters.map Token.kind)) (hbody : Balanced (body.map Token.kind))
    (tail : Outlines ⟨found.properties, some (parameters, body)⟩ (s.codeIn (c.bodyRight + 1) cls.right) m') :
    Outlines (found.outline s) (s.codeIn i (c.left + 1) ++ parameters ++ s.codeIn c.right (c.bodyLeft + 1) ++ body
      ++ s.codeIn c.bodyRight cls.right) m' := by
  obtain ⟨code, hhead, hmid, htail⟩ := exists_code_of_read hcls hbrace hi hfun hname hread
  have htoks : s.codeIn i (c.left + 1) ++ parameters ++ s.codeIn c.right (c.bodyLeft + 1) ++ body
      ++ s.codeIn c.bodyRight cls.right
      = (code.replace hparams hbody).tokens ++ s.codeIn (c.bodyRight + 1) cls.right := by
    rw [hhead, hmid, htail]
    simp [ConstructorCode.tokens, ConstructorCode.replace]
  rw [htoks]
  exact .ctor (by rw [Members.outline, hnone]; rfl) (code.replace hparams hbody) tail

theorem outlines_of_membersFrom (hbrace : s.kind? cls.left = some .leftBrace) (hi : cls.left < i)
    (h : membersFrom s cls found i = .ok m) : Outlines (found.outline s) (s.codeIn i cls.right) (m.outline s) := by
  have hsize := (lt_close hcls).2
  fun_induction membersFrom s cls found i with
  | case1 found i hlt hk =>
    obtain ⟨t, ht⟩ := get?_of_lt (s := s) (i := i) (by omega)
    rw [TokenStream.kind?, ht] at hk
    cases hk
  | case2 found i hlt hk ih =>
    obtain ⟨t, ht, hkind⟩ := map_eq_some_iff.mp hk
    rw [codeIn_code ht (by rw [Token.isTrivia, hkind]; rfl) hlt]
    have htail := ih (by omega) h
    rw [variableText_of_get? ht] at htail
    exact .property hkind htail
  | case3 found i hlt k hk hvar hfun hname ih =>
    obtain ⟨t, ht, rfl⟩ := map_eq_some_iff.mp hk
    rw [Bool.and_eq_true, decide_eq_true_eq] at hfun
    rw [codeIn_code ht (by rw [Token.isTrivia, hfun.1]; rfl) hlt]
    exact .skip hvar (by rw [hfun.1]; rfl) (fun _ _ => not_namesConstructor hname cls.right) (ih (by omega) h)
  -- an outline is only drawn of a scan that succeeds
  | case4 found i hlt k hk hvar hfun name hname e he => cases h
  | case5 found i hlt k hk hvar hfun name hname c hc ih =>
    rw [Bool.and_eq_true, decide_eq_true_eq, isNone_iff_eq_none] at hfun
    have hin := constructor_inside hcls hi hname hc
    have horder := hin.order
    have htail := ih (by omega) h
    rw [hin.codeIn_eq]
    exact outlines_constructor hcls hbrace hi (hfun.1 ▸ hk) hname hc hfun.2
      (balanced_codeIn.mpr (balanced_inside hin.list))
      (balanced_codeIn.mpr (balanced_inside hin.body)) htail
  | case6 found i hlt k hk hvar hfun hopen hclose => cases h
  | case7 found i hlt k hk hvar hfun hopen close hclose ih =>
    obtain ⟨t, ht, rfl⟩ := map_eq_some_iff.mp hk
    have hic := (lt_close hclose).1
    obtain ⟨inner, c, hpair, hinner, hcode, -⟩ := codeIn_bracket ht hclose (close_lt_of_inside hcls hi hlt hclose)
    rw [hcode]
    exact .bracket hpair hinner (ih (by omega) h)
  | case8 found i hlt k hk hvar hfun hopen ih =>
    obtain ⟨t, ht, rfl⟩ := map_eq_some_iff.mp hk
    have htail := ih (by omega) h
    by_cases htriv : t.isTrivia
    · rwa [codeIn_trivia ht htriv hlt]
    · rw [codeIn_code ht (by simpa using htriv) hlt]
      refine .skip hvar (by simpa [Kind.isOpener] using hopen) (fun hkind hnone => absurd hfun ?_) htail
      rw [Members.outline, map_eq_none_iff] at hnone
      simp [hkind, hnone]
  | case9 found i hlt =>
    cases h
    rw [codeIn_eq_nil fun j hj => by have := (next_spec hj).1; omega]
    exact .done _

theorem membersFrom_inside (hi : cls.left < i) (h : membersFrom s cls found i = .ok m) (hnone : found.ctor = none)
    (hc : m.ctor = some c) : c.Inside s cls i := by
  rcases membersFrom_read h hc with hfound | ⟨j, name, hij, hname, hread⟩
  · rw [hnone] at hfound
    cases hfound
  · exact (constructor_inside hcls (by omega) hname hread).of_le hij

theorem membersFrom_of_ctor (hi : cls.left < i) (hc : found.ctor = some c) :
    ∃ m, membersFrom s cls found i = .ok m ∧ m.ctor = some c := by
  fun_induction membersFrom s cls found i with
  | case1 found i hlt hk => exact ⟨_, rfl, hc⟩
  | case2 found i hlt hk ih => exact ih (by omega) hc
  | case3 found i hlt k hk hvar hfun hname ih => exact ih (by omega) hc
  | case4 found i hlt k hk hvar hfun name hname e he =>
    rw [hc] at hfun
    simp at hfun
  | case5 found i hlt k hk hvar hfun name hname c' hc' ih =>
    rw [hc] at hfun
    simp at hfun
  | case6 found i hlt k hk hvar hfun hopen hclose =>
    obtain ⟨closer, hcloser⟩ := isSome_iff_exists.mp hopen
    obtain ⟨d, hd, -⟩ := close_inside hcls hi hlt (by rw [hk, bind_some, hcloser])
    cases hclose.symm.trans hd
  | case7 found i hlt k hk hvar hfun hopen close hclose ih =>
    have := lt_close hclose
    exact ih (by omega) hc
  | case8 found i hlt k hk hvar hfun hopen ih => exact ih (by omega) hc
  | case9 found i hlt => exact ⟨_, rfl, hc⟩

end

theorem NamesConstructor.congr {xs ys zs : List Token} (hxs : 2 ≤ xs.length) (h : NamesConstructor (xs ++ ys)) :
    NamesConstructor (xs ++ zs) := by
  obtain ⟨x, y, more, rfl⟩ : ∃ x y more, xs = x :: y :: more := by
    match xs, hxs with
    | x :: y :: more, _ => exact ⟨x, y, more, rfl⟩
  obtain ⟨name, rest, ⟨w, hword, rfl | ⟨a, hamp, rfl⟩⟩, heq⟩ := h
  · cases heq
    exact ⟨[x], y :: (more ++ zs), ⟨x, hword, .inl rfl⟩, rfl⟩
  · cases heq
    exact ⟨[x, y], more ++ zs, ⟨y, hword, .inr ⟨x, hamp, rfl⟩⟩, rfl⟩

theorem outlines_of_extension {parameters body : List Token}
    (hcls : s.matchingClose? cls.left = some cls.right) (hbrace : s.kind? cls.left = some .leftBrace) (hi : cls.left < i)
    (h : membersFrom s cls found i = .ok m) (hnone : found.ctor = none) (hc : m.ctor = some c)
    (hparams : Balanced (parameters.map Token.kind)) (hbody : Balanced (body.map Token.kind)) :
    Outlines (found.outline s) (s.codeIn i (c.left + 1) ++ parameters ++ s.codeIn c.right (c.bodyLeft + 1) ++ body
      ++ s.codeIn c.bodyRight cls.right) ⟨m.properties, some (parameters, body)⟩ := by
  have hsize := (lt_close hcls).2
  fun_induction membersFrom s cls found i with
  | case1 found i hlt hk =>
    cases h
    rw [hnone] at hc
    cases hc
  | case2 found i hlt hk ih =>
    obtain ⟨t, ht, hkind⟩ := map_eq_some_iff.mp hk
    have hleft := (membersFrom_inside hcls (by omega) h hnone hc).lt_left
    have htail := ih (by omega) h hnone
    rw [codeIn_code ht (by rw [Token.isTrivia, hkind]; rfl) (show i < c.left + 1 by omega)]
    rw [variableText_of_get? ht] at htail
    exact .property hkind htail
  | case3 found i hlt k hk hvar hfun hname ih =>
    obtain ⟨t, ht, rfl⟩ := map_eq_some_iff.mp hk
    rw [Bool.and_eq_true, decide_eq_true_eq] at hfun
    have hleft := (membersFrom_inside hcls (by omega) h hnone hc).lt_left
    rw [codeIn_code ht (by rw [Token.isTrivia, hfun.1]; rfl) (show i < c.left + 1 by omega)]
    simp only [cons_append]
    refine .skip hvar (by rw [hfun.1]; rfl) (fun _ _ hnames => ?_) (ih (by omega) h hnone)
    -- the name and its parenthesis stand in front of what was exchanged
    have hin := (membersFrom_inside hcls (by omega) h hnone hc).of_le i.le_succ
    refine not_namesConstructor hname cls.right ?_
    rw [codeIn_append s (show i + 1 ≤ c.left + 1 by omega) (show c.left + 1 ≤ cls.right by have := hin.order; omega)]
    simp only [append_assoc] at hnames
    exact hnames.congr hin.headed
  | case4 found i hlt k hk hvar hfun name hname e he => cases h
  | case5 found i hlt k hk hvar hfun name hname c' hc' ih =>
    rw [Bool.and_eq_true, decide_eq_true_eq] at hfun
    -- behind the constructor nothing was exchanged, and no other one is taken
    have hbehind : cls.left < c'.bodyRight + 1 := by
      have := (constructor_inside hcls hi hname hc').order
      omega
    have htail := outlines_of_membersFrom hcls hbrace hbehind h
    obtain ⟨m', hm', hc₁⟩ := @membersFrom_of_ctor s cls { found with ctor := some c' } _ c' hcls hbehind rfl
    cases h.symm.trans hm'
    cases hc.symm.trans hc₁
    exact outlines_constructor hcls hbrace hi (hfun.1 ▸ hk) hname hc' hnone hparams hbody
      (htail.settle (.inl (by simp [Members.outline])) (parameters, body))
  | case6 found i hlt k hk hvar hfun hopen hclose => cases h
  | case7 found i hlt k hk hvar hfun hopen close hclose ih =>
    obtain ⟨t, ht, rfl⟩ := map_eq_some_iff.mp hk
    have hic := (lt_close hclose).1
    have hleft := (membersFrom_inside hcls (by omega) h hnone hc).lt_left
    obtain ⟨inner, o, hpair, hinner, hcode, -⟩ := codeIn_bracket ht hclose (show close < c.left + 1 by omega)
    rw [hcode]
    simpa using Outlines.bracket hpair hinner (ih (by omega) h hnone)
  | case8 found i hlt k hk hvar hfun hopen ih =>
    obtain ⟨t, ht, rfl⟩ := map_eq_some_iff.mp hk
    have hleft := (membersFrom_inside hcls (by omega) h hnone hc).lt_left
    have htail := ih (by omega) h hnone
    by_cases htriv : t.isTrivia
    · rwa [codeIn_trivia ht htriv (show i < c.left + 1 by omega)]
    · rw [codeIn_code ht (by simpa using htriv) (show i < c.left + 1 by omega)]
      refine .skip hvar (by simpa [Kind.isOpener] using hopen) (fun hkind _ => absurd hfun ?_) htail
      simp [hkind, hnone]
  | case9 found i hlt =>
    cases h
    rw [hnone] at hc
    cases hc

theorem membersFrom_triviaIn (htrivia : s.TriviaIn i j) (hij : i ≤ j) (hj : j ≤ cls.right) :
    membersFrom s cls found i = membersFrom s cls found j := by
  obtain ⟨n, rfl⟩ := Nat.exists_eq_add_of_le hij
  induction n generalizing i with
  | zero => rfl
  | succ n ih =>
    obtain ⟨t, ht, htriv⟩ := htrivia i le_rfl (by omega)
    rw [membersFrom_trivia (by omega) ht htriv, show i + (n + 1) = i + 1 + n by omega]
    exact ih (fun k h₁ h₂ => htrivia k (by omega) (by omega)) (by omega) (by omega)

theorem membersFrom_next {t : Token} {ts : List Token} (h : s.codeIn i cls.right = t :: ts) :
    ∃ j, i ≤ j ∧ j < cls.right ∧ s.get? j = some t ∧ s.codeIn (j + 1) cls.right = ts
      ∧ membersFrom s cls found i = membersFrom s cls found j := by
  obtain ⟨j, hnext, ht, hlt, hrest⟩ := next_of_codeIn h
  obtain ⟨hle, -, htriv⟩ := next_spec hnext
  exact ⟨j, hle, hlt, ht, hrest, membersFrom_triviaIn htriv hle hlt.le⟩

theorem membersFrom_of_outlines (hcls : s.matchingClose? cls.left = some cls.right)
    (hbrace : s.kind? cls.left = some .leftBrace) {ts : List Token} {o o' : Outline} (h : Outlines o ts o') :
    ∀ {found : Members} {i : Nat}, cls.left < i → found.outline s = o → s.codeIn i cls.right = ts →
      ∃ m, membersFrom s cls found i = .ok m ∧ m.outline s = o' := by
  have hsize := (lt_close hcls).2
  obtain ⟨e, he, hekind⟩ := map_eq_some_iff.mp (kind?_of_close hcls hbrace rfl)
  -- along the outline: the scan passes the blanks in front of each entry and takes the same branch
  induction h with
  | done o =>
    rintro found i hi rfl hcode
    have hdone : membersFrom s cls found i = membersFrom s cls found (max i cls.right) := by
      by_cases hle : i ≤ cls.right
      · rw [Nat.max_eq_right hle]
        exact membersFrom_triviaIn (triviaIn_of_nil hsize.le hcode) hle le_rfl
      · rw [Nat.max_eq_left (by omega)]
    refine ⟨found, ?_, rfl⟩
    rw [hdone, membersFrom, if_neg (by omega)]
  | @property o o' t rest isVariable tail ih =>
    rintro found i hi rfl hcode
    obtain ⟨j, hij, hj, ht, hrest, hscan⟩ := @membersFrom_next s cls found i t rest hcode
    rw [hscan, membersFrom_kind? hj (kind?_get? ht), if_pos isVariable, variableText_of_get? ht]
    exact ih (by omega) rfl hrest
  | @skip o o' t rest noVariable noBracket noConstructor tail ih =>
    rintro found i hi rfl hcode
    obtain ⟨j, hij, hj, ht, hrest, hscan⟩ := @membersFrom_next s cls found i t rest hcode
    have htail := ih (show cls.left < j + 1 by omega) rfl hrest
    rw [hscan, membersFrom_kind? hj (kind?_get? ht), if_neg noVariable]
    split
    · rename_i hfun
      rw [Bool.and_eq_true, decide_eq_true_eq, isNone_iff_eq_none] at hfun
      cases hname : constructorName? s j with
      | none => exact htail
      | some name =>
        obtain ⟨name', hisName, -, hcode'⟩ := codeIn_constructorName he hekind hj hname
        exact absurd ⟨name', _, hisName, hrest ▸ hcode'⟩
          (noConstructor hfun.1 (by rw [Members.outline, hfun.2]; rfl))
    · rw [Kind.isOpener, noBracket, if_neg (by simp)]
      exact htail
  | @bracket o o' left right inner rest pair inside tail ih =>
    rintro found i hi rfl hcode
    obtain ⟨j, hij, hj, ht, hrest, hscan⟩ := @membersFrom_next s cls found i _ _ hcode
    obtain ⟨close, hclose, -, -, -, hbehind⟩ := close_of_codeIn ht pair inside hrest
    have hlt := (lt_close hclose).1
    have hopen : left.kind ≠ .variableName ∧ left.kind ≠ .keyword .functionKw ∧ left.kind.isOpener := by
      cases hk : left.kind <;> simp_all [Kind.isOpener, Kind.closer?]
    rw [hscan, membersFrom_kind? hj (kind?_get? ht), if_neg hopen.1, decide_eq_false hopen.2.1, Bool.false_and,
      if_neg Bool.false_ne_true, if_pos hopen.2.2, hclose]
    exact ih (by omega) rfl hbehind
  | @ctor o o' rest free c tail ih =>
    rintro found i hi rfl hcode
    obtain ⟨j, hij, hj, ht, hrest, hscan⟩ := @membersFrom_next s cls found i _ _ hcode
    have hnone : found.ctor = none := by
      rwa [Members.outline, map_eq_none_iff] at free
    obtain ⟨name, c', hname, hread, hparams, hbody, hbehind⟩ := @readConstructor_of_codeIn s cls.right j c rest (by
      simpa using hrest)
    have horder := (constructor_inside hcls (show cls.left < j by omega) hname hread).order
    obtain ⟨m, hm, houtline⟩ := @ih { found with ctor := some c' } (c'.bodyRight + 1) (by omega)
      (by rw [Members.outline, map_some, hparams, hbody]; rfl) hbehind
    refine ⟨m, ?_, houtline⟩
    rw [hscan, membersFrom_kind? hj (kind?_get? ht), c.isFunction, if_neg (by decide), hnone]
    simp only [isNone_none, decide_true, Bool.and_self, if_true, hname, hread]
    exact hm

end

end MageUplift.Wiring
