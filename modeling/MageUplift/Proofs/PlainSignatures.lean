import MageUplift.Proofs.StaticContexts

/-!
# Signatures that edits leave alone

Whether a call stands in a static function is seen from tokens far away from it: the modifiers, the word `function`,
the parameter list, the brace of the body. Both batches of edits leave these tokens where they are, as long as the
signature is one: outside of its parentheses it has neither double colons nor separators nor brackets. Then no call
begins in it and nothing is injected into it.

The condition is not empty. Behind `function` the scan looks for the first parenthesis, whatever stands in between;
in `static function Mage::app()->getStore` that parenthesis belongs to a call, and goes away with it.
-/

namespace MageUplift

open Php TokenStream Call Wiring Magento List Option

variable {k : Kind} {close a j : Nat} {s : TokenStream}

/-! ## §1. Plain signatures. -/

/-- What a signature holds outside of its parentheses: nothing that opens, closes, separates or selects. -/
def Php.Kind.isSignaturePart (k : Kind) : Bool :=
  k.isPlain && !([.doubleColon, .comma, .semicolon] : List Kind).contains k

theorem Php.Kind.isSignaturePart_iff :
    k.isSignaturePart ↔ k.isPlain ∧ k ≠ .doubleColon ∧ k ≠ .comma ∧ k ≠ .semicolon := by
  simp [isSignaturePart]

def AllBetween (s : TokenStream) (p : Kind → Bool) (a b : Nat) : Prop :=
  ∀ m k, a < m → m < b → s.kind? m = some k → p k = true

/-- Behind the parenthesis at `a` the signature goes on plainly, up to the brace at `left`. -/
inductive PlainTo (s : TokenStream) : Nat → Nat → Prop where
  | brace {a left : Nat} (lt : a < left) (parts : AllBetween s Kind.isSignaturePart a left)
      (here : s.kind? left = some .leftBrace) : PlainTo s a left
  | parens {a paren close left : Nat} (lt : a < paren) (parts : AllBetween s Kind.isSignaturePart a paren)
      (here : s.kind? paren = some .leftParen) (closes : s.matchingClose? paren = some close)
      (rest : PlainTo s close left) : PlainTo s a left

def Php.Kind.isModifierOrTrivia (k : Kind) : Bool := k.isTrivia || k.isModifier

/-- A static function with a plain signature: the places of its `static`, its `function`, the parentheses of its
parameters and the braces of its body. -/
structure PlainStatic (s : TokenStream) (first word paren close left right : Nat) : Prop where
  isStatic : s.kind? first = some (.keyword .staticKw)
  first_lt : first < word
  modifiers : AllBetween s Kind.isModifierOrTrivia first word
  isFunction : s.kind? word = some (.keyword .functionKw)
  word_lt : word < paren
  name : AllBetween s Kind.isSignaturePart word paren
  isParen : s.kind? paren = some .leftParen
  closesList : s.matchingClose? paren = some close
  rest : PlainTo s close left
  closes : s.matchingClose? left = some right

section

variable {s : TokenStream} {a b i left right : Nat}

theorem PlainTo.kind_left (h : PlainTo s a left) : s.kind? left = some .leftBrace := by
  induction h with
  | brace _ _ here => exact here
  | parens _ _ _ _ _ ih => exact ih

theorem Php.Kind.not_end_of_part (h : k.isSignaturePart) : k ∉ .leftParen :: functionEnds := by
  obtain ⟨hplain, -, -, hsemi⟩ := Kind.isSignaturePart_iff.mp h
  intro hmem
  simp only [functionEnds, mem_cons, not_mem_nil, or_false] at hmem
  rcases hmem with rfl | rfl | rfl
  · cases hplain
  · cases hplain
  · exact hsemi rfl

theorem signatureRun_of_parts {stop : Nat} (hb : s.kind? b = some k)
    (hparts : AllBetween s Kind.isSignaturePart a b) (hrest : SignatureRun s functionEnds b stop) (hai : a < i)
    (hib : i ≤ b) : SignatureRun s functionEnds i stop := by
  induction hn : b - i generalizing i with
  | zero =>
    obtain rfl : i = b := by omega
    exact hrest
  | succ n ih =>
    have hsize := lt_kind? hb
    obtain ⟨t, ht⟩ := get?_of_lt (s := s) (i := i) (by omega)
    have hk := kind?_get? ht
    exact .token hk (Kind.not_end_of_part (hparts i _ hai (by omega) hk)) (ih (by omega) (by omega) (by omega))

theorem PlainTo.signatureRun (h : PlainTo s a left) : SignatureRun s functionEnds (a + 1) left := by
  induction h with
  | brace lt parts here => exact signatureRun_of_parts here parts (.nil _) (Nat.lt_succ_self _) lt
  | parens lt parts here closes _ ih =>
    exact signatureRun_of_parts here parts (.parens here closes ih) (Nat.lt_succ_self _) lt

theorem PlainStatic.staticFunction {first word paren : Nat}
    (h : PlainStatic s first word paren close left right) : StaticFunction s word left right where
  isFunction := h.isFunction
  signature := by
    refine ⟨paren, close, h.word_lt.le, h.isParen, ?_, h.closesList, h.rest.signatureRun⟩
    intro m hm hlt hk
    rcases Nat.eq_or_lt_of_le hm with rfl | hm
    · rw [h.isFunction] at hk
      cases hk
    · exact Kind.not_end_of_part (h.name m _ hm hlt hk) mem_cons_self
  brace := h.rest.kind_left
  closes := h.closes
  isStatic := by
    refine ⟨first, h.first_lt, h.isStatic, fun m hm hlt => ?_⟩
    have hsize := lt_kind? h.isFunction
    obtain ⟨t, ht⟩ := get?_of_lt (s := s) (i := m) (by omega)
    have hk := kind?_get? ht
    exact ⟨t.kind, hk, Bool.or_eq_true_iff.mp (h.modifiers m _ hm hlt hk)⟩

/-- The token at `i` stands between the braces of a static function with a plain signature. -/
def InPlainStatic (s : TokenStream) (i : Nat) : Prop :=
  ∃ first word paren close left right, PlainStatic s first word paren close left right ∧ left < i ∧ i < right

theorem InPlainStatic.inStaticFunction (h : InPlainStatic s i) : InStaticFunction s i := by
  obtain ⟨first, word, paren, close, left, right, hplain, hleft, hright⟩ := h
  exact ⟨word, left, right, hplain.staticFunction, hleft, hright⟩

end

/-! ## §2. A check for plain signatures. -/

/-- The signature goes on plainly from `i` up to its end. Parentheses are passed as a whole; the first of them are
those of the parameters, and `listed` says that they were passed. -/
def isPlainFrom (s : TokenStream) (listed : Bool) (i : Nat) : Bool :=
  if h : i < s.tokens.size then
    match s.tokens[i].kind with
    | .leftBrace | .semicolon => listed
    | .leftParen =>
      match _hm : s.matchingClose? i with
      | none => true
      | some close => isPlainFrom s true (close + 1)
    | k => k.isSignaturePart && isPlainFrom s listed (i + 1)
  else true
termination_by s.tokens.size - i
decreasing_by
  · have := TokenStream.lt_close _hm
    omega
  · omega

/-- All static functions of a file have plain signatures. -/
def hasPlainStatics (s : TokenStream) : Bool :=
  (List.range s.size).all fun i =>
    !(s.hasKind i (.keyword .functionKw) && isStaticBefore s i) || isPlainFrom s false (i + 1)

section

variable {s : TokenStream} {listed : Bool} {i : Nat}

theorem isPlainFrom_paren (hk : s.kind? i = some .leftParen) (hclose : s.matchingClose? i = some close) :
    isPlainFrom s listed i = isPlainFrom s true (close + 1) := by
  have hi : i < s.tokens.size := lt_kind? hk
  rw [kind?_eq_getElem hi, some.injEq] at hk
  rw [isPlainFrom, dif_pos hi, hk]
  show (match _hm : s.matchingClose? i with
    | none => true
    | some close => isPlainFrom s true (close + 1)) = _
  split
  · rename_i hnone
    rw [hclose] at hnone
    cases hnone
  · rename_i d hd
    rw [hclose, some.injEq] at hd
    rw [hd]

theorem isPlainFrom_token (hk : s.kind? i = some k) (hparen : k ≠ .leftParen) (h : isPlainFrom s listed i) :
    ((k = .leftBrace ∨ k = .semicolon) ∧ listed)
      ∨ (k.isSignaturePart ∧ isPlainFrom s listed (i + 1)) := by
  have hi : i < s.tokens.size := lt_kind? hk
  rw [kind?_eq_getElem hi, some.injEq] at hk
  rw [isPlainFrom, dif_pos hi, hk] at h
  split at h
  · exact .inl ⟨.inl rfl, h⟩
  · exact .inl ⟨.inr rfl, h⟩
  · exact absurd rfl hparen
  · exact .inr (Bool.and_eq_true_iff.mp h)

theorem AllBetween.succ {p : Kind → Bool} {a : Nat} {k : Kind} (h : AllBetween s p a i) (hk : s.kind? i = some k)
    (hp : p k) : AllBetween s p a (i + 1) := by
  intro m k' hm hlt hk'
  rcases Nat.lt_succ_iff_lt_or_eq.mp hlt with hlt | rfl
  · exact h m k' hm hlt hk'
  · rw [hk, some.injEq] at hk'
    rwa [← hk']

theorem plainTo_of_isPlainFrom {left : Nat} (hrun : SignatureRun s functionEnds i left)
    (hbrace : s.kind? left = some .leftBrace) : ∀ {a : Nat}, a < i → AllBetween s Kind.isSignaturePart a i →
      isPlainFrom s true i → PlainTo s a left := by
  induction hrun with
  | nil i => exact fun hai hparts _ => .brace hai hparts hbrace
  | @token i stop k hk hnot _ ih =>
    intro a hai hparts hplain
    rcases isPlainFrom_token hk (fun h => hnot (h ▸ mem_cons_self)) hplain with ⟨hend, -⟩ | ⟨hpart, hrest⟩
    · exact absurd (mem_cons_of_mem _ (by rcases hend with rfl | rfl <;> decide)) hnot
    · exact ih hbrace (by omega) (hparts.succ hk hpart) hrest
  | parens hk hclose _ ih =>
    intro a hai hparts hplain
    rw [isPlainFrom_paren hk hclose] at hplain
    refine .parens hai hparts hk hclose (ih hbrace (Nat.lt_succ_self _) (fun m k h₁ h₂ => by omega) hplain)

theorem parts_of_isPlainFrom {paren : Nat} (hparen : s.kind? paren = some .leftParen)
    (hclose : s.matchingClose? paren = some close) (hfst : ∀ m, a < m → m < paren → s.kind? m ≠ some .leftParen)
    (hai : a < i) (hip : i ≤ paren) (hparts : AllBetween s Kind.isSignaturePart a i) (h : isPlainFrom s false i) :
    AllBetween s Kind.isSignaturePart a paren ∧ isPlainFrom s true (close + 1) := by
  induction hn : paren - i generalizing i with
  | zero =>
    obtain rfl : i = paren := by omega
    rw [isPlainFrom_paren hparen hclose] at h
    exact ⟨hparts, h⟩
  | succ n ih =>
    have hsize := lt_kind? hparen
    obtain ⟨t, ht⟩ := get?_of_lt (s := s) (i := i) (by omega)
    have hk := kind?_get? ht
    rcases isPlainFrom_token hk (fun heq => hfst i hai (by omega) (heq ▸ hk)) h with ⟨-, hlisted⟩ | ⟨hpart, hrest⟩
    · cases hlisted
    · exact ih (by omega) (by omega) (hparts.succ hk hpart) hrest (by omega)

/-- **The check is right**: in a file that passes, what stands in a static function stands in one with a plain
signature. -/
theorem inPlainStatic_of_inStatic (h : hasPlainStatics s) (hi : InStaticFunction s i) : InPlainStatic s i := by
  obtain ⟨f, left, right, hstatic, hleft, hright⟩ := hi
  obtain ⟨first, hfst, hkind, hmodifiers⟩ := hstatic.isStatic
  obtain ⟨paren, close, hle, hparen, hnone, hclose, hrun⟩ := hstatic.signature
  have hsize := lt_kind? hstatic.isFunction
  have hcheck : isPlainFrom s false (f + 1) := by
    have := List.all_eq_true.mp h f (mem_range.mpr hsize)
    rw [Bool.or_eq_true, Bool.not_eq_true', Bool.and_eq_false_iff] at this
    rcases this with (hnot | hnot) | hplain
    · rw [hasKind, hstatic.isFunction, beq_self_eq_true] at hnot
      cases hnot
    · rw [(isStaticBefore_iff hsize.le).mpr hstatic.isStatic] at hnot
      cases hnot
    · exact hplain
  have hlt : f < paren := by
    refine Nat.lt_of_le_of_ne hle fun heq => ?_
    rw [← heq, hstatic.isFunction] at hparen
    cases hparen
  obtain ⟨hname, hrest⟩ := parts_of_isPlainFrom hparen hclose (fun m h₁ h₂ => hnone m h₁.le h₂)
    f.lt_succ_self hlt (fun m k h₁ h₂ => by omega) hcheck
  refine ⟨first, f, paren, close, left, right, ?_, hleft, hright⟩
  exact {
    isStatic := hkind
    first_lt := hfst
    modifiers := fun m k h₁ h₂ hk => by
      obtain ⟨k', hk', hor⟩ := hmodifiers m h₁ h₂
      rw [hk, some.injEq] at hk'
      exact Bool.or_eq_true_iff.mpr (hk' ▸ hor)
    isFunction := hstatic.isFunction
    word_lt := hlt
    name := hname
    isParen := hparen
    closesList := hclose
    rest := plainTo_of_isPlainFrom hrun hstatic.brace close.lt_succ_self (fun m k h₁ h₂ => by omega) hrest
    closes := hstatic.closes }

end

/-! ## §3. Batches that leave signatures alone. -/

def gapStarts : List Kind := [.keyword .staticKw, .keyword .functionKw, .rightParen]

def gapEnds : List Kind := [.keyword .functionKw, .leftParen, .leftBrace]

theorem gapEnds_spec (h : k ∈ gapEnds) : k.isTrivia = false ∧ k.isName = false ∧ k.isCloser = false
    ∧ k ≠ .doubleColon ∧ k ≠ .comma := by
  revert k
  decide

theorem behind_gap {b n colons : Nat} {kb : Kind} {t : Token} (hkb : s.kind? b = some kb) (hend : kb ∈ gapEnds)
    (hparts : AllBetween s Kind.isSignaturePart a b) (ht : s.get? n = some t) (hname : t.kind.isName)
    (hcolons : s.followedBy? n .doubleColon = some colons) (ha : a < n) : b < n := by
  obtain ⟨htriv, hnot, -, hne, -⟩ := gapEnds_spec hend
  obtain ⟨u, hu, rfl⟩ := map_eq_some_iff.mp hkb
  obtain ⟨hnext, hkind⟩ := followedBy?_iff.mp hcolons
  have hlt := lt_of_followedBy? hcolons
  refine Nat.lt_of_not_le fun hle => ?_
  have hnb : n ≠ b := by
    rintro rfl
    rw [ht, some.injEq] at hu
    rw [← hu, hname] at hnot
    cases hnot
  obtain ⟨m, hm, hmb⟩ := exists_next (s := s) (show n + 1 ≤ b by omega) hu htriv
  rw [hnext, some.injEq] at hm
  subst hm
  have hcb : colons ≠ b := by
    rintro rfl
    rw [kind?_get? hu, some.injEq] at hkind
    exact hne hkind
  exact (Kind.isSignaturePart_iff.mp (hparts colons _ (by omega) (by omega) hkind)).2.1 rfl

/-- The batch keeps every `static`, lets kept brackets close where they did, and does nothing to the parts of a
signature that stand behind a kept token. -/
structure SpareSignatures (v : TokenStream) (edits : List (Edit Token)) : Prop where
  keepsStatic : ∀ {i}, v.kind? i = some (.keyword .staticKw) → ∃ j, v.Kept edits i j
  closes : ∀ {i j c}, v.Kept edits i j → v.matchingClose? i = some c →
    ∃ d, v.Kept edits c d ∧ (v.woven edits).matchingClose? j = some d
  gap : ∀ {a b j ka kb}, v.Kept edits a j → v.kind? a = some ka → ka ∈ gapStarts → v.kind? b = some kb →
    kb ∈ gapEnds → AllBetween v Kind.isSignaturePart a b → ∀ m, a < m → m ≤ b →
      Edit.generatedAt edits m = [] ∧ Edit.covers edits m = false

theorem Php.Kind.isSignaturePart_of_modifier (h : k.isModifierOrTrivia) : k.isSignaturePart := by
  cases k <;> first | rfl | cases h

theorem Php.TokenStream.Kept.kind? {v : TokenStream} {edits : List (Edit Token)} {i : Nat} (h : v.Kept edits i j) :
    (v.woven edits).kind? j = v.kind? i := by
  rw [TokenStream.kind?, h.get?]
  rfl

namespace SpareSignatures

variable {v : TokenStream} {edits : List (Edit Token)}

theorem pass (h : SpareSignatures v edits) {b : Nat} {ka kb : Kind} {p : Kind → Bool} (ha : v.Kept edits a j)
    (hka : v.kind? a = some ka) (hstart : ka ∈ gapStarts) (hkb : v.kind? b = some kb) (hend : kb ∈ gapEnds)
    (hab : a < b) (hparts : AllBetween v Kind.isSignaturePart a b) (hp : AllBetween v p a b) :
    ∃ j', v.Kept edits b j' ∧ j < j' ∧ AllBetween (v.woven edits) p j j' := by
  have hgap := h.gap ha hka hstart hkb hend hparts
  have hb : v.Kept edits b (Edit.placeOf v.tokens.toList edits b) :=
    ⟨lt_kind? hkb, (hgap b hab le_rfl).2, rfl⟩
  refine ⟨_, hb, (Edit.KeptAt.lt_iff ha hb).mp hab, fun m k hjm hmj hk => ?_⟩
  obtain ⟨t, ht, -⟩ := map_eq_some_iff.mp hk
  obtain ⟨i, hi, hai, hib⟩ := ha.between hb (fun q h₁ h₂ => (hgap q h₁ h₂).1) hjm hmj ht
  exact hp i k hai hib (by rw [← hi.kind?, hk])

theorem plainTo (h : SpareSignatures v edits) {left : Nat} (hplain : PlainTo v a left) :
    ∀ {j : Nat}, v.Kept edits a j → v.kind? a = some .rightParen →
      ∃ left', v.Kept edits left left' ∧ PlainTo (v.woven edits) j left' := by
  induction hplain with
  | brace lt parts here =>
    intro j ha hk
    obtain ⟨left', hleft, hlt, hparts⟩ := h.pass ha hk (by decide) here (by decide) lt parts parts
    exact ⟨left', hleft, .brace hlt hparts (hleft.kind?.trans here)⟩
  | @parens a paren close left lt parts here closes _ ih =>
    intro j ha hk
    obtain ⟨paren', hparen, hlt, hparts⟩ := h.pass ha hk (by decide) here (by decide) lt parts parts
    obtain ⟨close', hclose, hcloses⟩ := h.closes hparen closes
    obtain ⟨k, hopen, hkind⟩ := opener_close closes
    rw [here] at hopen
    cases hopen
    obtain ⟨left', hleft, hrest⟩ := ih hclose hkind
    exact ⟨left', hleft, .parens hlt hparts (hparen.kind?.trans here) hcloses hrest⟩

/-- **What stands in a static function with a plain signature still does.** The places of the function are followed
from its `static` to its closing brace, each kept because of the one before. -/
theorem inPlainStatic (h : SpareSignatures v edits) {i : Nat} (hi : v.Kept edits i j) (hstatic : InPlainStatic v i) :
    InPlainStatic (v.woven edits) j := by
  obtain ⟨first, word, paren, close, left, right, hplain, hleft, hright⟩ := hstatic
  obtain ⟨first', hfst⟩ := h.keepsStatic hplain.isStatic
  obtain ⟨word', hword, hfirstLt, hmodifiers⟩ := h.pass hfst hplain.isStatic (by decide) hplain.isFunction (by decide)
    hplain.first_lt (fun m k h₁ h₂ hk => Kind.isSignaturePart_of_modifier (hplain.modifiers m k h₁ h₂ hk))
    hplain.modifiers
  obtain ⟨paren', hparen, hwordLt, hname⟩ := h.pass hword hplain.isFunction (by decide) hplain.isParen (by decide)
    hplain.word_lt hplain.name hplain.name
  obtain ⟨close', hclose, hlist⟩ := h.closes hparen hplain.closesList
  obtain ⟨k, hopen, hkind⟩ := opener_close hplain.closesList
  rw [hplain.isParen] at hopen
  cases hopen
  obtain ⟨left', hleft', hrest⟩ := h.plainTo hplain.rest hclose hkind
  obtain ⟨right', hright', hcloses⟩ := h.closes hleft' hplain.closes
  refine ⟨first', word', paren', close', left', right', ?_, (Edit.KeptAt.lt_iff hleft' hi).mp hleft,
    (Edit.KeptAt.lt_iff hi hright').mp hright⟩
  exact {
    isStatic := hfst.kind?.trans hplain.isStatic
    first_lt := hfirstLt
    modifiers := hmodifiers
    isFunction := hword.kind?.trans hplain.isFunction
    word_lt := hwordLt
    name := hname
    isParen := hparen.kind?.trans hplain.isParen
    closesList := hlist
    rest := hrest
    closes := hcloses }

end SpareSignatures

/-! ## §4. Converted calls. -/

section

variable {table : AliasTable} {s : TokenStream}

theorem outsideHeads_of_kind {p : Nat} (hk : s.kind? p = some k) (htriv : k.isTrivia = false)
    (hname : k.isName = false) (hpath : ∀ path ∈ headPaths, k ∉ path) : OutsideHeads table s p := by
  intro inv hinv
  by_contra hin
  have hcall := isCall_mem hinv
  rcases Nat.lt_or_ge inv.span.start p with hlt | hge
  · obtain ⟨path, last, hmem, hfollows, hend⟩ := hcall.anatomy.head_path
    rcases hfollows.kind_mem hlt (by omega) hk with h | h
    · rw [htriv] at h
      cases h
    · exact hpath path hmem h
  · -- the head starts here, with a name
    obtain ⟨t, ht, hmage⟩ := hcall.isMage
    obtain rfl : inv.span.start = p := by omega
    rw [kind?_get? ht, some.injEq] at hk
    rcases isMage_kind hmage with h | h <;> rw [← hk, h] at hname <;> cases hname

theorem followedBy?_of_mem_scan {inv : Invocation} (h : inv ∈ scan table s) :
    ∃ colons, s.followedBy? inv.span.start .doubleColon = some colons := by
  obtain ⟨left, hfollows⟩ := matchAt?_parenthesis (isCall_mem h)
  cases hfollows with
  | cons first _ => exact ⟨_, first⟩

theorem callEdits_spareSignatures (htab : table.WellFormed) : SpareSignatures s (callEdits table s) where
  keepsStatic := by
    intro i hk
    have hout : OutsideHeads table s i := outsideHeads_of_kind hk rfl rfl (by decide)
    refine ⟨_, kept_of_covers (lt_kind? hk) (not_edited hk hout (by decide) ?_).2⟩
    intro inv _ left _ hclose
    cases isCloser_of_close hclose hk
  closes := close_convert htab
  gap := by
    intro a b j ka kb ha hka hstart hkb hend hparts m ham hmb
    obtain ⟨-, -, hclose, -, hcomma⟩ := gapEnds_spec hend
    have hsize := lt_kind? hkb
    obtain ⟨t, ht⟩ := get?_of_lt (s := s) (i := m) (by omega)
    have hk := kind?_get? ht
    have hout : OutsideHeads table s m := by
      intro inv hinv
      rcases outside_of_kept ha inv hinv with hlt | hle
      · obtain ⟨u, hu, hmage⟩ := (isCall_mem hinv).isMage
        obtain ⟨colons, hcolons⟩ := followedBy?_of_mem_scan hinv
        have hname : u.kind.isName := by
          rcases isMage_kind hmage with h | h <;> rw [h] <;> rfl
        exact .inl (hmb.trans_lt (behind_gap hkb hend hparts hu hname hcolons hlt))
      · exact .inr (by omega)
    have hplain : t.kind ≠ .comma ∧ t.kind.isCloser = false := by
      rcases Nat.lt_or_eq_of_le hmb with hlt | rfl
      · obtain ⟨hplain, -, hne, -⟩ := Kind.isSignaturePart_iff.mp (hparts m _ ham hlt hk)
        exact ⟨hne, (Kind.isPlain_iff.mp hplain).2⟩
      · rw [hk, some.injEq] at hkb
        rw [hkb]
        exact ⟨hcomma, hclose⟩
    refine not_edited hk hout hplain.1 fun inv _ left _ hcloses => ?_
    rw [isCloser_of_close hcloses hk] at hplain
    cases hplain.2

end

/-! ## §5. Insertions. -/

theorem IsInjection.spareSignatures {indent : String} {r : Requirements} {inserts : List (Edit Token)}
    (h : IsInjection s indent r inserts) : SpareSignatures s inserts where
  keepsStatic := fun hk => ⟨_, h.kept (lt_kind? hk)⟩
  closes := by
    intro i j c hi hclose
    refine ⟨_, h.kept (lt_close hclose).2, ?_⟩
    rw [hi.matchingClose? h.passable h.nothing_at_end trivial, hclose]
    rfl
  gap := by
    intro a b j ka kb ha hka hstart hkb hend hparts m ham hmb
    refine ⟨?_, h.covers_eq_false m⟩
    by_contra hne
    obtain ⟨code, -, htoks⟩ := h.code_at hne
    obtain ⟨htriv, -, hclose, -⟩ := gapEnds_spec hend
    have hstarts : ∀ k ∈ gapStarts, k.isTrivia = false ∧ k ≠ .comma ∧ k ≠ .leftBrace ∧ k ≠ .leftParen := by decide
    obtain ⟨hatrivia, hacomma, habrace, haparen⟩ := hstarts ka hstart
    have hsize := lt_kind? hkb
    obtain ⟨t, ht, rfl⟩ := map_eq_some_iff.mp hka
    obtain ⟨u, hu, hku⟩ := map_eq_some_iff.mp hkb
    subst hku
    -- the significant tokens around the place belong to the gap
    obtain ⟨p, hprev, hap⟩ := exists_prev (s := s) ham (by omega) ht hatrivia
    obtain ⟨n, hnext, hnb⟩ := exists_next (s := s) hmb hu htriv
    have hpm := lt_of_prev hprev
    have hmn := (next_spec hnext).1
    have hbef : ∀ {k}, s.kind? p = some k → k ≠ .comma ∧ k ≠ .leftBrace ∧ k ≠ .leftParen := by
      intro k hk
      rcases Nat.eq_or_lt_of_le hap with rfl | hlt
      · rw [kind?_get? ht, some.injEq] at hk
        exact hk ▸ ⟨hacomma, habrace, haparen⟩
      · obtain ⟨hplain, -, hcomma, -⟩ := Kind.isSignaturePart_iff.mp (hparts p k hlt (by omega) hk)
        refine ⟨hcomma, ?_, ?_⟩ <;> rintro rfl <;> cases hplain
    have hbehind : ∀ {k}, s.kind? n = some k → k.isCloser = false := by
      intro k hk
      rcases Nat.lt_or_eq_of_le hnb with hlt | rfl
      · exact (Kind.isPlain_iff.mp (Kind.isSignaturePart_iff.mp (hparts n k (by omega) hlt hk)).1).2
      · rw [kind?_get? hu, some.injEq] at hk
        exact hk ▸ hclose
    rcases htoks.place.around (by omega) hprev hnext with hmark | ⟨right, hlist⟩ | ⟨left, hlist⟩ | ⟨w, hw, hmark⟩
    · rcases hmark with hmark | hmark
      · exact (hbef hmark).1 rfl
      · exact (hbef hmark).2.1 rfl
    · exact (hbef hlist.kind_left).2.2 rfl
    · cases hbehind hlist.kind_right
    · rcases hmark with hbrace | ⟨hword, hfollowed⟩
      · cases hbehind (k := .rightBrace) (by rw [kind?_get? hw, hbrace])
      · obtain ⟨colons, hcolons⟩ := isSome_iff_exists.mp hfollowed
        have := behind_gap hkb hend hparts hw (Bool.and_eq_true_iff.mp hword).1 hcolons (by omega)
        omega

end MageUplift
