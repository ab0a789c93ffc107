import MageUplift.Php.TokenStream

/-!
# Bracket words

`closeFrom?` and `balancedFrom` both run a stack of expected closers along the tokens. Here that stack is
a function of its own, `expectedAfter`, and the two are read off it: a stream is balanced when nothing is
expected at its end, and the closer of a bracket is the first token of its kind behind a balanced word.
-/

namespace MageUplift.Php

open List Option

variable {s : TokenStream} {i a b : Nat} {k c : Kind} {ks expected after below mid : List Kind}

/-! ## §1. The stack of expected closers. -/

/-- The closers that are expected after reading `kinds`, innermost first; `none` if a closer came that was
not expected. -/
def expectedAfter (expected : List Kind) : List Kind → Option (List Kind)
  | [] => some expected
  | k :: ks =>
    match k.closer? with
    | some closer => expectedAfter (closer :: expected) ks
    | none =>
      if k.isCloser then
        match expected with
        | [] => none
        | top :: rest => if top = k then expectedAfter rest ks else none
      else expectedAfter expected ks

def Kind.isPlain (k : Kind) : Bool := k.closer?.isNone && !k.isCloser

theorem Kind.isPlain_iff : k.isPlain ↔ k.closer? = none ∧ k.isCloser = false := by
  simp [isPlain]

theorem Kind.isCloser_closer? (h : k.closer? = some c) : c.isCloser := by
  cases k <;> simp [closer?] at h <;> subst h <;> rfl

theorem Kind.closer?_of_closer? (h : k.closer? = some c) : c.closer? = none :=
  closer?_of_isCloser (isCloser_closer? h)

theorem Kind.isPlain_trivia (h : k.isTrivia) : k.isPlain := by
  cases k <;> simp_all [isTrivia, isPlain, closer?, isCloser]

theorem Kind.bracket_or_plain (k : Kind) :
    (∃ c, k.closer? = some c) ∨ (k.closer? = none ∧ k.isCloser) ∨ k.isPlain := by
  cases hk : k.closer? with
  | some c => exact .inl ⟨c, rfl⟩
  | none =>
    cases hc : k.isCloser with
    | true => exact .inr (.inl ⟨rfl, rfl⟩)
    | false => exact .inr (.inr (isPlain_iff.mpr ⟨hk, hc⟩))

@[simp] theorem expected_nil (expected : List Kind) : expectedAfter expected [] = some expected := rfl

theorem expected_cons (expected : List Kind) (k : Kind) (ks : List Kind) :
    expectedAfter expected (k :: ks)
      = match k.closer? with
        | some closer => expectedAfter (closer :: expected) ks
        | none =>
          if k.isCloser then
            match expected with
            | [] => none
            | top :: rest => if top = k then expectedAfter rest ks else none
          else expectedAfter expected ks := rfl

theorem expected_opener (h : k.closer? = some c) (expected ks : List Kind) :
    expectedAfter expected (k :: ks) = expectedAfter (c :: expected) ks := by
  simp [expected_cons, h]

theorem expected_closer_nil (h : k.isCloser) (ks : List Kind) : expectedAfter [] (k :: ks) = none := by
  simp [expected_cons, Kind.closer?_of_isCloser h, h]

theorem expected_closer (h : k.isCloser) (top : Kind) (rest ks : List Kind) :
    expectedAfter (top :: rest) (k :: ks) = if top = k then expectedAfter rest ks else none := by
  simp [expected_cons, Kind.closer?_of_isCloser h, h]

theorem expected_plain (h : k.isPlain) (expected ks : List Kind) :
    expectedAfter expected (k :: ks) = expectedAfter expected ks := by
  obtain ⟨h₁, h₂⟩ := Kind.isPlain_iff.mp h
  simp [expected_cons, h₁, h₂]

theorem expected_closer_iff (h : k.isCloser) :
    expectedAfter expected (k :: ks) = some after ↔ ∃ rest, expected = k :: rest
      ∧ expectedAfter rest ks = some after := by
  cases expected with
  | nil => simp [expected_closer_nil h]
  | cons top rest => simp [expected_closer h, and_assoc]

/-- What a token does to the stack: it puts its closer on top, takes the closer from the top that it is, or does
nothing. -/
inductive ExpectedStep (k : Kind) : List Kind → List Kind → Prop where
  | opener {c : Kind} (h : k.closer? = some c) (expected : List Kind) : ExpectedStep k expected (c :: expected)
  | closer (h : k.isCloser = true) (rest : List Kind) : ExpectedStep k (k :: rest) rest
  | plain (h : k.isPlain = true) (expected : List Kind) : ExpectedStep k expected expected

theorem expected_cons_iff : expectedAfter expected (k :: ks) = some after ↔
    ∃ mid, ExpectedStep k expected mid ∧ expectedAfter mid ks = some after := by
  constructor
  · intro h
    rcases k.bracket_or_plain with ⟨c, hc⟩ | ⟨-, hc⟩ | hp
    · exact ⟨c :: expected, .opener hc expected, by rwa [expected_opener hc] at h⟩
    · obtain ⟨rest, rfl, hrest⟩ := (expected_closer_iff hc).mp h
      exact ⟨rest, .closer hc rest, hrest⟩
    · exact ⟨expected, .plain hp expected, by rwa [expected_plain hp] at h⟩
  · rintro ⟨mid, hstep, h⟩
    cases hstep with
    | opener hc => rwa [expected_opener hc]
    | closer hc => rwa [expected_closer hc, if_pos rfl]
    | plain hp => rwa [expected_plain hp]

theorem expected_singleton : expectedAfter expected [k] = some mid ↔ ExpectedStep k expected mid := by
  rw [expected_cons_iff]
  simp

theorem ExpectedStep.append (h : ExpectedStep k expected mid) (base : List Kind) :
    ExpectedStep k (expected ++ base) (mid ++ base) := by
  cases h with
  | opener hc => exact .opener hc _
  | closer hc => exact .closer hc _
  | plain hp => exact .plain hp _

theorem ExpectedStep.of_append {x : Kind} {above : List Kind} (h : ExpectedStep x (above ++ k :: below) mid) :
    (∃ mid', mid = mid' ++ k :: below ∧ ExpectedStep x above mid') ∨ (above = [] ∧ x = k ∧ mid = below) := by
  generalize hstack : above ++ k :: below = expected at h
  cases h with
  | @opener c hc => exact .inl ⟨c :: above, by rw [← hstack]; rfl, .opener hc above⟩
  | closer hc =>
    cases above with
    | nil =>
      obtain ⟨rfl, rfl⟩ := cons.inj hstack
      exact .inr ⟨rfl, rfl, rfl⟩
    | cons top above =>
      obtain ⟨rfl, rfl⟩ := cons.inj hstack
      exact .inl ⟨above, rfl, .closer hc above⟩
  | plain hp => exact .inl ⟨above, hstack.symm, .plain hp above⟩

theorem expected_append (ks ls : List Kind) : ∀ expected,
    expectedAfter expected (ks ++ ls) = (expectedAfter expected ks).bind (expectedAfter · ls) := by
  induction ks with
  | nil => exact fun expected => rfl
  | cons k ks ih =>
    intro expected
    rw [cons_append]
    rcases k.bracket_or_plain with ⟨c, hc⟩ | ⟨-, hc⟩ | hp
    · rw [expected_opener hc, expected_opener hc, ih]
    · cases expected with
      | nil => rw [expected_closer_nil hc, expected_closer_nil hc, bind_none]
      | cons top rest =>
        rw [expected_closer hc, expected_closer hc]
        split
        · exact ih rest
        · rfl
    · rw [expected_plain hp, expected_plain hp, ih]

theorem expected_significant (ks : List Kind) : ∀ expected,
    expectedAfter expected (ks.filter (!·.isTrivia)) = expectedAfter expected ks := by
  induction ks with
  | nil => exact fun _ => rfl
  | cons k ks ih =>
    intro expected
    by_cases htriv : k.isTrivia
    · rw [filter_cons_of_neg (by simp [htriv]), expected_plain (Kind.isPlain_trivia htriv)]
      exact ih expected
    · rw [filter_cons_of_pos (by simp [htriv])]
      rcases k.bracket_or_plain with ⟨c, hc⟩ | ⟨-, hc⟩ | hp
      · rw [expected_opener hc, expected_opener hc, ih]
      · cases expected with
        | nil => rw [expected_closer_nil hc, expected_closer_nil hc]
        | cons top rest => rw [expected_closer hc, expected_closer hc, ih]
      · rw [expected_plain hp, expected_plain hp, ih]

theorem expected_append_left (base ks : List Kind) : ∀ {expected after : List Kind},
    expectedAfter expected ks = some after →
      expectedAfter (expected ++ base) ks = some (after ++ base) := by
  induction ks with
  | nil =>
    intro expected after h
    rw [expected_nil, some.injEq] at h ⊢
    rw [h]
  | cons k ks ih =>
    intro expected after h
    obtain ⟨mid, hstep, h⟩ := expected_cons_iff.mp h
    exact expected_cons_iff.mpr ⟨mid ++ base, hstep.append base, ih h⟩

/-! ## §2. Balanced words. -/

/-- Every bracket of the word is closed in the word, and nothing else is. -/
def Balanced (ks : List Kind) : Prop := expectedAfter [] ks = some []

instance (ks : List Kind) : Decidable (Balanced ks) := inferInstanceAs (Decidable (_ = _))

theorem TokenStream.balancedFrom_iff (ks : List Kind) : ∀ expected,
    balancedFrom expected ks ↔ expectedAfter expected ks = some [] := by
  induction ks with
  | nil =>
    intro expected
    simp [balancedFrom]
  | cons k ks ih =>
    intro expected
    rcases k.bracket_or_plain with ⟨c, hc⟩ | ⟨hn, hc⟩ | hp
    · rw [expected_opener hc, ← ih]
      simp [balancedFrom, hc]
    · cases expected with
      | nil => simp [expected_closer_nil hc, balancedFrom, hn, hc]
      | cons top rest =>
        rw [expected_closer hc]
        by_cases htop : top = k
        · rw [if_pos htop, ← ih]
          simp [balancedFrom, hn, hc, htop]
        · simp [balancedFrom, hn, hc, htop]
    · obtain ⟨hn, hc⟩ := Kind.isPlain_iff.mp hp
      rw [expected_plain hp, ← ih]
      simp [balancedFrom, hn, hc]

theorem TokenStream.isBalanced_iff (s : TokenStream) :
    s.isBalanced ↔ Balanced (s.tokens.toList.map Token.kind) := balancedFrom_iff _ []

@[simp] theorem balanced_nil : Balanced [] := rfl

theorem balanced_significant : Balanced (ks.filter (!·.isTrivia)) ↔ Balanced ks := by
  unfold Balanced
  rw [expected_significant]

theorem Balanced.expectedAfter (h : Balanced ks) (expected : List Kind) :
    expectedAfter expected ks = some expected := by
  have := expected_append_left expected ks h
  simpa using this

theorem Balanced.append {ls : List Kind} (hk : Balanced ks) (hl : Balanced ls) : Balanced (ks ++ ls) := by
  unfold Balanced at hk ⊢
  rw [expected_append, hk]
  exact hl

theorem Balanced.wrap (hk : k.closer? = some c) (h : Balanced ks) : Balanced (k :: (ks ++ [c])) := by
  unfold Balanced
  rw [expected_opener hk, expected_append, h.expectedAfter, bind_some,
    expected_closer (Kind.isCloser_closer? hk), if_pos rfl]
  rfl

theorem balanced_of_plain (h : ∀ k ∈ ks, k.isPlain) : Balanced ks := by
  induction ks with
  | nil => rfl
  | cons k ks ih =>
    unfold Balanced
    rw [expected_plain (h k mem_cons_self)]
    exact ih (forall_mem_cons.mp h).2

theorem Balanced.cons_plain (hk : k.isPlain) (h : Balanced ks) : Balanced (k :: ks) := by
  unfold Balanced
  rw [expected_plain hk]
  exact h

/-- An expected closer that is no longer expected at the end was met: a balanced word stands in front
of it. -/
theorem exists_pop (hlen : after.length ≤ below.length) :
    ∀ (ks above : List Kind), expectedAfter (above ++ k :: below) ks = some after →
      ∃ u v, ks = u ++ k :: v ∧ expectedAfter above u = some [] ∧ expectedAfter below v = some after := by
  intro ks
  induction ks with
  | nil =>
    intro above h
    rw [expected_nil, some.injEq] at h
    rw [← h, length_append, length_cons] at hlen
    omega
  | cons x ks ih =>
    intro above h
    obtain ⟨mid, hstep, hmid⟩ := expected_cons_iff.mp h
    rcases hstep.of_append with ⟨mid, rfl, hfst⟩ | ⟨rfl, rfl, rfl⟩
    · obtain ⟨u, v, rfl, hu, hv⟩ := ih mid hmid
      exact ⟨x :: u, v, rfl, expected_cons_iff.mpr ⟨mid, hfst, hu⟩, hv⟩
    · exact ⟨[], ks, rfl, rfl, hmid⟩

theorem exists_push : ∀ (n : Nat) (ks : List Kind), ks.length ≤ n →
    expectedAfter [] ks = some (k :: below) →
      ∃ u o v, ks = u ++ o :: v ∧ o.closer? = some k ∧ Balanced v := by
  intro n
  induction n generalizing k below with
  | zero =>
    intro ks hlen h
    rw [eq_nil_of_length_eq_zero (Nat.le_zero.mp hlen)] at h
    cases h
  | succ n ih =>
    intro ks hlen h
    rcases eq_nil_or_concat ks with rfl | ⟨init, x, rfl⟩
    · cases h
    · rw [concat_eq_append] at h hlen ⊢
      rw [length_append, length_singleton] at hlen
      rw [expected_append, bind_eq_some_iff] at h
      obtain ⟨mid, hmid, hx⟩ := h
      obtain ⟨_, hstep, hend⟩ := expected_cons_iff.mp hx
      cases hend
      cases hstep with
      | opener hc => exact ⟨init, x, [], rfl, hc, rfl⟩
      | closer hc =>
        -- the closer ends a word of its own, in front of which `k` was opened
        obtain ⟨u₁, o₁, v₁, rfl, ho₁, hv₁⟩ := ih init (by omega) hmid
        rw [expected_append, bind_eq_some_iff] at hmid
        obtain ⟨mid₁, hmid₁, hrest⟩ := hmid
        rw [expected_opener ho₁, hv₁.expectedAfter, some.injEq, cons.injEq] at hrest
        rw [hrest.2] at hmid₁
        rw [length_append, length_cons] at hlen
        obtain ⟨u, o, v, rfl, ho, hv⟩ := ih u₁ (by omega) hmid₁
        exact ⟨u, o, v ++ (o₁ :: (v₁ ++ [x])), by simp, ho, hv.append (hv₁.wrap ho₁)⟩
      | plain hp =>
        obtain ⟨u, o, v, rfl, ho, hv⟩ := ih init (by omega) hmid
        exact ⟨u, o, v ++ [x], by simp, ho, hv.append (balanced_of_plain (by simpa using hp))⟩

/-! ## §3. Brackets of a stream. -/

theorem lt_getElem? {α : Type _} {xs : List α} {x : α} (h : xs[i]? = some x) : i < xs.length :=
  (List.getElem?_eq_some_iff.mp h).1

theorem drop_of_getElem? {α : Type _} {xs : List α} {x : α} (h : xs[i]? = some x) :
    xs.drop i = x :: xs.drop (i + 1) := by
  rw [drop_eq_getElem?_toList_append, h]
  rfl

namespace TokenStream

def kinds (s : TokenStream) : List Kind := s.tokens.toList.map Token.kind

def kindsIn (s : TokenStream) (a b : Nat) : List Kind := (s.kinds.drop a).take (b - a)

theorem kind?_eq (s : TokenStream) (i : Nat) : s.kind? i = s.kinds[i]? := by
  simp [kind?, get?, kinds]

theorem length_kinds (s : TokenStream) : s.kinds.length = s.size := by
  simp [kinds, size]

theorem kind?_eq_getElem (h : i < s.tokens.size) : s.kind? i = some s.tokens[i].kind := by
  simp [kind?, get?, h]

theorem get?_of_lt (h : i < s.size) : ∃ t, s.get? i = some t :=
  ⟨_, Array.getElem?_eq_getElem h⟩

theorem lt_kind? (h : s.kind? i = some k) : i < s.size := by
  rw [kind?_eq] at h
  exact length_kinds s ▸ lt_getElem? h

@[simp] theorem kindsIn_self (s : TokenStream) (a : Nat) : s.kindsIn a a = [] := by
  simp [kindsIn]

theorem kindsIn_cons (hk : s.kind? a = some k) (h : a < b) : s.kindsIn a b = k :: s.kindsIn (a + 1) b := by
  rw [kind?_eq] at hk
  unfold kindsIn
  rw [drop_of_getElem? hk, show b - a = (b - (a + 1)) + 1 from by omega, take_succ_cons]

theorem kindsIn_append (s : TokenStream) {c : Nat} (hab : a ≤ b) (hbc : b ≤ c) :
    s.kindsIn a c = s.kindsIn a b ++ s.kindsIn b c := by
  unfold kindsIn
  rw [show c - a = (b - a) + (c - b) from by omega, take_add, drop_drop,
    show a + (b - a) = b from by omega]

theorem kindsIn_all (s : TokenStream) : s.kindsIn 0 s.size = s.kinds := by
  rw [kindsIn, drop_zero, Nat.sub_zero, ← length_kinds, take_length]

theorem kindsIn_snoc (hk : s.kind? b = some k) (h : a ≤ b) : s.kindsIn a (b + 1) = s.kindsIn a b ++ [k] := by
  rw [kindsIn_append s h b.le_succ, kindsIn_cons hk b.lt_succ_self, kindsIn_self]

theorem kindsIn_split {u v : List Kind} (hb : b ≤ s.size) (h : s.kindsIn a b = u ++ k :: v) :
    a + u.length < b ∧ s.kind? (a + u.length) = some k
      ∧ s.kindsIn a (a + u.length) = u ∧ s.kindsIn (a + u.length + 1) b = v := by
  have hlen : (s.kindsIn a b).length = b - a := by
    rw [kindsIn, length_take, length_drop, length_kinds]
    omega
  have hlt : a + u.length < b := by
    rw [h, length_append, length_cons] at hlen
    omega
  have hget : s.kind? (a + u.length) = some k := by
    have : (s.kindsIn a b)[u.length]? = some k := by
      rw [h, getElem?_append_right (Nat.le_refl _), Nat.sub_self]
      rfl
    rw [kindsIn, getElem?_take_of_lt (by omega), getElem?_drop] at this
    rw [kind?_eq, this]
  have hsplit := kindsIn_append s (Nat.le_add_right a u.length) (Nat.le_of_lt hlt)
  rw [kindsIn_cons hget hlt, h] at hsplit
  have hul : (s.kindsIn a (a + u.length)).length = u.length := by
    rw [kindsIn, length_take, length_drop, length_kinds]
    omega
  obtain ⟨hu, hv⟩ := append_inj hsplit.symm hul
  rw [cons.injEq] at hv
  exact ⟨hlt, hget, hu, hv.2⟩

theorem closeFrom?_end (h : s.size ≤ i) (expected : List Kind) : s.closeFrom? expected i = none := by
  rw [closeFrom?, dif_neg (by unfold size at h; omega)]

theorem closeFrom?_of_kind? (hk : s.kind? i = some k) (hne : expected ≠ []) :
    s.closeFrom? expected i = (expectedAfter expected [k]).bind fun mid =>
      if mid = [] then some i else s.closeFrom? mid (i + 1) := by
  have hi : i < s.tokens.size := lt_kind? hk
  rw [kind?_eq_getElem hi, some.injEq] at hk
  obtain ⟨top, rest, rfl⟩ := exists_cons_of_ne_nil hne
  rw [closeFrom?, dif_pos hi, expected_cons]
  simp only [hk]
  cases k.closer? with
  | some closer => simp
  | none =>
    by_cases hclose : k.isCloser
    · by_cases htop : top = k <;> simp [hclose, htop]
    · simp [hclose]

theorem closeFrom?_iff (hk : k.isCloser) (c : Nat) :
    ∀ (i : Nat) (above : List Kind), s.closeFrom? (above ++ [k]) i = some c ↔
      i ≤ c ∧ s.kind? c = some k ∧ expectedAfter above (s.kindsIn i c) = some [] := by
  intro i above
  -- induction on what is left of the stream
  induction hn : s.size - i using Nat.strongRecOn generalizing i above with
  | ind n ih =>
    cases hki : s.kind? i with
    | none =>
      have hi : s.size ≤ i := by
        rw [kind?_eq, List.getElem?_eq_none_iff, length_kinds] at hki
        exact hki
      rw [closeFrom?_end hi]
      constructor
      · intro h
        cases h
      · rintro ⟨hle, hkc, -⟩
        have := lt_kind? hkc
        omega
    | some x =>
      have hi := lt_kind? hki
      have hrec := fun above' => ih (s.size - (i + 1)) (by omega) (i + 1) above' rfl
      rw [closeFrom?_of_kind? hki (by simp), bind_eq_some_iff]
      constructor
      · rintro ⟨mid, hmid, h⟩
        rcases (expected_singleton.mp hmid).of_append with ⟨mid, rfl, hstep⟩ | ⟨rfl, rfl, rfl⟩
        · rw [if_neg (by simp)] at h
          obtain ⟨hle, hkc, hafter⟩ := (hrec mid).mp h
          refine ⟨Nat.le_of_succ_le hle, hkc, ?_⟩
          rw [kindsIn_cons hki hle]
          exact expected_cons_iff.mpr ⟨mid, hstep, hafter⟩
        · rw [if_pos rfl, some.injEq] at h
          subst h
          exact ⟨Nat.le_refl i, hki, by rw [kindsIn_self]; rfl⟩
      · rintro ⟨hle, hkc, h⟩
        rcases Nat.eq_or_lt_of_le hle with rfl | hlt
        · rw [hki, some.injEq] at hkc
          rw [kindsIn_self, expected_nil, some.injEq] at h
          subst hkc h
          exact ⟨[], expected_singleton.mpr (.closer hk []), if_pos rfl⟩
        · rw [kindsIn_cons hki hlt] at h
          obtain ⟨mid, hstep, h⟩ := expected_cons_iff.mp h
          refine ⟨mid ++ [k], expected_singleton.mpr (hstep.append [k]), ?_⟩
          rw [if_neg (by simp)]
          exact (hrec mid).mpr ⟨hlt, hkc, h⟩

/-- **The closer of a bracket** is the token of the closing kind that only a balanced word separates from
the bracket. -/
theorem close_iff {c : Nat} :
    s.matchingClose? i = some c ↔
      ∃ k, (s.kind? i).bind Kind.closer? = some k ∧ i < c ∧ s.kind? c = some k
        ∧ Balanced (s.kindsIn (i + 1) c) := by
  rw [matchingClose?, bind_eq_some_iff]
  constructor
  · rintro ⟨k, hk, h⟩
    obtain ⟨k₀, -, hk₀⟩ := bind_eq_some_iff.mp hk
    exact ⟨k, hk, (closeFrom?_iff (Kind.isCloser_closer? hk₀) c (i + 1) []).mp h⟩
  · rintro ⟨k, hk, h⟩
    obtain ⟨k₀, -, hk₀⟩ := bind_eq_some_iff.mp hk
    exact ⟨k, hk, (closeFrom?_iff (Kind.isCloser_closer? hk₀) c (i + 1) []).mpr h⟩

/-! ## §4. Brackets inside brackets. -/

theorem exists_closer {o : Nat} (hb : b ≤ s.size) (hbal : Balanced (s.kindsIn a b)) (ha : a ≤ o) (ho : o < b)
    (hk : (s.kind? o).bind Kind.closer? = some k) : ∃ d, s.matchingClose? o = some d ∧ d < b := by
  obtain ⟨k₀, hk₀, hclose⟩ := bind_eq_some_iff.mp hk
  unfold Balanced at hbal
  rw [kindsIn_append s ha (Nat.le_of_lt ho), kindsIn_cons hk₀ ho, expected_append,
    bind_eq_some_iff] at hbal
  obtain ⟨mid, -, hbal⟩ := hbal
  rw [expected_opener hclose] at hbal
  obtain ⟨u, v, huv, hu, -⟩ := exists_pop (Nat.zero_le _) _ [] hbal
  obtain ⟨hlt, hkd, hword, -⟩ := kindsIn_split hb huv
  refine ⟨o + 1 + u.length, close_iff.mpr ⟨k, hk, by omega, hkd, ?_⟩, hlt⟩
  rw [hword]
  exact hu

theorem exists_open_of_balanced {p : Nat} (hb : b ≤ s.size)
    (hbal : Balanced (s.kindsIn a b)) (ha : a ≤ p) (hp : p < b) (hkp : s.kind? p = some k)
    (hk : k.isCloser) : ∃ o, a ≤ o ∧ o < p ∧ s.matchingClose? o = some p := by
  unfold Balanced at hbal
  rw [kindsIn_append s ha (Nat.le_of_lt hp), kindsIn_cons hkp hp, expected_append,
    bind_eq_some_iff] at hbal
  obtain ⟨mid, hmid, hbal⟩ := hbal
  obtain ⟨rest, rfl, -⟩ := (expected_closer_iff hk).mp hbal
  obtain ⟨u, o, v, huv, ho, hv⟩ := exists_push _ _ (Nat.le_refl _) hmid
  obtain ⟨hlt, hko, -, hword⟩ := kindsIn_split (by omega) huv
  refine ⟨a + u.length, by omega, hlt, close_iff.mpr ⟨k, ?_, by omega, hkp, ?_⟩⟩
  · rw [hko, bind_some, ho]
  · rw [hword]
    exact hv

theorem close_inside {c o : Nat}
    (h : s.matchingClose? i = some c) (hi : i < o) (hc : o < c) (ho : (s.kind? o).bind Kind.closer? = some k) :
    ∃ d, s.matchingClose? o = some d ∧ d < c := by
  obtain ⟨_, _, _, hkc, hbal⟩ := close_iff.mp h
  exact exists_closer (Nat.le_of_lt (lt_kind? hkc)) hbal hi hc ho

theorem opener_close {c : Nat} (h : s.matchingClose? i = some c) :
    ∃ k, (s.kind? i).bind Kind.closer? = some k ∧ s.kind? c = some k :=
  let ⟨k, hk, _, hc, _⟩ := close_iff.mp h
  ⟨k, hk, hc⟩

theorem close_injective {j c : Nat} (hi : s.matchingClose? i = some c)
    (hj : s.matchingClose? j = some c) : i = j := by
  -- of two brackets with one closer the later would be closed before it
  have key : ∀ {a b : Nat}, s.matchingClose? a = some c → s.matchingClose? b = some c → ¬ a < b := by
    intro a b ha hb hab
    obtain ⟨k, hk, -⟩ := opener_close hb
    obtain ⟨d, hd, hdc⟩ := close_inside ha hab (lt_close hb).1 hk
    rw [hb, some.injEq] at hd
    omega
  have h₁ := key hi hj
  have h₂ := key hj hi
  omega

end TokenStream

end MageUplift.Php
