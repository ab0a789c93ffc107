import Mathlib.Logic.ExistsUnique
import MageUplift.Proofs.Brackets

/-!
# Brackets as a grammar

The search for a closer and the test for balance both keep a stack. Here they are compared with something that keeps
none: the words of properly nested brackets as a grammar (`Dyck`), and the pairs of brackets with such a word between
them. The closer that the search finds is the other end of that pair, and a stream passes the test exactly if every
bracket of it belongs to a pair.
-/

namespace MageUplift.Php

open List Option

variable {a b c o i : Nat} {ks : List Kind}

/-! ## §1. The grammar. -/

/-- The words in which every bracket is closed by its counterpart. Kinds that are no brackets stand anywhere. -/
inductive Dyck : List Kind → Prop where
  | nil : Dyck []
  | plain {k : Kind} {ks : List Kind} (opensNothing : k.closer? = none) (closesNothing : k.isCloser = false)
      (rest : Dyck ks) : Dyck (k :: ks)
  | nest {o c : Kind} {inside behind : List Kind} (pair : o.closer? = some c) (inner : Dyck inside)
      (rest : Dyck behind) : Dyck (o :: (inside ++ c :: behind))

theorem Dyck.balanced (h : Dyck ks) : Balanced ks := by
  induction h with
  | nil => exact balanced_nil
  | plain hopens hcloses _ ih => exact ih.cons_plain (Kind.isPlain_iff.mpr ⟨hopens, hcloses⟩)
  | @nest o c inside behind hpair _ _ ihinside ihbehind =>
    have hsplit : o :: (inside ++ c :: behind) = (o :: (inside ++ [c])) ++ behind := by simp
    rw [hsplit]
    exact (ihinside.wrap hpair).append ihbehind

/-- Every word that the stack accepts is one of the grammar: its first bracket is closed in it, and what stands
between the two and what stands behind them are accepted as well. -/
theorem Balanced.dyck : ∀ {ks : List Kind}, Balanced ks → Dyck ks := by
  intro ks
  -- the pieces around a pair are no tails of the word, so the induction is on its length
  induction hn : ks.length using Nat.strongRecOn generalizing ks with
  | ind n ih =>
    intro h
    cases ks with
    | nil => exact .nil
    | cons k ks =>
      rw [length_cons] at hn
      obtain ⟨mid, hstep, h⟩ := expected_cons_iff.mp h
      cases hstep with
      | opener hc =>
        obtain ⟨inside, behind, rfl, hin, hbehind⟩ := exists_pop (Nat.zero_le _) ks [] h
        rw [length_append, length_cons] at hn
        exact .nest hc (ih inside.length (by omega) rfl hin) (ih behind.length (by omega) rfl hbehind)
      | plain hp =>
        obtain ⟨hopens, hcloses⟩ := Kind.isPlain_iff.mp hp
        exact .plain hopens hcloses (ih ks.length (by omega) rfl h)

theorem balanced_iff_dyck : Balanced ks ↔ Dyck ks := ⟨Balanced.dyck, Dyck.balanced⟩

namespace TokenStream

/-! ## §2. Pairs of brackets. -/

/-- The tokens at `o` and `c` are a bracket and the one that closes it: `c` has the closing kind of `o`, and the
tokens between them are a word of the grammar. -/
structure Pair (s : TokenStream) (o c : Nat) : Prop where
  lt : o < c
  kinds : ∃ opener closer, s.kind? o = some opener ∧ opener.closer? = some closer ∧ s.kind? c = some closer
  between : Dyck (s.kindsIn (o + 1) c)

variable {s : TokenStream}

theorem close_iff_pair : s.matchingClose? o = some c ↔ s.Pair o c := by
  rw [close_iff]
  constructor
  · rintro ⟨closer, hopen, hlt, hc, hbal⟩
    obtain ⟨opener, ho, hcloser⟩ := bind_eq_some_iff.mp hopen
    exact ⟨hlt, ⟨opener, closer, ho, hcloser, hc⟩, hbal.dyck⟩
  · rintro ⟨hlt, ⟨opener, closer, ho, hcloser, hc⟩, hdyck⟩
    exact ⟨closer, by rw [ho, bind_some, hcloser], hlt, hc, hdyck.balanced⟩

theorem Pair.close_unique {d : Nat} (hc : s.Pair o c) (hd : s.Pair o d) : c = d := by
  rw [← close_iff_pair] at hc hd
  rw [hc, some.injEq] at hd
  exact hd

def opensAt (s : TokenStream) (i : Nat) : Bool := (s.kind? i).any Kind.isOpener

def closesAt (s : TokenStream) (i : Nat) : Bool := (s.kind? i).any Kind.isCloser

theorem opensAt_iff : s.opensAt i ↔ ∃ closer, (s.kind? i).bind Kind.closer? = some closer := by
  unfold opensAt
  cases s.kind? i with
  | none => simp
  | some k => exact isSome_iff_exists

theorem closesAt_iff : s.closesAt i ↔ ∃ k, s.kind? i = some k ∧ k.isCloser :=
  Option.any_eq_true _ _

theorem opensAt_of_close (h : s.matchingClose? o = some c) : s.opensAt o := by
  obtain ⟨closer, hopen, -⟩ := opener_close h
  exact opensAt_iff.mpr ⟨closer, hopen⟩

theorem not_opensAt_close (h : s.matchingClose? o = some c) : ¬ s.opensAt c := by
  intro hopens
  obtain ⟨closer, hopen, hc⟩ := opener_close h
  obtain ⟨opener, -, hcloser⟩ := bind_eq_some_iff.mp hopen
  obtain ⟨other, hother⟩ := opensAt_iff.mp hopens
  rw [hc, bind_some, Kind.closer?_of_closer? hcloser] at hother
  cases hother

/-- **The closer of a bracket is the other end of its pair.** A bracket has one such end at most; and a bracket that
opens between the ends of a pair has its own there. -/
theorem matchingClose?_iff_pair (s : TokenStream) (o c : Nat) :
    (s.matchingClose? o = some c ↔ s.Pair o c)
      ∧ (∀ d, s.Pair o c → s.Pair o d → d = c)
      ∧ (s.matchingClose? o = some c → ∀ p, o < p → p < c → s.opensAt p = true →
          ∃ d, s.matchingClose? p = some d ∧ p < d ∧ d < c) := by
  refine ⟨close_iff_pair, fun d hc hd => hd.close_unique hc, ?_⟩
  intro h p hop hpc hopens
  obtain ⟨closer, hopen⟩ := opensAt_iff.mp hopens
  obtain ⟨d, hd, hdc⟩ := close_inside h hop hpc hopen
  exact ⟨d, hd, (lt_close hd).1, hdc⟩

/-! ## §3. Streams in which all brackets are in pairs. -/

/-- The brackets of the stretch from `a` up to `b` are in pairs, each with both ends in the stretch. -/
structure PairedIn (s : TokenStream) (a b : Nat) : Prop where
  opened : ∀ o, a ≤ o → o < b → s.opensAt o = true → ∃ c, s.matchingClose? o = some c ∧ c < b
  closed : ∀ c, a ≤ c → c < b → s.closesAt c = true → ∃ o, a ≤ o ∧ s.matchingClose? o = some c

theorem PairedIn.behind_plain (h : s.PairedIn a b) (hopens : ¬ s.opensAt a) : s.PairedIn (a + 1) b := by
  refine ⟨fun o ho hob => h.opened o (by omega) hob, ?_⟩
  intro c hc hcb hcloses
  obtain ⟨o, ho, hclose⟩ := h.closed c (by omega) hcb hcloses
  have hne : o ≠ a := by
    rintro rfl
    exact hopens (opensAt_of_close hclose)
  exact ⟨o, by omega, hclose⟩

/-- Behind a pair, brackets are paired as before it: what closes there was opened there, since what is opened inside
the pair is closed inside. -/
theorem PairedIn.behind_pair (h : s.PairedIn a b) (hpair : s.matchingClose? a = some c) : s.PairedIn (c + 1) b := by
  have hac := (lt_close hpair).1
  refine ⟨fun o ho hob => h.opened o (by omega) hob, ?_⟩
  intro d hd hdb hcloses
  obtain ⟨o, ho, hclose⟩ := h.closed d (by omega) hdb hcloses
  refine ⟨o, Nat.lt_of_not_le fun hoc => ?_, hclose⟩
  have hopens := opensAt_of_close hclose
  have hne : o ≠ a := by
    rintro rfl
    rw [hpair, some.injEq] at hclose
    omega
  have hnec : o ≠ c := by
    rintro rfl
    exact not_opensAt_close hpair hopens
  obtain ⟨closer, hopen⟩ := opensAt_iff.mp hopens
  obtain ⟨d', hd', hlt⟩ := close_inside hpair (by omega) (by omega) hopen
  rw [hclose, some.injEq] at hd'
  omega

theorem PairedIn.balanced (h : s.PairedIn a b) (hb : b ≤ s.size) : Balanced (s.kindsIn a b) := by
  induction hn : b - a using Nat.strongRecOn generalizing a with
  | ind n ih =>
    by_cases hab : a < b
    · obtain ⟨k, hk⟩ : ∃ k, s.kind? a = some k := by
        have ha : a < s.tokens.size := by unfold size at hb; omega
        exact ⟨_, kind?_eq_getElem ha⟩
      rcases k.bracket_or_plain with ⟨closer, hcloser⟩ | ⟨-, hcloser⟩ | hplain
      · -- a pair in front, and the rest behind it
        have hopens : s.opensAt a := opensAt_iff.mpr ⟨closer, by rw [hk, bind_some, hcloser]⟩
        obtain ⟨c, hc, hcb⟩ := h.opened a (Nat.le_refl a) hab hopens
        obtain ⟨closer', hopen, hac, hkc, hbal⟩ := close_iff.mp hc
        rw [hk, bind_some] at hopen
        have hrest := ih (b - (c + 1)) (by omega) (h.behind_pair hc) rfl
        rw [kindsIn_append s (show a ≤ c + 1 by omega) (show c + 1 ≤ b by omega), kindsIn_cons hk (by omega),
          kindsIn_snoc hkc (by omega)]
        exact (hbal.wrap hopen).append hrest
      · -- nothing in front of the stretch could have opened it
        obtain ⟨o, ho, hclose⟩ := h.closed a (Nat.le_refl a) hab (closesAt_iff.mpr ⟨k, hk, hcloser⟩)
        have := (lt_close hclose).1
        omega
      · have hopens : ¬ s.opensAt a := by
          intro hopens
          obtain ⟨closer, hopen⟩ := opensAt_iff.mp hopens
          rw [hk, bind_some, (Kind.isPlain_iff.mp hplain).1] at hopen
          cases hopen
        rw [kindsIn_cons hk hab]
        exact (ih (b - (a + 1)) (by omega) (h.behind_plain hopens) rfl).cons_plain hplain
    · have hnil : s.kindsIn a b = [] := by
        rw [kindsIn, show b - a = 0 by omega, take_zero]
      rw [hnil]
      exact balanced_nil

/-- **A stream is balanced exactly if all its brackets are in pairs**: each that opens is closed, and each that closes
is the closer of exactly one that opens. -/
theorem isBalanced_iff_all_paired (s : TokenStream) :
    s.isBalanced = true ↔
      (∀ o, s.opensAt o = true → (s.matchingClose? o).isSome = true)
        ∧ ∀ c, s.closesAt c = true → ∃! o, s.opensAt o = true ∧ s.matchingClose? o = some c := by
  rw [isBalanced_iff, ← kinds, ← kindsIn_all]
  constructor
  · intro hbal
    constructor
    · intro o hopens
      obtain ⟨closer, hopen⟩ := opensAt_iff.mp hopens
      obtain ⟨k, hk, -⟩ := Option.bind_eq_some_iff.mp hopen
      obtain ⟨c, hc, -⟩ := exists_closer (Nat.le_refl _) hbal (Nat.zero_le o) (lt_kind? hk) hopen
      rw [hc, isSome_some]
    · intro c hcloses
      obtain ⟨k, hk, hcloser⟩ := closesAt_iff.mp hcloses
      obtain ⟨o, -, -, hclose⟩ :=
        exists_open_of_balanced (Nat.le_refl _) hbal (Nat.zero_le c) (lt_kind? hk) hk hcloser
      refine ⟨o, ⟨opensAt_of_close hclose, hclose⟩, ?_⟩
      rintro o' ⟨-, hclose'⟩
      exact close_injective hclose' hclose
  · rintro ⟨hopened, hclosed⟩
    refine PairedIn.balanced ⟨?_, ?_⟩ (Nat.le_refl _)
    · intro o _ _ hopens
      obtain ⟨c, hc⟩ := Option.isSome_iff_exists.mp (hopened o hopens)
      exact ⟨c, hc, (lt_close hc).2⟩
    · intro c _ _ hcloses
      obtain ⟨o, ⟨-, hclose⟩, -⟩ := hclosed c hcloses
      exact ⟨o, Nat.zero_le o, hclose⟩

/-- Brackets that cross are not balanced, though there are as many closers as openers. -/
example : (ofTokens (lexFragment "([)]")).isBalanced = false := by decide +kernel

end TokenStream

end MageUplift.Php
