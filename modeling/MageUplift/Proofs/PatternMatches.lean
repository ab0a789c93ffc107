import Mathlib.Data.Finset.Card
import Mathlib.Data.Nat.Bitwise
import Mathlib.Logic.Relation
import MageUplift.Layout.PatternMatch

/-!
# Patterns match what they describe

`Pattern.Leads` says without any search from which place of a text to which a match of a pattern leads; repetition is
the closure of a relation. The search works on whole sets of places and finds the same. For repetitions it goes in
rounds: what they reach in the end is closed under one more step, because each round but the last reaches a new place
and there are more rounds than places.
-/

namespace MageUplift.Layout

variable {i : Nat}

/-! ## §1. Places. -/

@[simp] theorem Places.testBit_without (a b : Places) (i : Nat) :
    (a.without b).testBit i = (a.testBit i && !b.testBit i) := by
  rw [Places.without, Nat.testBit_xor, Nat.testBit_and]
  cases a.testBit i <;> cases b.testBit i <;> rfl

@[simp] theorem Places.testBit_behind {a : Places} {j : Nat} : a.behind.testBit j ↔ ∃ i, a.testBit i ∧ j = i + 1 := by
  rw [Places.behind, Nat.testBit_shiftLeft]
  cases j with
  | zero => simp
  | succ j => simp

theorem testBit_one_shiftLeft {n : Nat} : (1 <<< n).testBit i ↔ i = n := by
  rw [Nat.one_shiftLeft, Nat.testBit_two_pow, decide_eq_true_eq, eq_comm]

@[simp] theorem Places.testBit_passing {test : Char → Bool} {cs : List Char} :
    (passing test cs).testBit i ↔ ∃ c, cs[i]? = some c ∧ test c := by
  induction cs generalizing i with
  | nil => simp [passing]
  | cons c cs ih =>
    rw [passing]
    cases i with
    | zero => cases htest : test c <;> simp [htest]
    | succ i =>
      rw [Nat.testBit_succ, Nat.mul_add_div Nat.two_pos, Nat.div_eq_of_lt (Bool.toNat_lt _), Nat.add_zero, ih,
        List.getElem?_cons_succ]

/-! ## §2. Rounds. -/

/-- All places of a set are places of a text with `n` characters. -/
def Places.UpTo (n : Nat) (a : Places) : Prop := ∀ i, a.testBit i = true → i ≤ n

section

variable {n rounds : Nat} {step : Places → Places} {R : Nat → Nat → Prop} {reached : Places} {j : Nat}
  (hstep : ∀ a, Places.UpTo n a → ∀ j, (step a).testBit j ↔ ∃ i, a.testBit i ∧ R i j)
  (hR : ∀ i j, R i j → i ≤ n → j ≤ n) (hreached : Places.UpTo n reached)

include hstep hR hreached

theorem Places.UpTo.more : Places.UpTo n (reached ||| step reached) := by
  intro j hj
  rw [Nat.testBit_or, Bool.or_eq_true, hstep _ hreached] at hj
  rcases hj with hj | ⟨i, hi, hij⟩
  · exact hreached j hj
  · exact hR i j hij (hreached i hi)

theorem exists_of_reach (h : (reach step rounds reached).testBit j) :
    ∃ i, reached.testBit i ∧ Relation.TransGen R i j := by
  induction rounds generalizing reached with
  | zero => simp [reach] at h
  | succ rounds ih =>
    rw [reach] at h
    split at h
    · obtain ⟨i, hi, hij⟩ := (hstep _ hreached j).mp h
      exact ⟨i, hi, .single hij⟩
    · obtain ⟨m, hm, hmj⟩ := ih (hreached.more hstep hR) h
      rw [Nat.testBit_or, Bool.or_eq_true, hstep _ hreached] at hm
      rcases hm with hm | ⟨i, hi, him⟩
      · exact ⟨m, hm, hmj⟩
      · exact ⟨i, hi, .head him hmj⟩

theorem closed_reach (hrounds : ((Finset.range (n + 1)).filter fun i => reached.testBit i = false).card < rounds)
    (hi : reached.testBit i ∨ (reach step rounds reached).testBit i) (hij : R i j) :
    (reach step rounds reached).testBit j := by
  induction rounds generalizing reached with
  | zero => omega
  | succ rounds ih =>
    rw [reach] at hi ⊢
    split
    · rename_i hsame
      rw [if_pos hsame] at hi
      refine (hstep _ hreached j).mpr ⟨i, hi.elim id fun hnext => ?_, hij⟩
      rw [← beq_iff_eq.mp hsame, Nat.testBit_or, hnext, Bool.or_true]
    · rename_i hnew
      rw [if_neg hnew] at hi
      refine ih (hreached.more hstep hR) ?_ (hi.imp_left fun h => by rw [Nat.testBit_or, h, Bool.true_or])
      -- a place has been reached that was not
      obtain ⟨k, hk⟩ := Nat.exists_testBit_ne_of_ne (beq_eq_false_iff_ne.mp (Bool.eq_false_iff.mpr hnew))
      refine (Finset.card_lt_card ?_).trans_le (Nat.lt_succ_iff.mp hrounds)
      rw [Finset.ssubset_iff_of_subset fun i => by simp +contextual]
      have hle := hreached.more hstep hR k
      cases hold : reached.testBit k with
      | true => simp [hold] at hk
      | false =>
        have hfound : (reached ||| step reached).testBit k := by simpa [hold] using hk
        exact ⟨k, by simpa [hold] using Nat.lt_succ_of_le (hle hfound),
          by simp only [Finset.mem_filter, hfound, reduceCtorEq, and_false, not_false_eq_true]⟩

theorem testBit_reach : (reach step (n + 2) reached).testBit j
    ↔ ∃ i, reached.testBit i ∧ Relation.TransGen R i j := by
  refine ⟨exists_of_reach hstep hR hreached, ?_⟩
  rintro ⟨i, hi, hij⟩
  have hclosed : ∀ {i j}, reached.testBit i ∨ (reach step (n + 2) reached).testBit i → R i j →
      (reach step (n + 2) reached).testBit j = true :=
    closed_reach hstep hR hreached (Nat.lt_succ_of_le ((Finset.card_filter_le _ _).trans_eq (Finset.card_range (n + 1))))
  induction hij with
  | single h => exact hclosed (.inl hi) h
  | tail _ h ih => exact hclosed (.inr ih) h

end

/-! ## §3. Matches. -/

def WordAt (cs : List Char) (i : Nat) : Prop := ∃ c, cs[i]? = some c ∧ Text.isWordChar c = true

def Assertion.Holds (cs : List Char) : Assertion → Nat → Prop
  | .start, i => i = 0
  | .stop, i => i = cs.length
  | .wordStart, i => WordAt cs i ∧ ∀ m, i = m + 1 → ¬ WordAt cs m
  | .wordStop, i => (∃ m, i = m + 1 ∧ WordAt cs m) ∧ ¬ WordAt cs i

/-- A match of the pattern leads from one place of a text to another. -/
def Pattern.Leads (cs : List Char) : Pattern → Nat → Nat → Prop
  | .empty, i, j => i = j
  | .assertion a, i, j => i = j ∧ a.Holds cs i
  | .char k, i, j => j = i + 1 ∧ ∃ c, cs[i]? = some c ∧ k.accepts c = true
  | .seq a b, i, j => ∃ m, a.Leads cs i m ∧ b.Leads cs m j
  | .alt a b, i, j => a.Leads cs i j ∨ b.Leads cs i j
  | .star a, i, j => Relation.ReflTransGen (a.Leads cs) i j
  | .plus a, i, j => Relation.TransGen (a.Leads cs) i j

variable {cs : List Char} {a : Pattern} {i j : Nat}

theorem Assertion.testBit_places {a : Assertion} : (a.places cs).testBit i ↔ a.Holds cs i := by
  cases a with
  | start => exact testBit_one_shiftLeft (n := 0)
  | stop => exact testBit_one_shiftLeft
  | wordStart | wordStop =>
    simp only [places, Holds, WordAt, Places.testBit_without, Bool.and_eq_true, Places.testBit_passing, Bool.not_eq_true',
      ← Bool.not_eq_true, Places.testBit_behind]
    grind

theorem Pattern.Leads.le (h : a.Leads cs i j) (hi : i ≤ cs.length) : j ≤ cs.length := by
  induction a generalizing i j with
  | empty => exact h ▸ hi
  | assertion a => exact h.1 ▸ hi
  | char k =>
    obtain ⟨rfl, c, hc, -⟩ := h
    exact (List.getElem?_eq_some_iff.mp hc).1
  | seq a b iha ihb =>
    obtain ⟨m, ha, hb⟩ := h
    exact ihb hb (iha ha hi)
  | alt a b iha ihb => exact h.elim (iha · hi) (ihb · hi)
  | star a ih =>
    induction h with
    | refl => exact hi
    | tail _ hstep ihr => exact ih hstep ihr
  | plus a ih =>
    induction h with
    | single hstep => exact ih hstep hi
    | tail _ hstep ihr => exact ih hstep ihr

theorem testBit_upTo {n : Nat} : (Places.upTo n).testBit i ↔ i ≤ n := by
  rw [Places.upTo, Nat.one_shiftLeft, Nat.testBit_two_pow_sub_one, decide_eq_true_eq]
  omega

theorem testBit_ends (a : Pattern) {starts : Places} (hstarts : Places.UpTo cs.length starts) (j : Nat) :
    (a.ends cs starts).testBit j ↔ ∃ i, starts.testBit i ∧ a.Leads cs i j := by
  unfold Pattern.ends
  induction a generalizing starts j with
  | empty =>
    simp only [Pattern.locate, LocatedPattern.ends, Nat.testBit_and, Bool.and_eq_true, testBit_upTo, Pattern.Leads,
      exists_eq_right, and_iff_left_iff_imp]
    exact hstarts j
  | assertion a => simp [Pattern.locate, LocatedPattern.ends, Pattern.Leads, Assertion.testBit_places]
  | char k => simp [Pattern.locate, LocatedPattern.ends, Pattern.Leads, and_comm, and_left_comm]
  | seq a b iha ihb =>
    have hmid : Places.UpTo cs.length ((a.locate cs).ends cs.length starts) := by
      intro m hm
      obtain ⟨i, hi, him⟩ := (iha hstarts m).mp hm
      exact him.le (hstarts i hi)
    simp only [Pattern.locate, LocatedPattern.ends, ihb hmid, iha hstarts, Pattern.Leads]
    grind
  | alt a b iha ihb =>
    simp only [Pattern.locate, LocatedPattern.ends, Nat.testBit_or, Bool.or_eq_true, iha hstarts, ihb hstarts,
      Pattern.Leads]
    grind
  | star a ih =>
    rw [Pattern.locate, LocatedPattern.ends, Nat.testBit_or, Bool.or_eq_true,
      testBit_reach (fun _ h j => ih h j) (fun _ _ h => h.le) hstarts]
    simp only [Pattern.Leads, Relation.reflTransGen_iff_eq_or_transGen]
    grind
  | plus a ih => exact testBit_reach (fun _ h j => ih h j) (fun _ _ h => h.le) hstarts

theorem occursIn_iff (a : Pattern) (text : String) :
    a.occursIn text ↔ ∃ i j, i ≤ text.toList.length ∧ a.Leads text.toList i j := by
  have hends := testBit_ends a (fun i => (@testBit_upTo i text.toList.length).mp)
  simp only [testBit_upTo] at hends
  rw [Pattern.occursIn, bne_iff_ne]
  constructor
  · intro h
    obtain ⟨j, hj⟩ := Nat.exists_testBit_of_ne_zero h
    obtain ⟨i, hi⟩ := (hends j).mp hj
    exact ⟨i, j, hi⟩
  · rintro ⟨i, j, h⟩ hzero
    have := (hends j).mpr ⟨i, h⟩
    rw [hzero, Nat.zero_testBit] at this
    cases this

end MageUplift.Layout
