import MageUplift.Proofs.ConvertedCalls

/-!
# The bracket structure of the converted stream

A call may trade brackets with its surroundings: a pair goes away with the head, a second parenthesis is opened in the
head and closed at the far end of the arguments. Seen from outside the call nothing of this shows, because the whole
call is balanced before and after. So the stack of expected closers, run along the converted stream, agrees with the
one run along the file at every place between calls, even if the file is not balanced.
-/

namespace MageUplift

open Php TokenStream Call Magento

/-! ## §1. The stack along an edited stream. -/

namespace Php.TokenStream

variable {v : TokenStream} {edits : List (Edit Token)}

theorem Kept.kindsIn_rest {i j : Nat} {k : Kind} (h : v.Kept edits i j) (hk : v.kind? i = some k) :
    (v.woven edits).kindsIn (v.offsetIn edits i) (v.woven edits).size
      = (Edit.generatedAt edits i).map Token.kind
        ++ k :: (v.woven edits).kindsIn (v.offsetIn edits (i + 1)) (v.woven edits).size := by
  have hplace : Edit.placeOf v.tokens.toList edits i = j := (Edit.KeptAt.place h).symm
  have hnext : v.offsetIn edits (i + 1) = j + 1 := Edit.KeptAt.offsetOf_succ h
  have hle : v.offsetIn edits i ≤ j := by
    rw [← hplace]
    exact Edit.offset_le_place i
  have hkj : (v.woven edits).kind? j = some k := by
    rw [kind?, h.get?]
    exact hk
  have hj := h.lt_size_woven
  rw [kindsIn_append _ hle hj.le, kindsIn_cons hkj hj, hnext, ← hplace, kindsIn_new h.lt_size.le]

/-- **The stack along an edited stream** agrees with the one along the stream before, from any place from which a
search for closers can go on. -/
theorem expected_weave {P : Nat → Prop} (hstep : Passable v edits P) (hend : Edit.generatedAt edits v.size = [])
    {i : Nat} (hP : P i) (hi : i ≤ v.size) (expected : List Kind) :
    expectedAfter expected ((v.woven edits).kindsIn (v.offsetIn edits i) (v.woven edits).size)
      = expectedAfter expected (v.kindsIn i v.size) := by
  -- induction on what is left of the stream, a token or a balanced stretch at a time
  induction hn : v.size - i using Nat.strongRecOn generalizing i expected with
  | ind n ih =>
    by_cases hlast : i = v.size
    · subst hlast
      rw [size_woven_of_end hend, kindsIn_self, kindsIn_self]
    have hlt : i < v.size := by omega
    rcases hstep i hP hlt with ⟨j, hkept, hbal, hnext⟩ | ⟨j, hij, hj, hbef, hafter, hnext⟩
    · obtain ⟨t, ht⟩ := get?_of_lt hlt
      have hk := kind?_get? ht
      have hcons : ∀ ks, expectedAfter expected (t.kind :: ks)
        = (expectedAfter expected [t.kind]).bind (expectedAfter · ks) :=
        fun ks => expected_append [t.kind] ks expected
      rw [hkept.kindsIn_rest hk, expected_append, hbal.expectedAfter, Option.bind_some, kindsIn_cons hk hlt,
        hcons (v.kindsIn (i + 1) v.size), hcons (kindsIn _ _ _)]
      cases expectedAfter expected [t.kind] with
      | none => rfl
      | some after => exact ih (v.size - (i + 1)) (by omega) hnext hlt after rfl
    · have hle : v.offsetIn edits i ≤ v.offsetIn edits j := Edit.offsetOf_mono hij.le
      have hsize : v.offsetIn edits j ≤ (v.woven edits).size :=
        (Edit.offset_le_place j).trans (placeOf_le_size hj)
      rw [kindsIn_append _ hle hsize, expected_append, hafter.expectedAfter, Option.bind_some,
        kindsIn_append v hij.le hj, expected_append, hbef.expectedAfter, Option.bind_some]
      exact ih (v.size - j) (by omega) hnext hj expected rfl

end Php.TokenStream

/-! ## §2. The converted stream. -/

theorem OutsideCalls.start (table : AliasTable) (s : TokenStream) : OutsideCalls table s 0 := by
  refine ⟨fun inv _ => .inl (Nat.zero_le _), ?_⟩
  rintro ⟨inv, -, left, close, -, -, hlt, -⟩
  omega

/-- **Converting the calls of a file keeps its bracket structure**: the converted stream is balanced if the file is,
and only then. -/
theorem convertCalls_isBalanced_iff {table : AliasTable} (htab : table.Reachable) (s : TokenStream) :
    ∃ converted, Migrator.convertCalls s (scan table s) = .ok converted
      ∧ (converted.isBalanced = true ↔ s.isBalanced = true) := by
  refine ⟨_, convertCalls_scan table s, ?_⟩
  have hstack := expected_weave (passable_outsideCalls htab.wellFormed) (generatedAt_size table s)
    (OutsideCalls.start table s) (Nat.zero_le _) []
  have hstart : s.offsetIn (callEdits table s) 0 = 0 := rfl
  rw [hstart, kindsIn_all, kindsIn_all] at hstack
  rw [isBalanced_iff, isBalanced_iff]
  show expectedAfter [] (s.woven (callEdits table s)).kinds = some [] ↔ expectedAfter [] s.kinds = some []
  rw [hstack]

/-- Calls that take a pair of brackets away, add one around an argument, and are nested; a brace is missing. -/
def unclosedClass : TokenStream :=
  .ofSource "<?php class A\x7bfunction f()\x7bMage::throwException(Mage::getModel('catalog/product')->a([1]));\x7d"

theorem convertCalls_isBalanced_iff_unclosedClass :
    (scan .builtin unclosedClass).map (·.pattern) = [.throwException, .getModel]
      ∧ ∃ converted, Migrator.convertCalls unclosedClass (scan .builtin unclosedClass) = .ok converted
        ∧ converted.isBalanced = false := by
  refine ⟨?_, ?_⟩
  · rw [show unclosedClass = .ofTokens _ from ofSource_ofList _]
    decide +kernel
  · obtain ⟨converted, hconv, hiff⟩ := convertCalls_isBalanced_iff .builtin unclosedClass
    have hopen : unclosedClass.isBalanced = false := by
      rw [show unclosedClass = .ofTokens _ from ofSource_ofList _]
      decide +kernel
    refine ⟨converted, hconv, ?_⟩
    rw [← Bool.not_eq_true, hiff, hopen]
    exact Bool.false_ne_true

end MageUplift
