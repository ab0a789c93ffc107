import MageUplift.Proofs.CompactCalls

/-!
# The scan misses nothing

The scan goes on behind the head of a call, and stops three tokens before the end. Neither loses a call: a call
needs three tokens behind its first, and no call begins inside the head of another (`matchAt?_inside`). Calls do
begin inside the argument list of another; then they also end there.
-/

namespace MageUplift

open Php TokenStream Call Magento

section

variable {table : AliasTable} {s : TokenStream} {a b : Invocation}

section

variable {left close : Nat} (hb : IsCallOf table s b) (hclose : s.matchingClose? left = some close)
  (hkind : s.kind? close = some .rightParen) (hleft : left < b.span.start) (hstart : b.span.start < close)

include hb hclose hkind hleft hstart

/-- A call that begins in an argument list has its head there: a parenthesis of the head cannot close the list. -/
theorem IsCallOf.headEnd_le_close : b.headEnd ≤ close := by
  apply Nat.le_of_not_lt
  intro hlt
  obtain ⟨o, ho, -, hoc⟩ := hb.anatomy.open_of_close hb.start_lt_size hstart hlt hkind
  have hsame : left = o := close_injective hclose hoc
  omega

theorem IsCallOf.stop_le_close : b.span.stop ≤ close := by
  have hhead := hb.headEnd_le_close hclose hkind hleft hstart
  have hlt := hb.anatomy.start_lt_headEnd
  cases hb.anatomy with
  | closed _ _ headEnd stop => omega
  | @opened left' close' _ _ closes _ headEnd stop =>
    -- the inner list opens inside the outer, so it closes inside
    obtain ⟨k, hk, -⟩ := opener_close closes
    obtain ⟨d, hd, hdc⟩ :=
      close_inside hclose (show left < left' by omega) (show left' < close by omega) hk
    rw [closes, Option.some.injEq] at hd
    omega

end

/-- **Of two calls, the later stands behind the earlier or in its argument list.** -/
theorem IsCallOf.span_laminar (ha : IsCallOf table s a) (hb : IsCallOf table s b) (hab : a.headEnd ≤ b.span.start) :
    a.span.stop ≤ b.span.start ∨ a.headEnd ≤ b.span.start ∧ b.span.stop < a.span.stop := by
  cases ha.anatomy with
  | closed _ _ headEnd stop =>
    left
    omega
  | @opened left close _ follows closes _ headEnd stop =>
    have hkind := Anatomy.kind?_close follows closes
    have hne : b.span.start ≠ close := by
      intro heq
      obtain ⟨t, ht, hmage⟩ := hb.isMage
      rw [← heq, kind?_get? ht, Option.some.injEq] at hkind
      rw [Call.isMage, hkind] at hmage
      cases hmage
    by_cases hbehind : close < b.span.start
    · left
      omega
    · right
      have hstop := hb.stop_le_close closes hkind (by omega) (by omega)
      omega

end

/-- **The scan answers every call of the stream but those that ask for a collaborator in a static function.**
No call lies in what it jumps over, the heads of its calls are apart, and their spans are apart or nested. -/
theorem scan_exhaustive (table : AliasTable) (s : TokenStream) :
    scan table s
        = ((List.range s.size).filterMap (matchAt? table s)).filter (fun inv =>
            !(inv.collaborator.isSome
              && (staticBodies s).any fun body => body.start < inv.span.start && inv.span.stop ≤ body.stop))
      ∧ (∀ i inv, matchAt? table s i = some inv →
          inv.span.start = i ∧ i < inv.headEnd ∧ inv.headEnd ≤ inv.span.stop ∧ i + 3 < s.size
            ∧ ∀ j, i < j → j < inv.headEnd → matchAt? table s j = none)
      ∧ (scan table s).Pairwise fun a b =>
          a.headEnd ≤ b.span.start
            ∧ (a.span.stop ≤ b.span.start ∨ a.span.start < b.span.start ∧ b.span.stop < a.span.stop) := by
  refine ⟨?_, ?_, ?_⟩
  · rw [scan_eq_filterMap, ← List.filter_filterMap]
    apply List.filter_congr
    intro inv _
    rw [Invocation.isConvertible, Invocation.isInside, Bool.and_comm]
  · intro i inv h
    have hcall : IsCallOf table s inv := .of_matchAt? h
    have hstart : inv.span.start = i := (matchAt?_anatomy h).1
    have hlt := hcall.anatomy.start_lt_headEnd
    refine ⟨hstart, by omega, hcall.anatomy.headEnd_le_stop, lt_of_matchAt? h, ?_⟩
    intro j hij hj
    exact matchAt?_inside hcall (by omega) hj
  · have horder := scan_callsInOrder table s
    refine horder.ordered.imp_of_mem ?_
    intro a b ha hb hab
    have hlt := (horder.isCall a ha).anatomy.start_lt_headEnd
    refine ⟨hab, (IsCallOf.span_laminar (horder.isCall a ha) (horder.isCall b hb) hab).imp id ?_⟩
    intro h
    exact ⟨by omega, h.2⟩

end MageUplift
