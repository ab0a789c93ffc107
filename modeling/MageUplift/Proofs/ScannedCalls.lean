import MageUplift.Migration
import MageUplift.Proofs.CallShape
import MageUplift.Proofs.EditBatch

/-!
# The calls that a scan finds

The scan goes on behind the head of each call it meets, so the heads of the calls it answers are apart
(`scanFrom_pairwise`). What is left to show is that the one further edit of a call, in its argument list,
hits neither the head of a later call nor the further edit of one, however deep the later call is nested
in the list.

  * A closing parenthesis inside a head belongs to a parenthesis of the same head, so it closes no other
    argument list (`Anatomy.open_of_close`).
  * A head has no comma (`Anatomy.comma_outside`).
  * A top-level comma of one list is not a comma of a list nested in it (`topCommas?_outside`).
-/

namespace MageUplift

open Php TokenStream Call Magento List Option

variable {i p : Nat} {e f : CodeEdit} {t : Token} {s : TokenStream} {inv : Invocation} {table : AliasTable}
  {calls : List Invocation}

/-! ## §1. Positions in one call. -/

theorem isMage_kind (h : isMage t) : t.kind = .identifier ∨ t.kind = .qualifiedName := by
  unfold isMage at h
  split at h
  · exact .inl ‹_›
  · exact .inr ‹_›
  · cases h

theorem isTrivia_of_isMage (h : isMage t) : t.isTrivia = false := by
  rw [Token.isTrivia]
  rcases isMage_kind h with hk | hk <;> rw [hk] <;> rfl

theorem Php.TokenStream.Follows.kind_last {m : Nat} {ks : List Kind} (h : s.Follows i ks m)
    (hne : ks ≠ []) : s.kind? m = ks.getLast? := by
  obtain ⟨before, k, rfl⟩ : ∃ before k, ks = before ++ [k] := ⟨_, _, (dropLast_concat_getLast hne).symm⟩
  obtain ⟨j, -, hlast⟩ := h.unsnoc
  rw [(followedBy?_spec hlast).2.1, getLast?_concat]

theorem kind_of_openPath {left : Nat} (h : s.Follows i openPath left) :
    s.kind? left = some .leftParen := h.kind_last (by decide)

def headPaths : List (List Kind) := openPath :: closedPaths

theorem Call.Invocation.mem_codeEdits :
    e ∈ inv.codeEdits ↔ e = ⟨⟨inv.span.start, inv.headEnd⟩, inv.modern⟩ ∨ inv.tail = some e := by
  rw [Invocation.codeEdits, mem_cons, mem_toList]

theorem Call.Invocation.codeEdits_pairwise {R : CodeEdit → CodeEdit → Prop}
    (h : ∀ e, inv.tail = some e → R ⟨⟨inv.span.start, inv.headEnd⟩, inv.modern⟩ e) : inv.codeEdits.Pairwise R := by
  unfold Invocation.codeEdits
  cases htail : inv.tail with
  | none => exact pairwise_singleton _ _
  | some e =>
    refine List.Pairwise.cons (fun f hf => ?_) (pairwise_singleton _ _)
    exact h f (by rwa [toList_some, mem_singleton, eq_comm, ← some.injEq, ← htail] at hf)

namespace Call.Anatomy

variable {s : TokenStream} {inv : Invocation}

theorem head_path (h : Anatomy s inv) :
    ∃ path last, path ∈ headPaths ∧ s.Follows inv.span.start path last ∧ inv.headEnd = last + 1 := by
  cases h with
  | closed mem follows headEnd => exact ⟨_, _, mem_cons_of_mem _ mem, follows, headEnd⟩
  | opened follows _ _ headEnd => exact ⟨_, _, mem_cons_self, follows, headEnd⟩

theorem head_kind (h : Anatomy s inv) {k : Kind} (hlt : inv.span.start < i) (hi : i < inv.headEnd)
    (hk : s.kind? i = some k) : k.isTrivia ∨ k ∈ headPaths.flatten := by
  obtain ⟨path, last, hmem, hfollows, hheadEnd⟩ := h.head_path
  exact (hfollows.kind_mem hlt (by omega) hk).imp_right fun hk => mem_flatten.mpr ⟨path, hmem, hk⟩

theorem start_lt_headEnd (h : Anatomy s inv) : inv.span.start < inv.headEnd := by
  obtain ⟨path, last, -, hfollows, hheadEnd⟩ := h.head_path
  have := hfollows.le
  omega

theorem headEnd_le_stop (h : Anatomy s inv) : inv.headEnd ≤ inv.span.stop := by
  cases h with
  | closed _ _ headEnd stop => omega
  | opened _ closes _ headEnd stop =>
    have := lt_close closes
    omega

theorem stop_le_size (h : Anatomy s inv) (hstart : inv.span.start < s.size) : inv.span.stop ≤ s.size := by
  cases h with
  | closed _ follows _ stop =>
    have := follows.lt_size hstart
    omega
  | opened _ closes _ _ stop =>
    have := lt_close closes
    omega

theorem kind?_close {left close : Nat} (hpath : s.Follows i openPath left)
    (hclose : s.matchingClose? left = some close) : s.kind? close = some .rightParen := by
  obtain ⟨k, hk, hkc⟩ := opener_close hclose
  rw [kind_of_openPath hpath] at hk
  cases hk
  exact hkc

theorem tail_cases (h : Anatomy s inv) (he : inv.tail = some e) :
    ∃ left close commas, inv.headEnd = left + 1 ∧ inv.span.stop = close + 1
      ∧ s.matchingClose? left = some close ∧ topCommas? s close (left + 1) = some commas
      ∧ s.kind? close = some .rightParen ∧ (e.span = .empty close ∨ ∃ comma ∈ commas, e.span = ⟨comma, comma + 1⟩) := by
  cases h with
  | closed _ _ _ _ _ tail =>
    rw [tail] at he
    cases he
  | @opened left close commas follows closes top headEnd stop tail =>
    refine ⟨left, close, commas, headEnd, stop, closes, top, kind?_close follows closes, ?_⟩
    cases tail with
    | untouched _ tail =>
      rw [tail] at he
      cases he
    | atClose code _ tail =>
      rw [tail] at he
      cases he
      exact .inl rfl
    | atComma comma code _ only tail =>
      rw [tail] at he
      cases he
      exact .inr ⟨comma, by simp [only], rfl⟩

theorem tail_comma (h : Anatomy s inv) (he : inv.tail = some e) (hspan : e.span = ⟨p, p + 1⟩) :
    ∃ left close commas, inv.headEnd = left + 1 ∧ s.matchingClose? left = some close
      ∧ topCommas? s close (left + 1) = some commas ∧ p ∈ commas := by
  obtain ⟨left, close, commas, hheadEnd, -, hclose, htop, -, hclosing | ⟨comma, hcomma, hrepl⟩⟩ := h.tail_cases he
  · have h₁ : close = p := congrArg Span.start (hclosing.symm.trans hspan)
    have h₂ : close = p + 1 := congrArg Span.stop (hclosing.symm.trans hspan)
    omega
  · obtain rfl : comma = p := congrArg Span.start (hrepl.symm.trans hspan)
    exact ⟨left, close, commas, hheadEnd, hclose, htop, hcomma⟩

theorem tail_bounds (h : Anatomy s inv) (he : inv.tail = some e) :
    inv.headEnd ≤ e.span.start ∧ e.span.start ≤ e.span.stop ∧ e.span.stop < inv.span.stop := by
  obtain ⟨left, close, commas, hheadEnd, hstop, hclose, htop, -, hspan⟩ := h.tail_cases he
  have hlt := lt_close hclose
  rcases hspan with hspan | ⟨comma, hcomma, hspan⟩
  · rw [hspan]
    exact ⟨by show _ ≤ close; omega, Nat.le_refl _, by show close < _; omega⟩
  · obtain ⟨hle, hlt, -⟩ := topCommas?_spec htop hcomma
    rw [hspan]
    exact ⟨by show _ ≤ comma; omega, Nat.le_succ _, by show comma + 1 < _; omega⟩

theorem codeEdits_inside (h : Anatomy s inv) (he : e ∈ inv.codeEdits) :
    inv.span.start ≤ e.span.start ∧ e.span.start ≤ e.span.stop ∧ e.span.stop ≤ inv.span.stop := by
  have hstart := h.start_lt_headEnd
  have hstop := h.headEnd_le_stop
  rcases Invocation.mem_codeEdits.mp he with rfl | he
  · exact ⟨Nat.le_refl _, Nat.le_of_lt hstart, hstop⟩
  · obtain ⟨h₁, h₂, h₃⟩ := h.tail_bounds he
    exact ⟨by omega, h₂, by omega⟩

/-! ## §2. What a head holds. -/

theorem open_of_close (h : Anatomy s inv) (hsize : inv.span.start < s.size)
    (hstart : inv.span.start < p) (hend : p < inv.headEnd) (hp : s.kind? p = some .rightParen) :
    ∃ o, inv.span.start < o ∧ o < p ∧ s.matchingClose? o = some p := by
  cases h with
  | @closed path last mem follows headEnd =>
    have hbal : Balanced (s.kindsIn (inv.span.start + 1) (last + 1)) := by
      have hpaths : ∀ path ∈ closedPaths, Balanced path := by decide
      rw [← balanced_significant, follows.significant]
      exact hpaths path mem
    obtain ⟨o, ho, hop, hclose⟩ := exists_open_of_balanced (follows.lt_size hsize) hbal
      hstart (by omega) hp rfl
    exact ⟨o, ho, hop, hclose⟩
  | opened follows _ _ headEnd =>
    -- the only parenthesis of such a head opens the argument list
    have hmem := follows.kind_mem hstart (by omega) hp
    exact absurd hmem (by decide)

theorem comma_outside (h : Anatomy s inv) (hmage : ∃ t, s.get? inv.span.start = some t ∧ isMage t)
    (hp : s.kind? p = some .comma) : p < inv.span.start ∨ inv.headEnd ≤ p := by
  refine Decidable.byContradiction fun hin => ?_
  have hne : inv.span.start ≠ p := by
    rintro rfl
    obtain ⟨t, ht, hmage⟩ := hmage
    rw [kind?_get? ht, some.injEq] at hp
    rcases isMage_kind hmage with hk | hk <;> rw [hp] at hk <;> cases hk
  exact absurd (h.head_kind (by omega) (by omega) hp) (by decide)

end Call.Anatomy

/-! ## §3. Two calls. -/

def IsCallOf (table : AliasTable) (s : TokenStream) (inv : Invocation) : Prop :=
  matchAt? table s inv.span.start = some inv

namespace IsCallOf

variable {table : AliasTable} {s : TokenStream} {inv a b : Invocation}

theorem of_matchAt? (h : matchAt? table s i = some inv) : IsCallOf table s inv := by
  have hstart := (matchAt?_anatomy h).1
  unfold IsCallOf
  rw [hstart, h]

theorem anatomy (h : IsCallOf table s inv) : Anatomy s inv := (matchAt?_anatomy h).2.2.2

theorem isMage (h : IsCallOf table s inv) : ∃ t, s.get? inv.span.start = some t ∧ Call.isMage t :=
  (matchAt?_anatomy h).2.1

theorem start_lt_size (h : IsCallOf table s inv) : inv.span.start < s.size := by
  obtain ⟨t, ht, -⟩ := h.isMage
  exact lt_kind? (kind?_get? ht)

variable (ha : IsCallOf table s a) (hb : IsCallOf table s b)

include ha hb

theorem tail_apart_head (hab : a.headEnd ≤ b.span.start) (he : a.tail = some e) :
    e.span.Apart ⟨b.span.start, b.headEnd⟩ := by
  obtain ⟨left, close, commas, hheadEnd, -, hclose, htop, hkind, hspan⟩ := ha.anatomy.tail_cases he
  rcases hspan with hspan | ⟨comma, hcomma, hspan⟩
  · rw [hspan]
    show close ≤ b.span.start ∨ b.headEnd ≤ close
    refine Decidable.byContradiction fun hin => ?_
    obtain ⟨o, ho, -, hoc⟩ :=
      hb.anatomy.open_of_close hb.start_lt_size (show b.span.start < close by omega) (by omega) hkind
    -- one token would close two parentheses
    have := close_injective hclose hoc
    omega
  · rw [hspan]
    show comma + 1 ≤ b.span.start ∨ b.headEnd ≤ comma
    have := hb.anatomy.comma_outside hb.isMage (topCommas?_spec htop hcomma).2.2
    omega

theorem tail_apart_tail (hab : a.headEnd ≤ b.span.start) (he : a.tail = some e) (hf : b.tail = some f) :
    e.span.Apart f.span := by
  obtain ⟨left, close, commas, hheadEnd, -, hclose, htop, -, hspan⟩ := ha.anatomy.tail_cases he
  obtain ⟨left', close', commas', hheadEnd', -, hclose', htop', -, hspan'⟩ := hb.anatomy.tail_cases hf
  have hstart' := hb.anatomy.start_lt_headEnd
  rcases hspan with hspan | ⟨comma, hcomma, hspan⟩ <;>
    rcases hspan' with hspan' | ⟨comma', hcomma', hspan'⟩ <;> rw [hspan, hspan']
  · show close ≤ close' ∨ close' ≤ close
    omega
  · show close ≤ comma' ∨ comma' + 1 ≤ close
    omega
  · show comma + 1 ≤ close' ∨ close' ≤ comma
    omega
  · show comma + 1 ≤ comma' ∨ comma' + 1 ≤ comma
    obtain ⟨hle', hlt', -⟩ := topCommas?_spec htop' hcomma'
    -- otherwise the comma of the outer list stands between the parentheses of the inner one
    have hne : comma ≠ comma' := by
      rintro rfl
      have := topCommas?_outside htop hcomma (show left + 1 ≤ left' by omega) (by omega) hclose'
      omega
    omega

theorem codeEdits_apart (hab : a.headEnd ≤ b.span.start) (he : e ∈ a.codeEdits) (hf : f ∈ b.codeEdits) :
    e.span.Apart f.span := by
  have hstart := hb.anatomy.start_lt_headEnd
  rcases Invocation.mem_codeEdits.mp he with rfl | he
  · exact .inl (Nat.le_trans hab (hb.anatomy.codeEdits_inside hf).1)
  · rcases Invocation.mem_codeEdits.mp hf with rfl | hf
    · exact ha.tail_apart_head hb hab he
    · exact ha.tail_apart_tail hb hab he hf

theorem tail_start_ne (he : a.tail = some e) : e.span.start ≠ b.span.start := by
  obtain ⟨t, ht, hmage⟩ := hb.isMage
  have hkind : ∀ k, s.kind? e.span.start = some k → k = .rightParen ∨ k = .comma → e.span.start ≠ b.span.start := by
    rintro k hk hcases heq
    rw [heq, kind?_get? ht, some.injEq] at hk
    rcases isMage_kind hmage with hname | hname <;> rw [← hk, hname] at hcases <;> revert hcases <;> decide
  obtain ⟨left, close, commas, -, -, -, htop, hclose, hspan | ⟨comma, hcomma, hspan⟩⟩ := ha.anatomy.tail_cases he
  · exact hkind .rightParen (by rw [hspan]; exact hclose) (.inl rfl)
  · exact hkind .comma (by rw [hspan]; exact (topCommas?_spec htop hcomma).2.2) (.inr rfl)

theorem tails_start_ne (hab : a.headEnd ≤ b.span.start) (he : a.tail = some e) (hf : b.tail = some f) :
    e.span.start ≠ f.span.start := by
  have hapart := ha.tail_apart_tail hb hab he hf
  obtain ⟨left, close, commas, hheadEnd, -, hclose, htop, hkind, hspan⟩ := ha.anatomy.tail_cases he
  obtain ⟨left', close', commas', hheadEnd', -, hclose', htop', hkind', hspan'⟩ := hb.anatomy.tail_cases hf
  have hstart' := hb.anatomy.start_lt_headEnd
  intro heq
  rcases hspan with hspan | ⟨comma, hcomma, hspan⟩ <;>
    rcases hspan' with hspan' | ⟨comma', hcomma', hspan'⟩ <;> rw [hspan, hspan'] at heq hapart
  · -- one parenthesis would close two lists
    change close = close' at heq
    have := close_injective hclose (heq ▸ hclose')
    omega
  · change close = comma' at heq
    rw [heq, (topCommas?_spec htop' hcomma').2.2] at hkind
    cases hkind
  · change comma = close' at heq
    rw [← heq, (topCommas?_spec htop hcomma).2.2] at hkind'
    cases hkind'
  · change comma = comma' at heq
    rcases hapart with h | h
    · change comma + 1 ≤ comma' at h
      omega
    · change comma' + 1 ≤ comma at h
      omega

end IsCallOf

/-! ## §4. The scan. -/

/-- Calls of a stream in order, each behind the head of the one before. -/
structure CallsInOrder (table : AliasTable) (s : TokenStream) (calls : List Invocation) : Prop where
  isCall : ∀ inv ∈ calls, IsCallOf table s inv
  ordered : calls.Pairwise fun a b => a.headEnd ≤ b.span.start

theorem mem_scanFrom {bodies : List Span} (h : inv ∈ scanFrom table s bodies i) :
    IsCallOf table s inv ∧ i ≤ inv.span.start ∧ inv.isConvertible bodies := by
  fun_induction scanFrom table s bodies i with
  | case1 i hi hnone ih =>
    obtain ⟨hcall, hle, hconv⟩ := ih h
    exact ⟨hcall, by omega, hconv⟩
  | case2 i hi found hfound rest hconv ih =>
    rw [mem_cons] at h
    rcases h with rfl | h
    · exact ⟨.of_matchAt? hfound, Nat.le_of_eq (matchAt?_anatomy hfound).1.symm, hconv⟩
    · obtain ⟨hcall, hle, hconv'⟩ := ih h
      exact ⟨hcall, by omega, hconv'⟩
  | case3 i hi found hfound rest hconv ih =>
    obtain ⟨hcall, hle, hconv'⟩ := ih h
    exact ⟨hcall, by omega, hconv'⟩
  | case4 => cases h

theorem scanFrom_pairwise (table : AliasTable) (s : TokenStream) (bodies : List Span) (i : Nat) :
    (scanFrom table s bodies i).Pairwise fun a b => a.headEnd ≤ b.span.start := by
  fun_induction scanFrom table s bodies i with
  | case1 i hi hnone ih => exact ih
  | case2 i hi found hfound rest hconv ih =>
    refine List.Pairwise.cons (fun b hb => ?_) ih
    have := (mem_scanFrom hb).2.1
    omega
  | case3 i hi found hfound rest hconv ih => exact ih
  | case4 => exact List.Pairwise.nil

theorem isCall_mem (h : inv ∈ scan table s) : IsCallOf table s inv :=
  (mem_scanFrom h).1

theorem scan_callsInOrder (table : AliasTable) (s : TokenStream) : CallsInOrder table s (scan table s) :=
  ⟨fun _ => isCall_mem, scanFrom_pairwise table s (staticBodies s) 0⟩

/-- **The edits of calls in order can be applied together**, however the calls are nested. -/
theorem CallsInOrder.edits_fit
    (h : CallsInOrder table s calls) : Edit.Fits s.size (calls.flatMap Invocation.edits) := by
  refine ⟨fun e he => ?_, ?_⟩
  · obtain ⟨inv, hinv, he⟩ := mem_flatMap.mp he
    obtain ⟨c, hc, rfl⟩ := List.mem_map.mp he
    have hcall := h.isCall inv hinv
    have hbounds := hcall.anatomy.codeEdits_inside hc
    have hsize := hcall.anatomy.stop_le_size hcall.start_lt_size
    exact Span.fits_iff.mpr ⟨hbounds.2.1, Nat.le_trans hbounds.2.2 hsize⟩
  · rw [pairwise_flatMap]
    refine ⟨fun inv hinv => ?_, h.ordered.imp_of_mem fun {a b} ha hb hab e he f hf => ?_⟩
    · have hcall := h.isCall inv hinv
      exact pairwise_map.mpr (Invocation.codeEdits_pairwise fun e he => .inl (hcall.anatomy.tail_bounds he).1)
    · obtain ⟨c, hc, rfl⟩ := List.mem_map.mp he
      obtain ⟨d, hd, rfl⟩ := List.mem_map.mp hf
      exact (h.isCall a ha).codeEdits_apart (h.isCall b hb) hab hc hd

theorem CallsInOrder.edits_distinct (h : CallsInOrder table s calls) :
    (calls.flatMap Invocation.edits).Pairwise fun a b => a.span.start ≠ b.span.start := by
  rw [pairwise_flatMap]
  refine ⟨fun inv hinv => pairwise_map.mpr ?_, h.ordered.imp_of_mem fun {a b} ha hb hab e he f hf => ?_⟩
  · have hcall := h.isCall inv hinv
    exact Invocation.codeEdits_pairwise fun e he => Ne.symm (hcall.tail_start_ne hcall he)
  · have hcalla := h.isCall a ha
    have hcallb := h.isCall b hb
    have hstart := hcalla.anatomy.start_lt_headEnd
    obtain ⟨c, hc, rfl⟩ := List.mem_map.mp he
    obtain ⟨d, hd, rfl⟩ := List.mem_map.mp hf
    show c.span.start ≠ d.span.start
    have hin := hcallb.anatomy.codeEdits_inside hd
    rcases Invocation.mem_codeEdits.mp hc with rfl | hc
    · show a.span.start ≠ _
      omega
    · rcases Invocation.mem_codeEdits.mp hd with rfl | hd
      · exact hcalla.tail_start_ne hcallb hc
      · exact hcalla.tails_start_ne hcallb hab hc hd

end MageUplift
