import Mathlib.Data.List.Sort
import Mathlib.Data.Multiset.Basic
import MageUplift.Proofs.EditBatch

/-!
# When a batch of edits is refused

`EditBatch` says what a batch gives that fits. Here are the other batches: which of them are refused, and
for what reason. `Edit.normalize` looks only at neighbours of the sorted batch, and joins insertions while it
goes along; the reason that it gives can nevertheless be told from the spans alone, without the order in
which the edits were given and without what they insert (`Edit.Refusal`).
-/

namespace MageUplift

open List Edit Bool

variable {a b : Span} {size : Nat} {err : Error} {spans : List Span}

namespace Span

theorem le_antisymm (hab : a.le b) (hba : b.le a) : a = b := by
  rw [le_iff] at hab hba
  cases a
  cases b
  rw [Span.mk.injEq]
  dsimp only at hab hba
  omega

theorem le_refl (a : Span) : a.le a := by
  rw [le_iff]
  exact .inr ⟨rfl, le_rfl⟩

theorem apart_iff (ha : a.fits size) (hb : b.fits size) :
    a.Apart b ↔ (a.le b → a.stop ≤ b.start) ∧ (b.le a → b.stop ≤ a.start) := by
  constructor
  · intro h
    exact ⟨fun hle => h.stop_le_start hle hb, fun hle => h.symm.stop_le_start hle ha⟩
  · rintro ⟨h₁, h₂⟩
    rcases or_eq_true _ _ ▸ le_total a b with hle | hle
    · exact .inl (h₁ hle)
    · exact .inr (h₂ hle)

/-- Each span begins at or behind the end of the one before it. -/
abbrev InTurn (spans : List Span) : Prop := spans.IsChain fun a b => a.stop ≤ b.start

end Span

namespace Edit

variable {α : Type} {edits : List (Edit α)}

/-! ## §1. The reasons. -/

/-- Why a batch with these spans is refused for `size` items: the least span that does not fit, or, if all fit,
the first two neighbours in the order of the spans of which the later begins before the earlier ends. -/
inductive Refusal (size : Nat) (spans : Multiset Span) : Error → Prop where
  | outOfBounds {s : Span} (mem : s ∈ spans) (bad : s.fits size = false)
      (least : ∀ t ∈ spans, t.fits size = false → s.le t = true) : Refusal size spans (.outOfBounds s size)
  | overlapping {front back : List Span} {a b : Span} (fit : ∀ t ∈ spans, t.fits size = true)
      (order : (front ++ a :: b :: back : List Span) = spans)
      (sorted : (front ++ a :: b :: back).Pairwise fun x y => x.le y = true)
      (before : Span.InTurn (front ++ [a])) (meets : b.start < a.stop) : Refusal size spans (.overlapping a b)

/-! ## §2. Joining insertions and meeting an overlap. -/

/-- A list of spans that is in turn up to a pair that is not. The pair is determined: see `coalesce_of_meets`. -/
structure FirstMeeting (spans : List Span) (a b : Span) : Prop where
  split : ∃ front back, spans = front ++ a :: b :: back ∧ Span.InTurn (front ++ [a])
  meets : b.start < a.stop

theorem FirstMeeting.cons {f x : Span} {spans : List Span} (h : FirstMeeting (x :: spans) a b)
    (hf : f.stop ≤ x.start) : FirstMeeting (f :: x :: spans) a b := by
  obtain ⟨⟨front, back, hsplit, hturn⟩, hmeets⟩ := h
  refine ⟨⟨f :: front, back, by rw [hsplit]; rfl, ?_⟩, hmeets⟩
  cases front with
  | nil =>
    obtain ⟨rfl, -⟩ := cons.inj hsplit
    exact .cons_cons hf (.singleton _)
  | cons y front =>
    obtain ⟨rfl, -⟩ := cons.inj hsplit
    exact .cons_cons hf hturn

theorem firstMeeting_of_coalesce {rest : List (Edit α)} : ∀ {last : Edit α}, coalesce last rest = .error err →
      ∃ a b, err = .overlapping a b ∧ FirstMeeting (last.span :: rest.map span) a b := by
  induction rest with
  | nil =>
    intro last h
    cases h
  | cons e rest ih =>
    intro last h
    rw [coalesce] at h
    rw [map_cons]
    split at h
    · -- two insertions at one place: the joined one has the same span
      rename_i hsame
      obtain ⟨a, b, herr, hmeeting⟩ := ih h
      rw [and_eq_true, beq_iff_eq] at hsame
      refine ⟨a, b, herr, ?_⟩
      rw [← hsame.2]
      refine hmeeting.cons (Nat.le_of_eq ?_)
      have hempty := hsame.1
      rw [Span.isEmpty, beq_iff_eq] at hempty
      exact hempty.symm
    · split at h
      · rename_i hlt
        cases h
        exact ⟨_, _, rfl, ⟨[], _, rfl, .singleton _⟩, hlt⟩
      · rename_i hlt
        cases hrest : coalesce e rest with
        | ok out =>
          rw [hrest] at h
          cases h
        | error err' =>
          rw [hrest] at h
          cases h
          obtain ⟨a, b, herr, hmeeting⟩ := ih hrest
          exact ⟨a, b, herr, hmeeting.cons (Nat.le_of_not_lt hlt)⟩

theorem coalesce_of_meets (hmeets : b.start < a.stop) {back : List Span} {front : List Span} :
    ∀ {last : Edit α} {rest : List (Edit α)}, last.span :: rest.map span = front ++ a :: b :: back →
      Span.InTurn (front ++ [a]) → coalesce last rest = .error (.overlapping a b) := by
  induction front with
  | nil =>
    intro last rest hsplit _
    obtain ⟨rfl, hrest⟩ := cons.inj hsplit
    obtain ⟨e, rest, rfl, rfl, -⟩ := map_eq_cons_iff.mp hrest
    have hdiff : ¬ (last.span.isEmpty && last.span == e.span) := by
      rw [and_eq_true, beq_iff_eq, Span.isEmpty, beq_iff_eq]
      rintro ⟨hempty, hsame⟩
      rw [← hsame] at hmeets
      omega
    rw [coalesce, if_neg hdiff, if_pos hmeets]
  | cons f front ih =>
    intro last rest hsplit hturn
    obtain ⟨rfl, hrest⟩ := cons.inj hsplit
    cases rest with
    | nil =>
      rw [map_nil] at hrest
      exact absurd hrest.symm (by simp)
    | cons e rest =>
      rw [map_cons] at hrest
      have hrestTurn : Span.InTurn (front ++ [a]) := hturn.of_cons
      have hnext : last.span.stop ≤ e.span.start := by
        cases front with
        | nil =>
          obtain ⟨rfl, -⟩ := cons.inj hrest
          exact (isChain_cons_cons.mp hturn).1
        | cons y front =>
          obtain ⟨rfl, -⟩ := cons.inj hrest
          exact (isChain_cons_cons.mp hturn).1
      rw [coalesce]
      split
      · rename_i hsame
        rw [and_eq_true, beq_iff_eq] at hsame
        refine ih ?_ hrestTurn
        rw [hsame.2]
        exact hrest
      · rw [if_neg (Nat.not_lt.mpr hnext), ih hrest hrestTurn]
        rfl

theorem inTurn_of_coalesce {rest : List (Edit α)} : ∀ {last : Edit α} {out : List (Edit α)},
    coalesce last rest = .ok out → Span.InTurn (last.span :: rest.map span) := by
  induction rest with
  | nil =>
    intro last out _
    exact .singleton _
  | cons e rest ih =>
    intro last out h
    rw [coalesce] at h
    rw [map_cons]
    split at h
    · rename_i hsame
      rw [and_eq_true, beq_iff_eq, Span.isEmpty, beq_iff_eq] at hsame
      have hturn := ih h
      rw [hsame.2] at hturn
      exact .cons_cons (by rw [← hsame.2, hsame.1]) hturn
    · split at h
      · cases h
      · rename_i hlt
        cases hrest : coalesce e rest with
        | error err =>
          rw [hrest] at h
          cases h
        | ok out' => exact .cons_cons (Nat.le_of_not_lt hlt) (ih hrest)

/-! ## §3. The whole batch. -/

def spansInOrder (edits : List (Edit α)) : List Span := (sorted edits).map span

theorem spansInOrder_perm (edits : List (Edit α)) : (spansInOrder edits).Perm (edits.map span) :=
  (sorted_perm edits).map span

theorem spansInOrder_pairwise (edits : List (Edit α)) : (spansInOrder edits).Pairwise fun a b => a.le b :=
  pairwise_map.mpr (sorted_pairwise edits)

theorem eq_spansInOrder (hperm : spans.Perm (edits.map span))
    (hsorted : spans.Pairwise fun a b => a.le b) : spans = spansInOrder edits :=
  (hperm.trans (spansInOrder_perm edits).symm).eq_of_pairwise (fun _ _ _ _ => Span.le_antisymm) hsorted
    (spansInOrder_pairwise edits)

theorem rel_of_find? {β : Type} {r : β → β → Prop} {p : β → Bool} {xs : List β} {x y : β} (hr : r x x)
    (hpair : xs.Pairwise r) (hfind : xs.find? p = some x) (hy : y ∈ xs) (hp : p y) : r x y := by
  induction xs with
  | nil => cases hy
  | cons z xs ih =>
    obtain ⟨hz, hpair⟩ := pairwise_cons.mp hpair
    rw [find?_cons] at hfind
    split at hfind
    · cases hfind
      rcases mem_cons.mp hy with rfl | hy
      · exact hr
      · exact hz y hy
    · rename_i hnot
      rcases mem_cons.mp hy with rfl | hy
      · rw [hp] at hnot
        cases hnot
      · exact ih hpair hfind hy

theorem normalize_eq (size : Nat) (edits : List (Edit α)) :
    normalize size edits
      = match (sorted edits).find? fun e => !e.span.fits size with
        | some e => .error (.outOfBounds e.span size)
        | none =>
          match sorted edits with
          | [] => .ok []
          | e :: rest => coalesce e rest := rfl

theorem mem_spans {s : Span} : s ∈ (edits.map span : Multiset Span) ↔ ∃ e ∈ sorted edits, e.span = s := by
  rw [Multiset.mem_coe, ← (spansInOrder_perm edits).mem_iff]
  exact mem_map

theorem refusal_of_normalize (h : normalize size edits = .error err) : Refusal size (edits.map span) err := by
  rw [normalize_eq] at h
  split at h
  · -- the first span in order that does not fit is the least
    rename_i e hfind
    cases h
    have hbad := find?_some hfind
    rw [not_eq_true'] at hbad
    apply Refusal.outOfBounds (mem_spans.mpr ⟨e, mem_of_find?_eq_some hfind, rfl⟩) hbad
    intro t ht htbad
    obtain ⟨f, hf, rfl⟩ := mem_spans.mp ht
    exact rel_of_find? (r := fun a b => a.span.le b.span = true) (Span.le_refl _) (sorted_pairwise edits) hfind hf
      (by rw [htbad]; rfl)
  · rename_i hfind
    split at h
    · cases h
    · rename_i e rest hcons
      obtain ⟨a, b, rfl, ⟨front, back, hsplit, hturn⟩, hmeets⟩ := firstMeeting_of_coalesce h
      have horder : front ++ a :: b :: back = spansInOrder edits := by
        rw [← hsplit, spansInOrder, hcons]
        rfl
      refine @Refusal.overlapping _ _ front back a b ?_ ?_ ?_ hturn hmeets
      · intro t ht
        obtain ⟨f, hf, rfl⟩ := mem_spans.mp ht
        simpa using find?_eq_none.mp hfind f hf
      · rw [horder]
        exact Multiset.coe_eq_coe.mpr (spansInOrder_perm edits)
      · rw [horder]
        exact spansInOrder_pairwise edits

theorem normalize_of_refusal (h : Refusal size (edits.map span) err) : normalize size edits = .error err := by
  rw [normalize_eq]
  cases h with
  | @outOfBounds s mem bad least =>
    obtain ⟨f, hf, rfl⟩ := mem_spans.mp mem
    cases hfind : (sorted edits).find? fun e => !e.span.fits size with
    | none =>
      have hfits := find?_eq_none.mp hfind f hf
      rw [bad] at hfits
      exact absurd rfl hfits
    | some e =>
      -- what is found is least, like `f`
      have hbad := find?_some hfind
      rw [not_eq_true'] at hbad
      have hef : e.span.le f.span :=
        rel_of_find? (r := fun a b => a.span.le b.span = true) (Span.le_refl _) (sorted_pairwise edits) hfind hf
          (by rw [bad]; rfl)
      have hfe := least e.span (mem_spans.mpr ⟨e, mem_of_find?_eq_some hfind, rfl⟩) hbad
      show Except.error (Error.outOfBounds e.span size) = _
      rw [Span.le_antisymm hef hfe]
  | @overlapping front back a b fit order sorted' before meets =>
    have hfind : ((sorted edits).find? fun e => !e.span.fits size) = none := by
      rw [find?_eq_none]
      intro e he
      rw [fit e.span (mem_spans.mpr ⟨e, he, rfl⟩)]
      simp
    have hspans : (sorted edits).map span = front ++ a :: b :: back :=
      (eq_spansInOrder (Multiset.coe_eq_coe.mp order) sorted').symm
    rw [hfind]
    cases hcons : sorted edits with
    | nil =>
      rw [hcons] at hspans
      exact absurd hspans.symm (by simp)
    | cons e rest =>
      rw [hcons] at hspans
      exact coalesce_of_meets meets hspans before

theorem normalize_error_iff : normalize size edits = .error err ↔ Refusal size (edits.map span) err :=
  ⟨refusal_of_normalize, normalize_of_refusal⟩

theorem applyAll_error_iff {items : List α} :
    applyAll items edits = .error err ↔ normalize items.length edits = .error err := by
  unfold applyAll
  cases normalize items.length edits with
  | error e =>
    show Except.error e = _ ↔ _
    rw [Except.error.injEq, Except.error.injEq]
  | ok out =>
    constructor
    · intro h
      cases h
    · intro h
      cases h

/-! ## §4. Batches that are applied. -/

theorem pairwise_of_inTurn (hfits : ∀ s ∈ spans, s.fits size)
    (h : Span.InTurn spans) : spans.Pairwise fun a b => a.stop ≤ b.start := by
  induction spans with
  | nil => exact .nil
  | cons s spans ih =>
    have hrest := ih (forall_mem_cons.mp hfits).2 h.of_cons
    refine pairwise_cons.mpr ⟨?_, hrest⟩
    intro t ht
    cases spans with
    | nil => cases ht
    | cons u spans =>
      have hnext : s.stop ≤ u.start := (isChain_cons_cons.mp h).1
      rcases mem_cons.mp ht with rfl | ht
      · exact hnext
      · have hu := Span.fits_iff.mp (hfits u (by simp))
        have hut := (pairwise_cons.mp hrest).1 t ht
        omega

theorem fits_of_normalize {out : List (Edit α)} (h : normalize size edits = .ok out) : Fits size edits := by
  rw [normalize_eq] at h
  split at h
  · cases h
  · rename_i hfind
    have hfits : ∀ s ∈ spansInOrder edits, s.fits size := by
      intro s hs
      obtain ⟨e, he, rfl⟩ := List.mem_map.mp hs
      simpa using find?_eq_none.mp hfind e he
    have hturn : Span.InTurn (spansInOrder edits) := by
      rw [spansInOrder]
      split at h
      · rename_i hnil
        rw [hnil]
        exact .nil
      · rename_i e rest hcons
        rw [hcons]
        exact inTurn_of_coalesce h
    have hapart : (spansInOrder edits).Pairwise Span.Apart := (pairwise_of_inTurn hfits hturn).imp .inl
    refine ⟨?_, ?_⟩
    · intro e he
      exact hfits _ ((spansInOrder_perm edits).mem_iff.mpr (mem_map_of_mem he))
    · exact pairwise_map.mp ((spansInOrder_perm edits).pairwise hapart Span.Apart.symm)

theorem applyAll_ok_iff {items : List α} : (∃ out, applyAll items edits = .ok out) ↔ Fits items.length edits := by
  constructor
  · intro h
    obtain ⟨out, hout⟩ := h
    unfold applyAll at hout
    cases hnorm : normalize items.length edits with
    | error err =>
      rw [hnorm] at hout
      cases hout
    | ok normal => exact fits_of_normalize hnorm
  · intro h
    exact ⟨_, applyAll_eq_weave h⟩

theorem fits_iff_inOrder : Fits size edits ↔ (∀ e ∈ edits, e.span.start ≤ e.span.stop ∧ e.span.stop ≤ size)
      ∧ edits.Pairwise fun a b => (a.span.le b.span → a.span.stop ≤ b.span.start)
          ∧ (b.span.le a.span → b.span.stop ≤ a.span.start) := by
  constructor
  · intro h
    refine ⟨fun e he => Span.fits_iff.mp (h.inBounds e he), h.apart.imp_of_mem ?_⟩
    intro a b ha hb hab
    exact (Span.apart_iff (h.inBounds a ha) (h.inBounds b hb)).mp hab
  · intro h
    have hbounds : ∀ e ∈ edits, e.span.fits size := fun e he => Span.fits_iff.mpr (h.1 e he)
    refine ⟨hbounds, h.2.imp_of_mem ?_⟩
    intro a b ha hb hab
    exact (Span.apart_iff (hbounds a ha) (hbounds b hb)).mpr hab

theorem Fits.flatMap_replacesAt (h : Fits size edits) (i : Nat) :
    (edits.filter (replacesAt i)).flatMap replacement = (edits.find? (replacesAt i)).elim [] replacement := by
  rw [← head?_filter]
  have hapart := h.replacesAt_pairwise i
  cases hlist : edits.filter (replacesAt i) with
  | nil => rfl
  | cons e rest =>
    rw [hlist] at hapart
    cases rest with
    | nil => simp
    | cons f rest => exact absurd mem_cons_self ((pairwise_cons.mp hapart).1 f)

/-- **A batch is one simultaneous splice.** It is applied if and only if its spans are in bounds and, in order,
each two of them begin after one another's end. What it gives is said position by position; why it is
refused is said from the spans alone. -/
theorem applyAll_simultaneous (items : List α) (edits : List (Edit α)) :
    ((∃ out, applyAll items edits = .ok out) ↔
        (∀ e ∈ edits, e.span.start ≤ e.span.stop ∧ e.span.stop ≤ items.length)
          ∧ edits.Pairwise fun a b => (a.span.le b.span = true → a.span.stop ≤ b.span.start)
              ∧ (b.span.le a.span = true → b.span.stop ≤ a.span.start))
      ∧ (∀ out, applyAll items edits = .ok out →
          out = (range (items.length + 1)).flatMap fun i =>
            (edits.filter (insertsAt i)).flatMap replacement
              ++ (edits.find? (replacesAt i)).elim [] replacement
              ++ if covers edits i then [] else items[i]?.toList)
      ∧ ∀ err, applyAll items edits = .error err ↔ Refusal items.length (edits.map Edit.span) err := by
  refine ⟨applyAll_ok_iff.trans fits_iff_inOrder, ?_, ?_⟩
  · intro out hout
    have hfits : Fits items.length edits := applyAll_ok_iff.mp ⟨out, hout⟩
    rw [applyAll_eq_weave hfits, Except.ok.injEq] at hout
    rw [← hout, weave_eq_flatMap]
    congr 1
    funext i
    rw [pieceAt, generatedAt, hfits.flatMap_replacesAt]
  · intro err
    exact applyAll_error_iff.trans normalize_error_iff

end Edit

end MageUplift
