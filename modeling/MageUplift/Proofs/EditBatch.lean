import MageUplift.Edit

/-!
# A batch of edits is one simultaneous splice

`Edit.applyAll` sorts a batch, joins insertions, checks neighbours for overlap and runs a cursor over the
items. Seen from outside none of that matters: a batch whose spans are in bounds and apart from each
other is accepted, and its result is `Edit.weave`, which says position by position what stands there.
-/

namespace MageUplift

open List

variable {a b s : Span} {i p size : Nat}

/-! ## §1. Batches that fit. -/

namespace Span

/-- One span ends before the other begins. Two insertions at one place are apart. -/
def Apart (a b : Span) : Prop := a.stop ≤ b.start ∨ b.stop ≤ a.start

instance (a b : Span) : Decidable (a.Apart b) := inferInstanceAs (Decidable (_ ∨ _))

theorem Apart.symm (h : a.Apart b) : b.Apart a := Or.symm h

theorem eq_empty (h : s.stop = s.start) : s = .empty s.start := by
  cases s
  simp_all [empty]

theorem fits_iff : s.fits size ↔ s.start ≤ s.stop ∧ s.stop ≤ size := by
  simp [fits]

theorem le_iff : a.le b ↔ a.start < b.start ∨ (a.start = b.start ∧ a.stop ≤ b.stop) := by
  simp [le]

theorem le_total (a b : Span) : (a.le b || b.le a) := by
  rw [Bool.or_eq_true, le_iff, le_iff]
  omega

theorem le_trans {c : Span} (hab : a.le b) (hbc : b.le c) : a.le c := by
  rw [le_iff] at *
  omega

theorem Apart.stop_le_start (h : a.Apart b) (hle : a.le b) (hb : b.fits size) : a.stop ≤ b.start := by
  rw [le_iff] at hle
  rw [fits_iff] at hb
  unfold Apart at h
  omega

end Span

namespace Edit

variable {α : Type} {e : Edit α} {edits : List (Edit α)}

/-- A batch that can be applied to `size` items: every span is in bounds, and any two are apart. -/
structure Fits (size : Nat) (edits : List (Edit α)) : Prop where
  inBounds : ∀ e ∈ edits, e.span.fits size = true
  apart : edits.Pairwise fun a b => a.span.Apart b.span

/-! ## §2. The result, position by position. -/

def insertsAt (i : Nat) (e : Edit α) : Bool := e.span == .empty i

def replacesAt (i : Nat) (e : Edit α) : Bool := e.span.start == i && !e.span.isEmpty

/-- What a batch puts in front of position `i`: the insertions there in the order given, then what takes
the place of a span that starts there. -/
def generatedAt (edits : List (Edit α)) (i : Nat) : List α :=
  (edits.filter (insertsAt i)).flatMap replacement ++ (edits.filter (replacesAt i)).flatMap replacement

/-- Position `i` lies in the span of an edit. -/
def covers (edits : List (Edit α)) (i : Nat) : Bool :=
  edits.any fun e => e.span.start ≤ i && i < e.span.stop

/-- What stands at position `i` after the edits, where `item?` is what stood there before. -/
def pieceAt (edits : List (Edit α)) (item? : Option α) (i : Nat) : List α :=
  generatedAt edits i ++ if covers edits i then [] else item?.toList

/-- The pieces of `rest`, which stands from position `i` on, and of the position after it. -/
def weaveFrom (edits : List (Edit α)) (i : Nat) : List α → List α
  | [] => pieceAt edits none i
  | x :: rest => pieceAt edits (some x) i ++ weaveFrom edits (i + 1) rest

def weave (items : List α) (edits : List (Edit α)) : List α := weaveFrom edits 0 items

/-! ## §3. Pieces of a sorted batch. -/

theorem covers_iff : covers edits i ↔ ∃ e ∈ edits, e.span.start ≤ i ∧ i < e.span.stop := by
  simp only [covers, any_eq_true, Bool.and_eq_true, decide_eq_true_eq]

theorem covers_eq_false_iff : covers edits i = false ↔ ∀ e ∈ edits, e.span.start ≤ i → e.span.stop ≤ i := by
  simp only [covers, any_eq_false, Bool.and_eq_true, decide_eq_true_eq, not_and, Nat.not_lt]

@[simp] theorem generatedAt_nil (i : Nat) : generatedAt ([] : List (Edit α)) i = [] := rfl

theorem insertsAt_of_ne (hne : e.span.start < e.span.stop) : insertsAt i e = false := by
  simp only [insertsAt, beq_eq_false_iff_ne, ne_eq]
  intro hs
  rw [hs] at hne
  exact Nat.lt_irrefl _ hne

theorem replacesAt_of_ne (h : e.span.start ≠ i) : replacesAt i e = false := by
  simp [replacesAt, h]

theorem weaveFrom_nil (i : Nat) (rest : List α) : weaveFrom [] i rest = rest := by
  induction rest generalizing i with
  | nil => rfl
  | cons x rest ih =>
    rw [weaveFrom, ih]
    rfl

theorem generatedAt_insert (edits : List (Edit α)) (he : e.span = .empty p) :
    generatedAt (e :: edits) i = (if i = p then e.replacement else []) ++ generatedAt edits i := by
  have hrep : replacesAt i e = false := by simp [replacesAt, he, Span.empty, Span.isEmpty]
  have hins : insertsAt i e = decide (i = p) := by
    rw [Bool.eq_iff_iff, decide_eq_true_iff, insertsAt, beq_iff_eq, he]
    simp only [Span.empty, Span.mk.injEq, and_self]
    exact eq_comm
  unfold generatedAt
  rw [filter_cons, filter_cons, hrep, hins]
  by_cases hip : i = p <;> simp [hip]

theorem covers_insert (edits : List (Edit α)) (he : e.span = .empty p) : covers (e :: edits) i = covers edits i := by
  have : (decide (p ≤ i) && decide (i < p)) = false := by
    simp only [Bool.and_eq_false_iff, decide_eq_false_iff_not]
    omega
  simp [covers, he, Span.empty, this]

theorem mem_generatedAt {x : α} (h : x ∈ generatedAt edits i) : ∃ e ∈ edits, e.span.start = i ∧ x ∈ e.replacement := by
  unfold generatedAt at h
  rw [mem_append, mem_flatMap, mem_flatMap] at h
  rcases h with ⟨e, he, hx⟩ | ⟨e, he, hx⟩
  · obtain ⟨hmem, hins⟩ := mem_filter.mp he
    rw [insertsAt, beq_iff_eq] at hins
    exact ⟨e, hmem, by rw [hins]; rfl, hx⟩
  · obtain ⟨hmem, hrep⟩ := mem_filter.mp he
    rw [replacesAt, Bool.and_eq_true, beq_iff_eq] at hrep
    exact ⟨e, hmem, hrep.1, hx⟩

theorem exists_generatedAt (h : generatedAt edits i ≠ []) : ∃ e ∈ edits, e.span.start = i := by
  obtain ⟨x, hx⟩ := exists_mem_of_ne_nil _ h
  obtain ⟨e, he, hstart, -⟩ := mem_generatedAt hx
  exact ⟨e, he, hstart⟩

theorem generatedAt_ne (h : ∀ e ∈ edits, e.span.start ≠ i) : generatedAt edits i = [] := by
  cases hgen : generatedAt edits i with
  | nil => rfl
  | cons x rest =>
    have hne : generatedAt edits i ≠ [] := hgen ▸ cons_ne_nil x rest
    obtain ⟨e, he, hstart⟩ := exists_generatedAt hne
    exact absurd hstart (h e he)

theorem generatedAt_mem (hdist : edits.Pairwise fun a b => a.span.start ≠ b.span.start) (he : e ∈ edits) :
    generatedAt edits e.span.start = e.replacement := by
  induction edits with
  | nil => cases he
  | cons f edits ih =>
    obtain ⟨hf, hrest⟩ := pairwise_cons.mp hdist
    rcases mem_cons.mp he with rfl | he
    · have hnone := generatedAt_ne fun g hg => Ne.symm (hf g hg)
      unfold generatedAt at hnone ⊢
      rw [append_eq_nil_iff] at hnone
      by_cases hempty : e.span.stop = e.span.start
      · have hins : insertsAt e.span.start e := beq_iff_eq.mpr (Span.eq_empty hempty)
        have hreplaces : replacesAt e.span.start e = false := by simp [replacesAt, Span.isEmpty, hempty]
        simp [hins, hreplaces, hnone]
      · have hins : insertsAt e.span.start e = false := by
          rw [insertsAt, beq_eq_false_iff_ne]
          exact fun h => hempty (congrArg Span.stop h)
        have hreplaces : replacesAt e.span.start e := by simp [replacesAt, Span.isEmpty, Ne.symm hempty]
        simp [hins, hreplaces, hnone]
    · have hne := hf e he
      have hins : insertsAt e.span.start f = false := by
        rw [insertsAt, beq_eq_false_iff_ne]
        intro h
        apply hne
        rw [h]
        rfl
      have hreplaces : replacesAt e.span.start f = false := replacesAt_of_ne hne
      rw [← ih hrest he]
      simp [generatedAt, hins, hreplaces]

theorem unedited {i : Nat} (h : ∀ e ∈ edits, e.span.start ≤ i → ¬ (e.span.start = i ∨ i < e.span.stop)) :
    generatedAt edits i = [] ∧ covers edits i = false := by
  refine ⟨generatedAt_ne fun e he hstart => h e he (Nat.le_of_eq hstart) (.inl hstart), ?_⟩
  exact covers_eq_false_iff.mpr fun e he hle => Nat.not_lt.mp fun hlt => h e he hle (.inr hlt)

theorem generatedAt_of_lt (h : ∀ e ∈ edits, i < e.span.start) : generatedAt edits i = [] :=
  generatedAt_ne fun e he => Nat.ne_of_gt (h e he)

theorem covers_of_lt (h : ∀ e ∈ edits, i < e.span.start) : covers edits i = false :=
  covers_eq_false_iff.mpr fun e he hle => absurd (h e he) (Nat.not_lt.mpr hle)

theorem weaveFrom_skip (h : ∀ e ∈ edits, p ≤ e.span.start) :
    ∀ (k i : Nat) (rest : List α), i + k = p → k ≤ rest.length →
      weaveFrom edits i rest = rest.take k ++ weaveFrom edits p (rest.drop k)
  | 0, i, rest, hp, _ => by
    have : i = p := by omega
    simp [this]
  | k + 1, i, [], _, hk => absurd hk (by simp)
  | k + 1, i, x :: rest, hp, hk => by
    have hlt : ∀ e ∈ edits, i < e.span.start := fun e he => by
      have := h e he
      omega
    rw [weaveFrom, pieceAt, generatedAt_of_lt hlt, covers_of_lt hlt,
      weaveFrom_skip h k (i + 1) rest (by omega) (by simpa using hk)]
    rfl

theorem pieceAt_behind (edits : List (Edit α)) (hne : e.span.start < e.span.stop)
    (hi : e.span.stop ≤ i) (item? : Option α) : pieceAt (e :: edits) item? i = pieceAt edits item? i := by
  have hins : insertsAt i e = false := insertsAt_of_ne hne
  have hrep : replacesAt i e = false := replacesAt_of_ne (by omega)
  have hcov : (decide (e.span.start ≤ i) && decide (i < e.span.stop)) = false := by
    simp only [Bool.and_eq_false_iff, decide_eq_false_iff_not]
    omega
  simp [pieceAt, generatedAt, covers, hins, hrep, hcov]

theorem weaveFrom_behind (edits : List (Edit α)) (hne : e.span.start < e.span.stop)
    (rest : List α) : ∀ i, e.span.stop ≤ i → weaveFrom (e :: edits) i rest = weaveFrom edits i rest := by
  induction rest with
  | nil => exact fun i hi => pieceAt_behind edits hne hi none
  | cons x rest ih =>
    intro i hi
    rw [weaveFrom, weaveFrom, pieceAt_behind edits hne hi, ih (i + 1) (by omega)]

theorem weaveFrom_covered (hrest : ∀ f ∈ edits, e.span.stop ≤ f.span.start) :
    ∀ (k i : Nat) (rest : List α), e.span.start < i → i + k = e.span.stop → k ≤ rest.length →
      weaveFrom (e :: edits) i rest = weaveFrom edits e.span.stop (rest.drop k)
  | 0, i, rest, hi, hk, _ => by
    have hstop : i = e.span.stop := by omega
    rw [drop_zero, ← hstop]
    exact weaveFrom_behind edits (by omega) rest i (by omega)
  | k + 1, i, [], _, _, hk => absurd hk (by simp)
  | k + 1, i, x :: rest, hi, hk, hlen => by
    have hlt : ∀ f ∈ edits, i < f.span.start := fun f hf => by
      have := hrest f hf
      omega
    have hins : insertsAt i e = false := insertsAt_of_ne (by omega)
    have hrep : replacesAt i e = false := replacesAt_of_ne (by omega)
    have hgen : generatedAt (e :: edits) i = [] := by
      have hnil := generatedAt_of_lt hlt
      simp only [generatedAt, filter_cons, hins, hrep] at hnil ⊢
      exact hnil
    have hcov : covers (e :: edits) i := by
      simp only [covers, any_cons, Bool.or_eq_true, Bool.and_eq_true, decide_eq_true_eq]
      left
      omega
    rw [weaveFrom, pieceAt, hgen, hcov,
      weaveFrom_covered hrest k (i + 1) rest (by omega) (by omega) (by simpa using hlen)]
    rfl

theorem generatedAt_replace (hne : e.span.start < e.span.stop) (hrest : ∀ f ∈ edits, e.span.stop ≤ f.span.start) :
    generatedAt (e :: edits) e.span.start = e.replacement := by
  have hlt : ∀ f ∈ edits, e.span.start < f.span.start := fun f hf => by
    have := hrest f hf
    omega
  have hins : insertsAt e.span.start e = false := insertsAt_of_ne hne
  have hrep : replacesAt e.span.start e := by
    simp only [replacesAt, Span.isEmpty, beq_self_eq_true, Bool.true_and, Bool.not_eq_true',
      beq_eq_false_iff_ne]
    omega
  have hnil := generatedAt_of_lt hlt
  simp only [generatedAt, append_eq_nil_iff] at hnil
  simp [generatedAt, hins, hrep, hnil.1, hnil.2]

theorem covers_replace (hne : e.span.start < e.span.stop) : covers (e :: edits) e.span.start := by
  simp [covers, hne]

theorem weaveFrom_insert (edits : List (Edit α)) (he : e.span = .empty p) (rest : List α) : ∀ i, p ≤ i →
      weaveFrom (e :: edits) i rest = (if i = p then e.replacement else []) ++ weaveFrom edits i rest := by
  have hpiece : ∀ i (item? : Option α), pieceAt (e :: edits) item? i
      = (if i = p then e.replacement else []) ++ pieceAt edits item? i := fun i item? => by
    rw [pieceAt, generatedAt_insert edits he, covers_insert edits he, pieceAt, append_assoc]
  induction rest with
  | nil => exact fun i _ => hpiece i none
  | cons x rest ih =>
    intro i hi
    have hnext : i + 1 ≠ p := by omega
    rw [weaveFrom, hpiece, ih (i + 1) (by omega), if_neg hnext, weaveFrom, nil_append,
      append_assoc]

theorem splice_eq_weaveFrom : ∀ (edits : List (Edit α)) (i : Nat) (rest : List α),
    (∀ e ∈ edits, i ≤ e.span.start ∧ e.span.start ≤ e.span.stop ∧ e.span.stop ≤ i + rest.length) →
    edits.Pairwise (fun a b => a.span.stop ≤ b.span.start) →
      splice i rest edits = weaveFrom edits i rest
  | [], i, rest, _, _ => (weaveFrom_nil i rest).symm
  | e :: edits, i, rest, hin, hsorted => by
    obtain ⟨hi, hle, hlen⟩ := hin e mem_cons_self
    obtain ⟨hrest, hsorted'⟩ := pairwise_cons.mp hsorted
    have hstart : ∀ f ∈ e :: edits, e.span.start ≤ f.span.start := by
      intro f hf
      rcases mem_cons.mp hf with rfl | hf
      · exact Nat.le_refl _
      · have := hrest f hf
        omega
    have hin' : ∀ f ∈ edits, e.span.stop ≤ f.span.start ∧ f.span.start ≤ f.span.stop
        ∧ f.span.stop ≤ e.span.stop + (rest.drop (e.span.stop - i)).length := by
      intro f hf
      have := hin f (mem_cons_of_mem _ hf)
      have := hrest f hf
      rw [length_drop]
      omega
    rw [splice, splice_eq_weaveFrom edits e.span.stop _ hin' hsorted',
      weaveFrom_skip hstart (e.span.start - i) i rest (by omega) (by omega), append_assoc]
    congr 1
    by_cases hne : e.span.start < e.span.stop
    · -- a replacement: its first position gives the items, the others nothing
      obtain ⟨k, hk⟩ : ∃ k, e.span.start + 1 + k = e.span.stop := ⟨e.span.stop - e.span.start - 1, by omega⟩
      have hcons : rest.drop (e.span.start - i) ≠ [] := by
        rw [ne_eq, drop_eq_nil_iff]
        omega
      obtain ⟨x, tail, htail⟩ := exists_cons_of_ne_nil hcons
      have htl : rest.length - (e.span.start - i) = tail.length + 1 := by
        rw [← length_drop, htail, length_cons]
      have hdrop : rest.drop (e.span.stop - i) = tail.drop k := by
        have : e.span.stop - i = (e.span.start - i) + (k + 1) := by omega
        rw [this, ← drop_drop, htail, drop_succ_cons]
      rw [htail, weaveFrom, pieceAt, generatedAt_replace hne hrest, covers_replace hne,
        weaveFrom_covered hrest k _ tail (by omega) hk (by omega), hdrop]
      simp
    · -- an insertion: nothing is covered
      have hstop : e.span.stop = e.span.start := by omega
      have he : e.span = .empty e.span.start := Span.eq_empty hstop
      rw [weaveFrom_insert edits he _ _ (Nat.le_refl _), if_pos rfl, hstop]

/-! ## §4. Sorting and joining. -/

theorem coalesce_ok : ∀ (rest : List (Edit α)) (last : Edit α),
    (last :: rest).Pairwise (fun a b => a.span.stop ≤ b.span.start) →
      ∃ out, coalesce last rest = .ok out
        ∧ ∀ (i : Nat) (items : List α), splice i items out = splice i items (last :: rest)
  | [], last, _ => ⟨[last], rfl, fun _ _ => rfl⟩
  | e :: rest, last, hsorted => by
    obtain ⟨hlast, hrest⟩ := pairwise_cons.mp hsorted
    rw [coalesce]
    split
    · rename_i hsame
      simp only [Bool.and_eq_true, beq_iff_eq, Span.isEmpty] at hsame
      have hjoined : (⟨last.span, last.replacement ++ e.replacement⟩ :: rest).Pairwise
          (fun a b : Edit α => a.span.stop ≤ b.span.start) := by
        refine pairwise_cons.mpr ⟨(forall_mem_cons.mp hlast).2, ?_⟩
        exact (pairwise_cons.mp hrest).2
      obtain ⟨out, hout, hsplice⟩ := coalesce_ok rest _ hjoined
      refine ⟨out, hout, fun i items => ?_⟩
      rw [hsplice, splice, splice, splice, ← hsame.2, ← hsame.1, Nat.sub_self]
      simp
    · have hlt : ¬ e.span.start < last.span.stop := by
        have := hlast e mem_cons_self
        omega
      obtain ⟨out, hout, hsplice⟩ := coalesce_ok rest e hrest
      refine ⟨last :: out, ?_, fun i items => ?_⟩
      · rw [if_neg hlt, hout]
        rfl
      · rw [splice, hsplice, ← splice]

def sorted (edits : List (Edit α)) : List (Edit α) := edits.mergeSort fun a b => a.span.le b.span

theorem sorted_perm (edits : List (Edit α)) : (sorted edits).Perm edits := mergeSort_perm edits _

theorem sorted_pairwise (edits : List (Edit α)) : (sorted edits).Pairwise fun a b => a.span.le b.span :=
  pairwise_mergeSort (fun a b c => Span.le_trans (a := a.span) (b := b.span) (c := c.span))
    (fun a b => Span.le_total a.span b.span) edits

theorem filter_sorted {p : Edit α → Bool} (hp : (edits.filter p).Pairwise fun a b => a.span.le b.span) :
    (sorted edits).filter p = edits.filter p := by
  have hsub : (edits.filter p).Sublist (sorted edits) :=
    sublist_mergeSort (fun a b c => Span.le_trans (a := a.span) (b := b.span) (c := c.span))
      (fun a b => Span.le_total a.span b.span) hp filter_sublist
  have hsub' : (edits.filter p).Sublist ((sorted edits).filter p) := by
    have := hsub.filter p
    rwa [filter_filter, show (fun a => p a && p a) = p from funext fun a => Bool.and_self _] at this
  have hlen : ((sorted edits).filter p).length
      = (edits.filter p).length := ((sorted_perm edits).filter p).length_eq
  exact (hsub'.eq_of_length hlen.symm).symm

namespace Fits

variable {size : Nat}

theorem apart_of_mem (h : Fits size edits) {f : Edit α} (he : e ∈ edits) (hf : f ∈ edits) (hne : e ≠ f) :
    e.span.Apart f.span := by
  have hapart := h.apart
  clear h
  induction hapart with
  | nil => cases he
  | cons hfst _ ih =>
    rcases mem_cons.mp he with rfl | he
    · rcases mem_cons.mp hf with rfl | hf
      · exact absurd rfl hne
      · exact hfst f hf
    · rcases mem_cons.mp hf with rfl | hf
      · exact (hfst e ‹_›).symm
      · exact ih ‹_› hf

theorem generatedAt_inside (h : Fits size edits) (he : e ∈ edits) (hlt : e.span.start < i)
    (hi : i < e.span.stop) : generatedAt edits i = [] := by
  refine generatedAt_ne fun f hf hstart => ?_
  have hne : e ≠ f := by
    rintro rfl
    omega
  have hfits := Span.fits_iff.mp (h.inBounds f hf)
  have hapart : e.span.stop ≤ f.span.start ∨ f.span.stop ≤ e.span.start := h.apart_of_mem he hf hne
  omega

theorem replacesAt_pairwise (h : Fits size edits) (i : Nat) :
    (edits.filter (replacesAt i)).Pairwise fun _ _ => False := by
  refine (h.apart.filter _).imp_of_mem ?_
  intro a b ha hb hab
  obtain ⟨ha, hai⟩ := mem_filter.mp ha
  obtain ⟨hb, hbi⟩ := mem_filter.mp hb
  have hfa := Span.fits_iff.mp (h.inBounds a ha)
  have hfb := Span.fits_iff.mp (h.inBounds b hb)
  simp only [replacesAt, Span.isEmpty, Bool.and_eq_true, beq_iff_eq, Bool.not_eq_true',
    beq_eq_false_iff_ne] at hai hbi
  rcases hab with hab | hab <;> omega

theorem insertsAt_pairwise (edits : List (Edit α)) (i : Nat) :
    (edits.filter (insertsAt i)).Pairwise fun a b => a.span.le b.span := by
  refine pairwise_of_forall_mem_list ?_
  intro a ha b hb
  have hai := (mem_filter.mp ha).2
  have hbi := (mem_filter.mp hb).2
  simp only [insertsAt, beq_iff_eq] at hai hbi
  rw [hai, hbi, Span.le_iff]
  omega

theorem pieceAt_sorted (h : Fits size edits) (item? : Option α) (i : Nat) :
    pieceAt (sorted edits) item? i = pieceAt edits item? i := by
  have hcov : covers (sorted edits) i = covers edits i :=
    (sorted_perm edits).any_eq
  rw [pieceAt, pieceAt, generatedAt, generatedAt, filter_sorted (insertsAt_pairwise edits i),
    filter_sorted ((h.replacesAt_pairwise i).imp False.elim), hcov]

theorem weaveFrom_sorted (h : Fits size edits) (rest : List α) : ∀ i,
    weaveFrom (sorted edits) i rest = weaveFrom edits i rest := by
  induction rest with
  | nil => exact fun i => h.pieceAt_sorted none i
  | cons x rest ih =>
    intro i
    rw [weaveFrom, weaveFrom, h.pieceAt_sorted, ih]

theorem sorted_stop_le_start (h : Fits size edits) :
    (sorted edits).Pairwise fun a b => a.span.stop ≤ b.span.start := by
  have hapart : (sorted edits).Pairwise fun a b => a.span.Apart b.span :=
    (sorted_perm edits).symm.pairwise h.apart Span.Apart.symm
  refine List.Pairwise.imp_of_mem ?_ ((sorted_pairwise edits).and hapart)
  intro a b _ hb hab
  exact hab.2.stop_le_start hab.1 (h.inBounds b ((sorted_perm edits).mem_iff.mp hb))

end Fits

/-! ## §5. The batch as a whole. -/

theorem normalize_ok (h : Fits size edits) :
    ∃ out, normalize size edits = .ok out
      ∧ ∀ (i : Nat) (items : List α), splice i items out = splice i items (sorted edits) := by
  have hbounds : (sorted edits).find? (fun e => !e.span.fits size) = none := by
    rw [find?_eq_none]
    intro e he
    simp [h.inBounds e ((sorted_perm edits).mem_iff.mp he)]
  have hpair := h.sorted_stop_le_start
  unfold normalize
  unfold sorted at hbounds hpair ⊢
  simp only [hbounds]
  cases hsort : edits.mergeSort fun a b => a.span.le b.span with
  | nil => exact ⟨[], rfl, fun _ _ => rfl⟩
  | cons e rest =>
    rw [hsort] at hpair
    exact coalesce_ok rest e hpair

theorem applyAll_eq_weave {items : List α} (h : Fits items.length edits) :
    applyAll items edits = .ok (weave items edits) := by
  have hin : ∀ e ∈ sorted edits,
      0 ≤ e.span.start ∧ e.span.start ≤ e.span.stop ∧ e.span.stop ≤ 0 + items.length := by
    intro e he
    have := Span.fits_iff.mp (h.inBounds e ((sorted_perm edits).mem_iff.mp he))
    omega
  obtain ⟨out, hout, hsplice⟩ := normalize_ok h
  unfold applyAll
  rw [hout]
  show Except.ok (splice 0 items out) = _
  rw [hsplice, splice_eq_weaveFrom _ 0 items hin h.sorted_stop_le_start, h.weaveFrom_sorted, weave]

/-! ## §6. Insertions into the result of a batch. -/

theorem weave_eq_flatMap (items : List α) (edits : List (Edit α)) :
    weave items edits = (range (items.length + 1)).flatMap fun i => pieceAt edits items[i]? i := by
  have key : ∀ (rest before : List α), items = before ++ rest →
      weaveFrom edits before.length rest
        = (range' before.length (rest.length + 1)).flatMap fun i => pieceAt edits items[i]? i := by
    intro rest
    induction rest with
    | nil =>
      intro before hitems
      rw [weaveFrom, hitems]
      simp
    | cons x rest ih =>
      intro before hitems
      have hx : items[before.length]? = some x := by
        rw [hitems, getElem?_append_right (Nat.le_refl _), Nat.sub_self]
        rfl
      have hrest := ih (before ++ [x]) (by simp [hitems])
      rw [length_append, length_singleton] at hrest
      rw [weaveFrom, length_cons, range'_succ, flatMap_cons, hx, hrest]
  have := key items [] rfl
  rwa [length_nil, ← range_eq_range'] at this

/-- The items with what a batch of insertions puts in front of each of them; `off` is the position of the
first. -/
def stretch (edits : List (Edit α)) (off : Nat) : List α → List α
  | [] => []
  | x :: xs => generatedAt edits off ++ x :: stretch edits (off + 1) xs

theorem stretch_append (edits : List (Edit α)) (xs ys : List α) : ∀ off,
    stretch edits off (xs ++ ys) = stretch edits off xs ++ stretch edits (off + xs.length) ys := by
  induction xs with
  | nil =>
    intro off
    rfl
  | cons x xs ih =>
    intro off
    rw [cons_append, stretch, stretch, ih, length_cons,
      show off + 1 + xs.length = off + (xs.length + 1) from by omega]
    simp

theorem covers_of_insertions (h : ∀ e ∈ edits, e.span.isEmpty) (i : Nat) : covers edits i = false := by
  refine covers_eq_false_iff.mpr fun e he hle => ?_
  have hempty : e.span.start = e.span.stop := by simpa [Span.isEmpty] using h e he
  omega

theorem weaveFrom_insertions (h : ∀ e ∈ edits, e.span.isEmpty) (items : List α) : ∀ i,
    weaveFrom edits i items = stretch edits i items ++ generatedAt edits (i + items.length) := by
  induction items with
  | nil =>
    intro i
    simp [weaveFrom, stretch, pieceAt]
  | cons x items ih =>
    intro i
    rw [weaveFrom, ih, pieceAt, covers_of_insertions h, stretch, length_cons,
      show i + 1 + items.length = i + (items.length + 1) from by omega]
    simp

/-- The length of the pieces before position `i`. -/
def offsetOf (items : List α) (edits : List (Edit α)) (i : Nat) : Nat :=
  ((range i).flatMap fun j => pieceAt edits items[j]? j).length

theorem offsetOf_succ (items : List α) (edits : List (Edit α)) (i : Nat) :
    offsetOf items edits (i + 1) = offsetOf items edits i + (pieceAt edits items[i]? i).length := by
  simp [offsetOf, range_succ]

theorem stretch_pieces (items : List α) (edits inserts : List (Edit α)) (n : Nat) :
    stretch inserts 0 ((range n).flatMap fun i => pieceAt edits items[i]? i)
      = (range n).flatMap fun i =>
          stretch inserts (offsetOf items edits i) (pieceAt edits items[i]? i) := by
  induction n with
  | zero => rfl
  | succ n ih =>
    rw [range_succ, flatMap_append, flatMap_append, stretch_append, ih, Nat.zero_add]
    simp [offsetOf]

/-- What two batches together put in front of position `i`: what the first puts there, stretched by the
second, and then what the second puts before the item itself. -/
def generatedByBoth (items : List α) (edits inserts : List (Edit α)) (i : Nat) : List α :=
  let first := generatedAt edits i
  stretch inserts (offsetOf items edits i) first
    ++ if covers edits i then [] else generatedAt inserts (offsetOf items edits i + first.length)

/-- **A batch, and insertions into its result, position by position**: the items that the batch does not
cover, each behind what the two put in front of it. -/
theorem weave_weave {items : List α} {edits inserts : List (Edit α)}
    (hins : ∀ e ∈ inserts, e.span.isEmpty) (hend : covers edits items.length = false) :
    weave (weave items edits) inserts = (range (items.length + 1)).flatMap fun i =>
      generatedByBoth items edits inserts i ++ if covers edits i then [] else items[i]?.toList := by
  have hpiece : ∀ i x,
      stretch inserts (offsetOf items edits i) (pieceAt edits (some x) i)
        = generatedByBoth items edits inserts i ++ if covers edits i then [] else [x] := by
    intro i x
    unfold pieceAt generatedByBoth
    rw [stretch_append]
    by_cases hc : covers edits i
    · simp [hc, stretch]
    · simp [hc, stretch]
  have hinit : ((range items.length).flatMap fun i =>
        stretch inserts (offsetOf items edits i) (pieceAt edits items[i]? i))
      = (range items.length).flatMap fun i =>
        generatedByBoth items edits inserts i ++ if covers edits i then [] else items[i]?.toList := by
    rw [flatMap_def, flatMap_def, map_congr_left fun i hi => ?_]
    rw [getElem?_eq_getElem (mem_range.mp hi)]
    exact hpiece i _
  have hlen : (weave items edits).length = offsetOf items edits (items.length + 1) := by
    rw [weave_eq_flatMap, offsetOf]
  -- the place behind the last item is where the two readings differ: there the second batch may insert
  rw [weave, weaveFrom_insertions hins, Nat.zero_add, hlen, weave_eq_flatMap, stretch_pieces,
    range_succ, flatMap_append, flatMap_append, hinit, append_assoc, offsetOf_succ]
  congr 1
  simp [generatedByBoth, pieceAt, hend]

end Edit

end MageUplift
