import Mathlib.Data.Set.Card
import Mathlib.Order.Interval.Finset.Nat
import MageUplift.Proofs.Confinement
import MageUplift.Proofs.LexicalErrors

/-!
# Lines and columns are right

A line break ends behind a line feed, and behind a return that no line feed follows. `breaksUpTo` is the set of
the places up to an offset where one ends, told from the text alone. The line of an offset is the number of these
places, and its column is the distance to the last of them.

The starts of the lines ascend, because every line break takes a byte. So halving finds the last start that is not
behind the offset, and the lines before it are as many as the line breaks (`lineOf_spec`).
-/

namespace MageUplift.Text

open List
open Php (byteLength)

/-! ## §1. Line breaks. -/

def EndsLine (before after : List Char) : Prop :=
  before.getLast? = some '\n' ∨ before.getLast? = some '\r' ∧ after.head? ≠ some '\n'

/-- A line break ends at byte `e`, where the text begins at byte `offset`. -/
def BreaksAt (offset : Nat) (cs : List Char) (e : Nat) : Prop :=
  ∃ before after, cs = before ++ after ∧ offset + byteLength before = e ∧ EndsLine before after

/-- Where the line breaks end that end at or before `p`. -/
def breaksUpTo (text : String) (p : Nat) : Set Nat := {e | BreaksAt 0 text.toList e ∧ e ≤ p}

variable {offset e : Nat} {cs : List Char}

theorem breaksAt_cons {c : Char} : BreaksAt offset (c :: cs) e
    ↔ e = offset + c.utf8Size ∧ EndsLine [c] cs ∨ BreaksAt (offset + c.utf8Size) cs e := by
  constructor
  · rintro ⟨before, after, hcs, rfl, hends⟩
    cases before with
    | nil => simp [EndsLine] at hends
    | cons d before =>
      obtain ⟨rfl, rfl⟩ := cons.inj hcs
      cases before with
      | nil => exact .inl ⟨rfl, hends⟩
      | cons b before =>
        exact .inr ⟨b :: before, after, rfl, by simp [Nat.add_assoc], by simpa [EndsLine] using hends⟩
  · rintro (⟨rfl, hends⟩ | ⟨before, after, rfl, rfl, hends⟩)
    · exact ⟨[c], cs, rfl, rfl, hends⟩
    · refine ⟨c :: before, after, rfl, by simp [Nat.add_assoc], ?_⟩
      cases before with
      | nil => simp [EndsLine] at hends
      | cons b before => simpa [EndsLine] using hends

theorem mem_breakEnds_iff : e ∈ lineBreakEnds offset cs ↔ BreaksAt offset cs e := by
  fun_induction lineBreakEnds offset cs with
  | case1 offset => simp [BreaksAt, EndsLine]
  | case2 offset cs ih =>
    rw [mem_cons, ih, breaksAt_cons, breaksAt_cons]
    simp [EndsLine, Nat.add_assoc, Char.utf8Size]
  | case3 offset c cs hpair after hbreak ih =>
    have hends : EndsLine [c] cs := by
      rw [Bool.or_eq_true, beq_iff_eq, beq_iff_eq] at hbreak
      rcases hbreak with rfl | rfl
      · exact .inl rfl
      · refine .inr ⟨rfl, fun hhead => ?_⟩
        obtain ⟨cs', rfl⟩ := head?_eq_some_iff.mp hhead
        exact hpair cs' rfl rfl
    rw [mem_cons, ih, breaksAt_cons, and_iff_left hends]
  | case4 offset c cs hpair after hbreak ih =>
    have hends : ¬ EndsLine [c] cs := fun h => hbreak (by rcases h with h | ⟨h, -⟩ <;> cases h <;> rfl)
    rw [ih, breaksAt_cons, or_iff_right fun h => hends h.2]

theorem BreaksAt.lt (h : BreaksAt offset cs e) : offset < e ∧ e ≤ offset + byteLength cs := by
  obtain ⟨before, after, rfl, rfl, hends⟩ := h
  cases before with
  | nil => simp [EndsLine] at hends
  | cons c before =>
    have := c.utf8Size_pos
    simp only [cons_append, Php.byteLength_cons, Php.byteLength_append]
    omega

theorem lineBreakEnds_ascending (offset : Nat) (cs : List Char) : (lineBreakEnds offset cs).Pairwise (· < ·) := by
  have next : ∀ n cs, ∀ e ∈ lineBreakEnds n cs, n < e := fun _ _ _ he => (mem_breakEnds_iff.mp he).lt.1
  fun_induction lineBreakEnds offset cs with
  | case1 => exact .nil
  | case2 offset cs ih => exact .cons (next _ _) ih
  | case3 offset c cs hpair after hbreak ih => exact .cons (next _ _) ih
  | case4 offset c cs hpair after hbreak ih => exact ih

/-! ## §2. Halving. -/

theorem getD_lt {numbers : Array Nat} (hsorted : numbers.toList.Pairwise (· < ·)) {a b : Nat} (hab : a < b)
    (hb : b < numbers.size) : numbers.getD a 0 < numbers.getD b 0 := by
  have := pairwise_iff_getElem.mp hsorted a b (by simpa using hab.trans hb) (by simpa using hb) hab
  simpa [Array.getD, hb, hab.trans hb] using this

/-- **Halving finds the last number that is not greater**, if the first is not and all behind the indices are. -/
theorem halve_spec {numbers : Array Nat} {x base size : Nat} (hsorted : numbers.toList.Pairwise (· < ·))
    (hsize : 0 < size) (hfits : base + size ≤ numbers.size) (hbase : numbers.getD base 0 ≤ x)
    (hbehind : ∀ k, base + size ≤ k → k < numbers.size → x < numbers.getD k 0) :
    halve numbers x base size < numbers.size
      ∧ ∀ k < numbers.size, numbers.getD k 0 ≤ x ↔ k ≤ halve numbers x base size := by
  fun_induction halve numbers x base size with
  | case1 base size hone =>
    refine ⟨by omega, fun k hk => ?_⟩
    have := hbehind k
    have := @getD_lt _ hsorted k base
    rcases Nat.lt_trichotomy k base with h | rfl | h <;> omega
  | case2 base size hone half ih =>
    have hhalf : half = size / 2 := rfl
    split at ih
    case isTrue hless =>
      rw [if_pos hless]
      refine ih (by omega) (by omega) hbase fun k hle hk => ?_
      have := @getD_lt _ hsorted (base + half) k
      rcases Nat.eq_or_lt_of_le (show base + half ≤ k by omega) with rfl | h <;> omega
    case isFalse hless =>
      rw [if_neg hless]
      exact ih (by omega) (by omega) (by omega) fun k hle hk => hbehind k (by omega) hk

namespace LineIndex

variable (text : String)

def start (line : Nat) : Nat := (ofText text).starts.getD line 0

theorem start_succ {i : Nat} (hi : i < (lineBreakEnds 0 text.toList).length) :
    start text (i + 1) = (lineBreakEnds 0 text.toList)[i] := by
  simp [start, ofText, hi]

theorem starts_ascending : (ofText text).starts.toList.Pairwise (· < ·) :=
  .cons (fun _ he => (mem_breakEnds_iff.mp he).lt.1) (lineBreakEnds_ascending 0 text.toList)

theorem lineOf_spec (p : Nat) : (ofText text).lineOf p < (ofText text).lineCount
    ∧ ∀ k < (ofText text).lineCount, start text k ≤ p ↔ k ≤ (ofText text).lineOf p := by
  have hpos : 0 < (ofText text).starts.size := by simp [ofText]
  obtain ⟨hlt, hspec⟩ := @halve_spec _ p 0 _ (starts_ascending text) hpos (by omega) p.zero_le (by omega)
  have hle := (hspec _ hlt).mpr le_rfl
  have hline : (ofText text).lineOf p = halve (ofText text).starts p 0 (ofText text).starts.size := by
    rw [lineOf, binarySearch, if_neg (by simp [ofText])]
    rcases Nat.eq_or_lt_of_le hle with heq | hless
    · simp only [Nat.compare_eq_eq.mpr heq]
    · simp only [Nat.compare_eq_lt.mpr hless, Nat.add_sub_cancel]
  rw [hline]
  exact ⟨hlt, hspec⟩

theorem ncard_breaksUpTo (p : Nat) : (breaksUpTo text p).ncard = (ofText text).lineOf p := by
  obtain ⟨hlt, hspec⟩ := lineOf_spec text p
  have hcount : (ofText text).lineCount = (lineBreakEnds 0 text.toList).length + 1 := by simp [lineCount, ofText]
  have htake : breaksUpTo text p = ((lineBreakEnds 0 text.toList).take ((ofText text).lineOf p)).toFinset := by
    ext e
    simp only [breaksUpTo, Set.mem_ofPred_eq, ← mem_breakEnds_iff, coe_toFinset]
    rw [mem_take_iff_getElem]
    constructor
    · rintro ⟨he, hle⟩
      obtain ⟨i, hi, rfl⟩ := mem_iff_getElem.mp he
      rw [← start_succ text hi, hspec _ (by omega)] at hle
      exact ⟨i, by omega, rfl⟩
    · rintro ⟨i, hi, rfl⟩
      refine ⟨getElem_mem _, ?_⟩
      rw [← start_succ text (by omega), hspec _ (by omega)]
      omega
  rw [htake, Set.ncard_coe_finset, toFinset_card_of_nodup]
  · rw [length_take]
    omega
  · exact ((lineBreakEnds_ascending 0 text.toList).imp Nat.ne_of_lt).sublist (take_sublist _ _)

/-! ## §3. Positions. -/

/-- The line and the column of the offset `p`, told from the line breaks of the text. Without a line break before
it, the column counts from the start of the text. -/
structure IsPosition (p : Nat) (q : Position) : Prop where
  line : q.line.toNat = (breaksUpTo text p).ncard
  last : IsGreatest (insert 0 (breaksUpTo text p)) (start text q.line.toNat)
  column : start text q.line.toNat + q.column.toNat = p

theorem breaksUpTo_subset (p : Nat) : breaksUpTo text p ⊆ Finset.Icc 1 p := by
  intro e he
  have := he.1.lt.1
  simpa using ⟨this, he.2⟩

theorem ncard_breaksUpTo_mono {p p' : Nat} (hle : p ≤ p') : (breaksUpTo text p).ncard ≤ (breaksUpTo text p').ncard :=
  Set.ncard_le_ncard (fun _ he => ⟨he.1, he.2.trans hle⟩)
    ((Finset.finite_toSet _).subset (breaksUpTo_subset text p'))

theorem ncard_breaksUpTo_le (p : Nat) : (breaksUpTo text p).ncard ≤ p := by
  have := Set.ncard_le_ncard (breaksUpTo_subset text p) (Finset.finite_toSet _)
  rwa [Set.ncard_coe_finset, Nat.card_Icc, Nat.add_sub_cancel] at this

theorem isGreatest_start (p : Nat) : IsGreatest (insert 0 (breaksUpTo text p)) (start text ((ofText text).lineOf p)) := by
  obtain ⟨hlt, hspec⟩ := lineOf_spec text p
  have hcount : (ofText text).lineCount = (lineBreakEnds 0 text.toList).length + 1 := by simp [lineCount, ofText]
  have hle := (hspec _ hlt).mpr le_rfl
  constructor
  · cases hline : (ofText text).lineOf p with
    | zero => exact .inl rfl
    | succ i =>
      rw [hline] at hle hlt
      have hi : i < (lineBreakEnds 0 text.toList).length := by omega
      exact .inr ⟨mem_breakEnds_iff.mp (start_succ text hi ▸ getElem_mem hi), hle⟩
  · rintro e (rfl | ⟨hbreak, hep⟩)
    · exact Nat.zero_le _
    · obtain ⟨i, hi, rfl⟩ := mem_iff_getElem.mp (mem_breakEnds_iff.mpr hbreak)
      rw [← start_succ text hi] at hep ⊢
      rcases Nat.lt_or_eq_of_le ((hspec (i + 1) (by omega)).mp hep) with h | h
      · exact (getD_lt (starts_ascending text) h hlt).le
      · exact Nat.le_of_eq (congrArg _ h)

variable {text}

theorem IsPosition.mono {p p' : Nat} {q q' : Position} (h : IsPosition text p q) (h' : IsPosition text p' q')
    (hle : p ≤ p') : q.line < q'.line ∨ q.line = q'.line ∧ q.column ≤ q'.column := by
  have hlines : q.line.toNat ≤ q'.line.toNat := by
    rw [h.line, h'.line]
    exact ncard_breaksUpTo_mono text hle
  rw [UInt32.lt_iff_toNat_lt, ← UInt32.toNat_inj, UInt32.le_iff_toNat_le]
  rcases Nat.lt_or_eq_of_le hlines with hlt | heq
  · exact .inl hlt
  · have := h.column
    have := h'.column
    rw [← heq] at this
    exact .inr ⟨heq, by omega⟩

theorem isPosition_position (hsize : text.utf8ByteSize < 2 ^ 32 - 1) (offset : Nat) :
    IsPosition text (min offset text.utf8ByteSize) ((ofText text).position offset) := by
  have hp : min offset text.utf8ByteSize < 2 ^ 32 - 1 := by omega
  show IsPosition text _ ⟨((ofText text).lineOf (min offset text.utf8ByteSize)).toUInt32,
    (min offset text.utf8ByteSize - start text ((ofText text).lineOf (min offset text.utf8ByteSize))).toUInt32⟩
  generalize min offset text.utf8ByteSize = p at *
  have hcount := ncard_breaksUpTo text p
  have hle := ncard_breaksUpTo_le text p
  have hgreatest := isGreatest_start text p
  have hstart : start text ((ofText text).lineOf p) ≤ p := by
    rcases hgreatest.1 with h | h
    · omega
    · exact h.2
  have hline : ((ofText text).lineOf p).toUInt32.toNat = (ofText text).lineOf p :=
    Nat.mod_eq_of_lt (by omega)
  have hcolumn : (p - start text ((ofText text).lineOf p)).toUInt32.toNat = p - start text ((ofText text).lineOf p) :=
    Nat.mod_eq_of_lt (by omega)
  exact ⟨by rw [hline, hcount], by rwa [hline], by rw [hline, hcolumn]; omega⟩

end LineIndex

end MageUplift.Text

namespace MageUplift

open Php TokenStream Call Magento Text LineIndex List

/-! ## §4. Reports. -/

variable {s : TokenStream} {i j : Nat}

theorem utf8ByteSize_joinTexts (tokens : List Token) : (joinTexts tokens).utf8ByteSize = bytesOf tokens := by
  rw [← byteLength_toList, toList_joinTexts, bytesOf]

theorem byteOffset_mono (s : TokenStream) (h : i ≤ j) : s.byteOffset i ≤ s.byteOffset j := by
  rw [byteOffset_eq, byteOffset_eq, ← take_append_drop i (s.tokens.toList.take j), take_take, Nat.min_eq_left h,
    bytesOf_append]
  exact Nat.le_add_right _ _

theorem byteOffset_le_size (s : TokenStream) (i : Nat) : s.byteOffset i ≤ s.render.utf8ByteSize := by
  rw [render, utf8ByteSize_joinTexts, byteOffset_eq]
  nth_rewrite 2 [← take_append_drop i s.tokens.toList]
  rw [bytesOf_append]
  exact Nat.le_add_right _ _

theorem displayLine_toNat (hsize : s.render.utf8ByteSize < 2 ^ 32 - 1) (i : Nat) :
    ((LineIndex.ofText s.render).position (s.byteOffset i)).displayLine.toNat
      = 1 + (breaksUpTo s.render (s.byteOffset i)).ncard := by
  have hposition := isPosition_position hsize (s.byteOffset i)
  have hle := byteOffset_le_size s i
  rw [Nat.min_eq_left hle] at hposition
  have hcount := ncard_breaksUpTo_le s.render (s.byteOffset i)
  rw [Position.displayLine, UInt32.toNat_add, hposition.line]
  exact (Nat.mod_eq_of_lt (by change _ + 1 < _; omega)).trans (Nat.add_comm _ _)

/-- A reported call stands on the line after the line breaks that end before its `Mage` token. -/
structure ReportedAt (s : TokenStream) (call : CallReport) (inv : Invocation) : Prop where
  pattern : call.pattern = inv.pattern
  token : ∃ before mage after, s.tokens.toList = before ++ mage :: after ∧ before.length = inv.span.start
    ∧ isMage mage = true ∧ call.line.toNat = 1 + (breaksUpTo s.render (joinTexts before).utf8ByteSize).ncard

theorem reportedAt {table : AliasTable} {inv : Invocation} (hsize : s.render.utf8ByteSize < 2 ^ 32 - 1)
    (h : inv ∈ scan table s) :
    ReportedAt s ⟨inv.pattern, ((LineIndex.ofText s.render).position (s.byteOffset inv.span.start)).displayLine,
      inv.legacy, inv.modern⟩ inv := by
  obtain ⟨t, ht, hmage⟩ := (isCall_mem h).isMage
  rw [← tokens_getElem?] at ht
  obtain ⟨hlt, rfl⟩ := List.getElem?_eq_some_iff.mp ht
  refine ⟨rfl, s.tokens.toList.take inv.span.start, _, s.tokens.toList.drop (inv.span.start + 1), ?_,
    length_take_of_le hlt.le, hmage, ?_⟩
  · rw [← drop_eq_getElem_cons hlt, take_append_drop]
  · rw [utf8ByteSize_joinTexts, ← byteOffset_eq]
    exact displayLine_toNat hsize _

/-- **Positions are right.** In a text of less than `2 ^ 32 - 1` bytes every offset, or the end for offsets behind
it, has the line and the column that the line breaks before it tell, and later offsets have later positions. Every
call that a migration reports has the line of its `Mage` token, and the lines do not decrease. -/
theorem positions_correct :
    (∀ text : String, text.utf8ByteSize < 2 ^ 32 - 1 →
      (∀ o, IsPosition text (min o text.utf8ByteSize) ((LineIndex.ofText text).position o))
      ∧ ∀ o o', o ≤ o' →
        let q := (LineIndex.ofText text).position o
        let q' := (LineIndex.ofText text).position o'
        q.line < q'.line ∨ q.line = q'.line ∧ q.column ≤ q'.column)
    ∧ ∀ (m : Migrator) (file : String) (s out : TokenStream) (report : FileReport),
      m.migrate file s = .ok (.converted out report) → s.render.utf8ByteSize < 2 ^ 32 - 1 →
      Forall₂ (ReportedAt s) report.calls (scan m.table s) ∧ report.calls.Pairwise (·.line ≤ ·.line) := by
  refine ⟨fun text hsize => ⟨isPosition_position hsize, fun o o' hle => ?_⟩, fun m file s out report h hsize => ?_⟩
  · exact (isPosition_position hsize o).mono (isPosition_position hsize o') (by omega)
  · obtain ⟨r, -, -, -, -, rfl⟩ := migrate_cases h
    have horder := scan_callsInOrder m.table s
    refine ⟨List.forall₂_map_left_iff.mpr (List.forall₂_same.mpr fun inv hinv => reportedAt hsize hinv),
      List.pairwise_map.mpr (horder.ordered.imp_of_mem fun {a b} ha _ hab => ?_)⟩
    have hlt := (horder.isCall a ha).anatomy.start_lt_headEnd
    have hoff := byteOffset_mono s (show a.span.start ≤ b.span.start by omega)
    rw [UInt32.le_iff_toNat_le, displayLine_toNat hsize, displayLine_toNat hsize]
    exact Nat.add_le_add_left (ncard_breaksUpTo_mono s.render hoff) 1

/-- Lines that end in each of the three ways, with calls behind them. -/
def threeBreaks : TokenStream :=
  .ofSource "<?php\r\nclass A\rextends É\n\x7bfunction f()\x7bMage::log(\n\nMage::app()->getStore());\x7d\x7d"

theorem positions_correct_threeBreaks :
    IsPosition "é\r\nb\rc" 5 ⟨1, 1⟩
      ∧ ∃ out report, Migrator.migrate ⟨.builtin, "    ", .lastWins⟩ "A.php" threeBreaks = .ok (.converted out report)
        ∧ threeBreaks.render.utf8ByteSize < 2 ^ 32 - 1 ∧ report.calls.map (·.line) = [4, 6]
        ∧ Forall₂ (ReportedAt threeBreaks) report.calls (scan .builtin threeBreaks) := by
  have hposition := (positions_correct.1 "é\r\nb\rc" (by decide)).1 5
  rw [show (LineIndex.ofText "é\r\nb\rc").position 5 = ⟨1, 1⟩ by decide +kernel] at hposition
  have hrun : convertsTo (fun _ report => report.calls.map (·.line) == [4, 6])
        (Migrator.migrate ⟨.builtin, "    ", .lastWins⟩ "A.php" threeBreaks) = true
      ∧ threeBreaks.render.utf8ByteSize < 2 ^ 32 - 1 := by
    rw [migrate_eq, show threeBreaks = .ofTokens _ from ofSource_ofList _]
    decide +kernel
  obtain ⟨hrun, hsize⟩ := hrun
  obtain ⟨out, report, hout, hlines⟩ := of_convertsTo hrun
  exact ⟨hposition, out, report, hout, hsize, beq_iff_eq.mp hlines, (positions_correct.2 _ _ _ _ _ hout hsize).1⟩

end MageUplift
