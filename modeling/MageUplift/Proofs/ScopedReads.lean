import Mathlib.Data.List.Flatten
import MageUplift.Proofs.ArgumentItems

/-!
# Reads of the store configuration keep their arguments

A read of the store configuration has a path and, perhaps, a store. The converted read names the scope between the
two, or behind the path if there is no store. The comma that this hangs on is found in the file as it is, while the
calls in the arguments are replaced in the same batch; so it has to be said which argument is which afterwards.

An argument of the converted read is the argument of the file with the calls inside it replaced, and nothing else:
the edits of those calls, applied to the tokens of the argument alone, make the same of it as the whole batch does
(`applyAll_nested`). No edit of a call around it lands in it, since an argument has neither the comma nor the
parenthesis that such an edit is made at.
-/

namespace MageUplift

open List Option Edit

variable {i a b left comma : Nat} {p : Pattern} {inv : Invocation} {code : String}

/-! ## §1. A part of a batch. -/

namespace Edit

variable {α : Type} {edits part : List (Edit α)} {a b : Nat}

def rebase (a : Nat) (e : Edit α) : Edit α := ⟨⟨e.span.start - a, e.span.stop - a⟩, e.replacement⟩

/-- `part` are the edits of a batch that change the items from `a` up to `b`, and they change no others. -/
structure PartOf (edits part : List (Edit α)) (a b : Nat) : Prop where
  sublist : part.Sublist edits
  inside : ∀ e ∈ part, a ≤ e.span.start ∧ e.span.start < b ∧ e.span.stop ≤ b
  all : ∀ e ∈ edits, ∀ p, a ≤ p → p < b → e.span.start ≤ p → e.span.start = p ∨ p < e.span.stop → e ∈ part

variable (h : PartOf edits part a b)

include h

theorem PartOf.fits {size : Nat} (hfits : Fits size edits) : Fits (b - a) (part.map (rebase a)) := by
  constructor
  · intro e he
    obtain ⟨f, hf, rfl⟩ := List.mem_map.mp he
    obtain ⟨h₁, h₂, h₃⟩ := h.inside f hf
    have hspan := Span.fits_iff.mp (hfits.inBounds f (h.sublist.subset hf))
    refine Span.fits_iff.mpr ⟨?_, ?_⟩
    · show f.span.start - a ≤ f.span.stop - a
      omega
    · show f.span.stop - a ≤ b - a
      omega
  · refine (hfits.apart.sublist h.sublist).map (rebase a) fun e f hapart => ?_
    show e.span.stop - a ≤ f.span.start - a ∨ f.span.stop - a ≤ e.span.start - a
    rcases hapart with hef | hfe
    · left
      omega
    · right
      omega

theorem PartOf.distinct (hdist : edits.Pairwise fun e f => e.span.start ≠ f.span.start) :
    (part.map (rebase a)).Pairwise fun e f => e.span.start ≠ f.span.start := by
  rw [pairwise_map]
  refine (hdist.sublist h.sublist).imp_of_mem fun {e f} he hf hne => ?_
  show e.span.start - a ≠ f.span.start - a
  have := (h.inside e he).1
  have := (h.inside f hf).1
  omega

theorem PartOf.generatedAt (hdist : edits.Pairwise fun e f => e.span.start ≠ f.span.start)
    (hi : i < b - a) : generatedAt (part.map (rebase a)) i = generatedAt edits (a + i) := by
  by_cases hwrites : ∃ e ∈ edits, e.span.start = a + i
  · obtain ⟨e, he, hstart⟩ := hwrites
    have hpart : e ∈ part := h.all e he (a + i) (by omega) (by omega) (Nat.le_of_eq hstart) (.inl hstart)
    have hrebased : (rebase a e).span.start = i := by
      show e.span.start - a = i
      omega
    have hnew := generatedAt_mem (h.distinct hdist) (List.mem_map_of_mem hpart)
    rw [hrebased] at hnew
    rw [hnew, ← hstart, generatedAt_mem hdist he]
    rfl
  · -- nothing is written there, by the batch or by the part
    rw [generatedAt_ne fun e he hstart => hwrites ⟨e, he, hstart⟩]
    refine generatedAt_ne fun e he hstart => ?_
    obtain ⟨f, hf, rfl⟩ := List.mem_map.mp he
    have := (h.inside f hf).1
    change f.span.start - a = i at hstart
    exact hwrites ⟨f, h.sublist.subset hf, by omega⟩

theorem PartOf.covers (hi : i < b - a) : covers (part.map (rebase a)) i = covers edits (a + i) := by
  rw [Bool.eq_iff_iff, covers_iff, covers_iff]
  simp only [List.mem_map]
  constructor
  · rintro ⟨_, ⟨f, hf, rfl⟩, hle, hlt⟩
    have := (h.inside f hf).1
    change f.span.start - a ≤ i at hle
    change i < f.span.stop - a at hlt
    exact ⟨f, h.sublist.subset hf, by omega, by omega⟩
  · rintro ⟨e, he, hle, hlt⟩
    have hpart := h.all e he (a + i) (by omega) (by omega) hle (.inr hlt)
    refine ⟨_, ⟨e, hpart, rfl⟩, ?_, ?_⟩
    · show e.span.start - a ≤ i
      omega
    · show i < e.span.stop - a
      omega

theorem PartOf.applyAll {items : List α} (hfits : Fits items.length edits)
    (hdist : edits.Pairwise fun e f => e.span.start ≠ f.span.start) (hb : b ≤ items.length) :
    applyAll ((items.drop a).take (b - a)) (part.map (rebase a))
      = .ok ((List.range' a (b - a)).flatMap fun i => pieceAt edits items[i]? i) := by
  have hlen : ((items.drop a).take (b - a)).length = b - a := by
    rw [length_take, length_drop]
    omega
  rw [applyAll_eq_weave (by rw [hlen]; exact h.fits hfits), weave_eq_flatMap, hlen, range_succ,
    flatMap_append]
  -- no edit of the part starts behind the stretch
  have hend : pieceAt (part.map (rebase a)) ((items.drop a).take (b - a))[b - a]? (b - a) = [] := by
    rw [pieceAt, getElem?_eq_none (Nat.le_of_eq hlen), generatedAt_ne]
    · simp
    · intro e he hstart
      obtain ⟨f, hf, rfl⟩ := List.mem_map.mp he
      have := h.inside f hf
      change f.span.start - a = b - a at hstart
      omega
  have hpcs : ∀ i ∈ List.range (b - a),
      pieceAt (part.map (rebase a)) ((items.drop a).take (b - a))[i]? i = pieceAt edits items[a + i]? (a + i) := by
    intro i hi
    have hi := mem_range.mp hi
    rw [pieceAt, pieceAt, h.generatedAt hdist hi, h.covers hi, getElem?_take_of_lt hi, getElem?_drop]
  rw [flatMap_singleton, hend, append_nil, flatMap_def, map_congr_left hpcs,
    range'_eq_map_range, flatMap_def, List.map_map]
  rfl

end Edit

open Php TokenStream Call Wiring Magento

section

variable {table : AliasTable} {s : TokenStream}

/-! ## §2. The calls inside an argument. -/

def nestedEdits (table : AliasTable) (s : TokenStream) (a b : Nat) : List (Edit Token) :=
  (((scan table s).filter fun inv => a ≤ inv.span.start && inv.span.stop ≤ b).flatMap Invocation.edits).map (rebase a)

theorem IsItem.not_outer_comma (h : IsItem table s a b) (hleft : left + 1 ≤ a) (ha : a ≤ comma)
    (hb : comma < b) (hk : s.kind? comma = some .comma) : ¬ Balanced (s.kindsIn (left + 1) comma) := by
  intro houter
  -- what the item opens before the comma would still be open there, but nothing is
  refine h.noComma comma ha hb hk ?_
  have hitem := h.balanced
  unfold Php.Balanced at houter hitem ⊢
  rw [kindsIn_append s ha hb.le, expected_append] at hitem
  obtain ⟨opened, hopened, -⟩ := bind_eq_some_iff.mp hitem
  rw [kindsIn_append s hleft ha, expected_append] at houter
  obtain ⟨below, -, houter⟩ := bind_eq_some_iff.mp houter
  have hboth := expected_append_left below _ hopened
  rw [nil_append, houter, some.injEq] at hboth
  rw [hopened, (append_eq_nil_iff.mp hboth.symm).1]

theorem IsItem.call_inside {p : Nat} (h : IsItem table s a b) (hinv : inv ∈ scan table s)
    {c : CodeEdit} (hc : c ∈ inv.codeEdits) (ha : a ≤ p) (hb : p < b) (hle : c.span.start ≤ p)
    (hp : c.span.start = p ∨ p < c.span.stop) : a ≤ inv.span.start ∧ inv.span.stop ≤ b := by
  have hhead := head_lt hinv
  -- it is enough that the call does not begin before the item
  suffices hstart : a ≤ inv.span.start by
    have hin := (isCall_mem hinv).anatomy.codeEdits_inside hc
    exact ⟨hstart, h.stop_le hinv hstart (by omega)⟩
  rcases h.starts inv hinv with hstart | hend
  · exact hstart
  · exfalso
    rcases Invocation.mem_codeEdits.mp hc with rfl | htail
    · change inv.span.start = p ∨ p < inv.headEnd at hp
      omega
    · obtain ⟨left, close, commas, hheadEnd, -, hclose, htop, hkind, hspan | ⟨comma, hcomma, hspan⟩⟩ :=
        (isCall_mem hinv).anatomy.tail_cases htail
      · -- the parenthesis in the item would close a bracket in front of it
        rw [hspan] at hle hp
        change close ≤ p at hle
        change close = p ∨ p < close at hp
        obtain rfl : close = p := by omega
        obtain ⟨o, hao, -, ho⟩ := exists_open_of_balanced h.size h.balanced ha hb hkind rfl
        have := close_injective hclose ho
        omega
      · rw [hspan] at hle hp
        change comma ≤ p at hle
        change comma = p ∨ p < comma + 1 at hp
        obtain rfl : comma = p := by omega
        obtain ⟨-, hsize⟩ := lt_close hclose
        obtain ⟨-, -, -, -, hbal⟩ := close_iff.mp hclose
        obtain ⟨-, -, hk, houter⟩ := (mem_topCommas?_iff hsize.le hbal htop).mp hcomma
        exact h.not_outer_comma (by omega) ha hb hk houter

theorem IsItem.partOf (h : IsItem table s a b) :
    PartOf (callEdits table s)
      (((scan table s).filter fun inv => a ≤ inv.span.start && inv.span.stop ≤ b).flatMap Invocation.edits) a b where
  sublist := List.Sublist.flatMap filter_sublist _
  inside := by
    intro e he
    obtain ⟨inv, hinv, he⟩ := mem_flatMap.mp he
    obtain ⟨hinv, hspan⟩ := mem_filter.mp hinv
    rw [Bool.and_eq_true, decide_eq_true_eq, decide_eq_true_eq] at hspan
    obtain ⟨c, hc, rfl⟩ := List.mem_map.mp he
    have hcall := isCall_mem hinv
    obtain ⟨h₁, h₂, h₃⟩ := hcall.anatomy.codeEdits_inside hc
    have hlt : c.span.start < inv.span.stop := by
      rcases Invocation.mem_codeEdits.mp hc with rfl | htail
      · exact (head_lt hinv).trans_le hcall.anatomy.headEnd_le_stop
      · have := hcall.anatomy.tail_bounds htail
        omega
    refine ⟨?_, ?_, ?_⟩
    · show a ≤ c.span.start
      omega
    · show c.span.start < b
      omega
    · show c.span.stop ≤ b
      omega
  all := by
    intro e he p ha hb hle hp
    obtain ⟨inv, hinv, c, hc, rfl⟩ := mem_callEdits he
    obtain ⟨h₁, h₂⟩ := h.call_inside hinv hc ha hb hle hp
    refine mem_flatMap.mpr ⟨inv, mem_filter.mpr ⟨hinv, ?_⟩, List.mem_map.mpr ⟨c, hc, rfl⟩⟩
    rw [Bool.and_eq_true, decide_eq_true_eq, decide_eq_true_eq]
    exact ⟨h₁, h₂⟩

theorem applyAll_nested (h : IsItem table s a b) :
    applyAll (s.tokensIn a b) (nestedEdits table s a b) = .ok (becomes table s a b) := by
  have hsize : b ≤ s.tokens.toList.length := by
    rw [Array.length_toList]
    exact h.size
  have hfits : Fits s.tokens.toList.length (callEdits table s) := by
    rw [Array.length_toList]
    exact callEdits_fit table s
  rw [tokensIn, nestedEdits, h.partOf.applyAll hfits (callEdits_distinct table s) hsize, becomes_eq_flatMap h.le h.size]
  simp only [tokens_getElem?]

/-! ## §3. Recognised reads. -/

def Call.Pattern.storeGetter : Pattern → String
  | .getStoreConfigFlag => "isSetFlag"
  | _ => "getValue"

theorem matchHead?_store (hp : p.readsStore) (head : Head) (method : String) :
    p.matchHead? table s head method = matchStoreConfig? p p.storeGetter s head := by
  cases p <;> first | rfl | cases hp

theorem isEmpty_iff {args : Arguments} (hclose : s.matchingClose? args.left = some args.close) :
    args.isEmpty s ↔ s.codeIn (args.left + 1) args.close = [] := by
  obtain ⟨hlt, hsize⟩ := lt_close hclose
  obtain ⟨k, -, hk⟩ := opener_close hclose
  obtain ⟨t, ht, hkind⟩ := map_eq_some_iff.mp hk
  have hsig : t.isTrivia = false := by
    refine Bool.eq_false_iff.mpr fun htriv => ?_
    have hplain := (Kind.isPlain_iff.mp (Kind.isPlain_trivia htriv)).2
    rw [isCloser_of_close hclose (kind?_get? ht)] at hplain
    cases hplain
  obtain ⟨j, hnext, hjc⟩ := exists_next hlt ht hsig
  rw [Arguments.isEmpty, hnext, beq_iff_eq, some.injEq]
  constructor
  · rintro rfl
    refine codeIn_eq_nil fun j' hj' => ?_
    rw [hnext, some.injEq] at hj'
    omega
  · intro hnil
    by_contra hne
    obtain ⟨u, hu⟩ := get?_of_lt (show j < s.size by omega)
    rw [codeIn_next hnext hu (by omega)] at hnil
    cases hnil

/-- The argument list of the method at `method` is closed, has code in it, and has one or two arguments. -/
def HasOneOrTwoArguments (s : TokenStream) (method : Nat) : Prop :=
  ∃ left close, s.followedBy? method .leftParen = some left ∧ s.matchingClose? left = some close
    ∧ s.codeIn (left + 1) close ≠ [] ∧ (s.itemsIn (left + 1) close).length ≤ 2

theorem length_itemsIn {close : Nat} {commas : List Nat} (hclose : s.matchingClose? left = some close)
    (htop : topCommas? s close (left + 1) = some commas) :
    (s.itemsIn (left + 1) close).length = commas.length + 1 := by
  obtain ⟨hlt, hsize⟩ := lt_close hclose
  obtain ⟨-, -, -, -, hbal⟩ := close_iff.mp hclose
  rw [itemsIn_eq_cutAt hsize.le hlt hbal htop, length_cutAt]

theorem matchStoreConfig?_isSome_iff {p : Pattern} {getter : String} {head : Head} :
    (matchStoreConfig? p getter s head).isSome ↔ HasOneOrTwoArguments s head.method := by
  rw [isSome_iff_exists]
  constructor
  · rintro ⟨inv, h⟩
    unfold matchStoreConfig? at h
    obtain ⟨args, hargs, h⟩ := bind_eq_some_iff.mp h
    obtain ⟨hleft, hclose, htop⟩ := arguments?_spec hargs
    split at h
    · cases h
    · rename_i hempty
      rw [isEmpty_iff hclose] at hempty
      refine ⟨args.left, args.close, hleft, hclose, hempty, ?_⟩
      rw [length_itemsIn hclose htop]
      dsimp only at h
      split at h
      · rename_i hcommas
        rw [hcommas]
        decide
      · rename_i comma hcommas
        rw [hcommas]
        exact Nat.le_refl 2
      · cases h
  · rintro ⟨left, close, hleft, hclose, hcode, hitems⟩
    obtain ⟨hlt, hsize⟩ := lt_close hclose
    obtain ⟨-, -, -, -, hbal⟩ := close_iff.mp hclose
    obtain ⟨commas, htop⟩ := exists_topCommas? hsize.le hlt hbal
    have hargs : arguments? s head.method = some ⟨left, close, commas⟩ := by
      unfold arguments?
      simp only [hleft, hclose, htop, bind_eq_bind, bind_some]
      rfl
    have hempty : ¬ (⟨left, close, commas⟩ : Arguments).isEmpty s := by
      rw [isEmpty_iff hclose]
      exact hcode
    rw [length_itemsIn hclose htop] at hitems
    unfold matchStoreConfig?
    rw [hargs, bind_eq_bind, bind_some, if_neg hempty]
    -- of two commas or more, nothing is left to show
    match commas, hitems with
    | [], _ => exact ⟨_, rfl⟩
    | [comma], _ => exact ⟨_, rfl⟩

theorem store_methods : ∀ p ∈ Pattern.catalog, p.readsStore → ∀ m ∈ p.methods, ∀ q ∈ Pattern.catalog,
    ((q.methods.find? (sameWord · m)).isSome ↔ q = p) := by
  decide +kernel

theorem matchAt?_store_iff {head : Head} (hhead : head? s i = some head)
    (hp : p.readsStore) (hmeth : p.methods.any (sameWord · (s.text head.method))) :
    (matchAt? table s i).isSome ↔ HasOneOrTwoArguments s head.method := by
  obtain ⟨m, hm, hword⟩ := List.any_eq_true.mp hmeth
  -- the name in the file stands for the one of the pattern
  have hsame : ∀ w, sameWord w (s.text head.method) = sameWord w m := by
    intro w
    unfold sameWord at hword ⊢
    rw [beq_iff_eq.mp hword]
  have hmethods := store_methods p (Pattern.mem_catalog p) hp m hm
  rw [matchAt?, hhead, bind_some, isSome_findSome?, List.any_eq_true,
    ← @matchStoreConfig?_isSome_iff s p p.storeGetter head]
  constructor
  · rintro ⟨q, hq, hsome⟩
    obtain ⟨inv, hinv⟩ := isSome_iff_exists.mp hsome
    obtain ⟨method, hfound, hmatch⟩ := bind_eq_some_iff.mp hinv
    simp only [hsame] at hfound
    obtain rfl : q = p := (hmethods q hq).mp (by rw [hfound]; rfl)
    rw [matchHead?_store hp] at hmatch
    rw [hmatch]
    rfl
  · intro hsome
    obtain ⟨method, hfound⟩ := isSome_iff_exists.mp ((hmethods p (Pattern.mem_catalog p)).mpr rfl)
    refine ⟨p, Pattern.mem_catalog p, ?_⟩
    unfold Pattern.match?
    simp only [hsame, hfound, bind_some, matchHead?_store hp]
    exact hsome

/-! ## §4. What becomes of a read. -/

/-- `$this->scopeConfig->getValue(`, or with another getter, token by token. -/
def readTokens (getter : String) : List Token :=
  [⟨.variableName, "$this"⟩, ⟨.arrow, "->"⟩, ⟨.identifier, "scopeConfig"⟩, ⟨.arrow, "->"⟩, ⟨.identifier, getter⟩,
   ⟨.leftParen, "("⟩]

def scopeItem : List Token :=
  [⟨.whitespace, " "⟩, ⟨.qualifiedName, "\\Magento\\Store\\Model\\ScopeInterface"⟩, ⟨.doubleColon, "::"⟩,
   ⟨.identifier, "SCOPE_STORE"⟩]

def commaToken : Token := ⟨.comma, ","⟩

theorem lexFragment_scope : lexFragment (", " ++ scopeStore) = commaToken :: scopeItem := by decide +kernel

theorem lexFragment_scope_comma : lexFragment (", " ++ scopeStore ++ ",")
    = commaToken :: (scopeItem ++ [commaToken]) := by
  decide +kernel

theorem oneItem_scopeItem : OneItem scopeItem := .of_no_comma rfl (by decide)

/-- The parts of a recognised read: its argument list, and what is written at its head and into the list. -/
structure ReadAt (table : AliasTable) (s : TokenStream) (inv : Invocation) (left close : Nat) : Prop
    extends OpensArguments table s inv left close where
  stop : inv.span.stop = close + 1
  modern : lexFragment inv.modern = readTokens inv.pattern.storeGetter
  /-- The scope goes to the end of the list, or into the place of its comma. -/
  list : (topCommas? s close (left + 1) = some [] ∧ inv.tail = some ⟨.empty close, ", " ++ scopeStore⟩)
      ∨ ∃ comma, topCommas? s close (left + 1) = some [comma]
        ∧ inv.tail = some ⟨⟨comma, comma + 1⟩, ", " ++ scopeStore ++ ","⟩

theorem readAt_of_pattern (hinv : inv ∈ scan table s) (hpat : inv.pattern.readsStore) :
    ∃ left close, ReadAt table s inv left close := by
  obtain ⟨head, p, method, -, -, hmatch⟩ := matchAt?_cases (isCall_mem hinv)
  rw [(matchHead?_pattern hmatch).1] at hpat
  rw [matchHead?_store hpat] at hmatch
  have hcode : ∀ p ∈ Pattern.catalog, p.readsStore →
      lexFragment (scopeConfig.property ++ "->" ++ p.storeGetter ++ "(") = readTokens p.storeGetter := by
    decide +kernel
  have hmod := hcode p (Pattern.mem_catalog p) hpat
  unfold matchStoreConfig? at hmatch
  obtain ⟨args, hargs, hmatch⟩ := bind_eq_some_iff.mp hmatch
  obtain ⟨hleft, hclose, htop⟩ := arguments?_spec hargs
  have hopens := (followedBy?_spec hleft).2.1
  refine ⟨args.left, args.close, ?_⟩
  split at hmatch
  · cases hmatch
  · dsimp only at hmatch
    split at hmatch
    · rename_i hnone
      rw [hnone] at htop
      cases hmatch
      exact ⟨⟨hinv, rfl, hopens, hclose⟩, rfl, hmod, .inl ⟨htop, rfl⟩⟩
    · rename_i comma hone
      rw [hone] at htop
      cases hmatch
      exact ⟨⟨hinv, rfl, hopens, hclose⟩, rfl, hmod, .inr ⟨comma, htop, rfl⟩⟩
    · cases hmatch

theorem OpensArguments.tokensIn_list {close : Nat} (h : OpensArguments table s inv left close) :
    (convertedStream table s).tokensIn (convertedOffset table s (left + 1))
        (placeOf s.tokens.toList (callEdits table s) close)
      = becomes table s (left + 1) close ++ generatedAt (callEdits table s) close := by
  obtain ⟨hlt, hsize⟩ := lt_close h.closes
  have hnew := @tokensIn_new s (callEdits table s) close hsize.le
  have hbehind : convertedOffset table s (left + 1) ≤ convertedOffset table s close := offsetOf_mono hlt
  exact (tokensIn_append _ hbehind (offset_le_place close)).trans (congrArg _ hnew)

namespace ReadAt

variable {inv : Invocation} {left close : Nat}

section

variable (h : ReadAt table s inv left close)

include h

theorem offset_list : convertedOffset table s (left + 1) = convertedOffset table s inv.span.start + 5 + 1 := by
  have hoff := h.offset_arguments
  rw [h.modern] at hoff
  exact hoff

theorem reads :
    (convertedStream table s).tokensIn (convertedOffset table s inv.span.start)
      (convertedOffset table s inv.span.start + 5 + 1) = readTokens inv.pattern.storeGetter := by
  rw [← h.offset_list, ← h.headEnd, ← h.modern]
  exact becomes_head h.mem

theorem isItem_bounds : CutsNoHead table s close ∧ Balanced (s.kindsIn (left + 1) close) := by
  obtain ⟨-, -, -, -, hbal⟩ := close_iff.mp h.closes
  exact ⟨(edit_at_callClose h.mem h.headEnd h.closes h.kind_close).1.cuts.1, hbal⟩

theorem further_balanced : Balanced ((generatedAt (callEdits table s) close).map Token.kind) := by
  rcases h.further_kinds with hbal | ⟨htwo, -⟩
  · exact hbal
  · rw [h.modern] at htwo
    cases htwo

end

theorem closes_list (htable : table.WellFormed) (h : ReadAt table s inv left close) :
    (convertedStream table s).matchingClose? (convertedOffset table s inv.span.start + 5)
      = some (placeOf s.tokens.toList (callEdits table s) close) := by
  have hparen : (convertedStream table s).get? (convertedOffset table s inv.span.start + 5) = some ⟨.leftParen, "("⟩ :=
    get?_head h.mem (by rw [h.modern]; rfl)
  have hle : convertedOffset table s (left + 1) ≤ placeOf s.tokens.toList (callEdits table s) close :=
    (offsetOf_mono (lt_close h.closes).1).trans (offset_le_place close)
  rw [h.offset_list] at hle
  refine close_iff.mpr ⟨.rightParen, ?_, hle, h.get?_close, ?_⟩
  · rw [kind?_get? hparen]
    rfl
  · rw [← h.offset_list, ← map_kind_tokensIn, h.tokensIn_list, map_append]
    refine Balanced.append ?_ h.further_balanced
    rw [becomes, map_kind_tokensIn]
    exact h.balanced_arguments htable

theorem generatedAt_close_of_comma (h : ReadAt table s inv left close)
    (htail : inv.tail = some ⟨⟨comma, comma + 1⟩, code⟩) : generatedAt (callEdits table s) close = [] := by
  rcases h.generatedAt_close with hnone | ⟨c, hc, hspan, -⟩
  · exact hnone
  · rw [htail, some.injEq] at hc
    subst hc
    have h₁ : comma = close := congrArg Span.start hspan
    have h₂ : comma + 1 = close := congrArg Span.stop hspan
    omega

theorem becomes_comma (h : ReadAt table s inv left close) (hsize : comma < s.size)
    (htail : inv.tail = some ⟨⟨comma, comma + 1⟩, code⟩) : becomes table s comma (comma + 1) = lexFragment code := by
  have hedit := mem_callEdits_of_mem h.mem (Invocation.mem_codeEdits.mpr (.inr htail))
  have hgen : generatedAt (callEdits table s) comma = lexFragment code :=
    generatedAt_mem (callEdits_distinct table s) hedit
  have hcov : covers (callEdits table s) comma :=
    covers_iff.mpr ⟨_, hedit, le_rfl, comma.lt_succ_self⟩
  rw [becomes_succ hsize, pieceAt, hgen, hcov, if_pos rfl, append_nil]

end ReadAt

/-- `b` is `a`, the tokens of the file from `i` on, with the calls inside it rewritten. -/
def Rewrites (table : AliasTable) (s : TokenStream) (i : Nat) (a b : List Token) : Prop :=
  applyAll a (nestedEdits table s i (i + a.length)) = .ok b

theorem rewrites_becomes (h : IsItem table s a b) : Rewrites table s a (s.tokensIn a b) (becomes table s a b) := by
  have hle := h.le
  rw [Rewrites, length_tokensIn h.size, show a + (b - a) = b by omega]
  exact applyAll_nested h

/-- What becomes of the arguments from `left` to `close`, in the list of `t` from `left'` to `close'`: the scope is named
behind the first of them, and the second, if there is one, follows it. -/
inductive ScopesArguments (table : AliasTable) (s t : TokenStream) (left close left' close' : Nat) : Prop where
  | one (a a' : List Token) (before : s.itemsIn (left + 1) close = [a])
      (after : t.itemsIn (left' + 1) close' = [a', scopeItem]) (path : Rewrites table s (left + 1) a a')
  | two (a b a' b' : List Token) (before : s.itemsIn (left + 1) close = [a, b])
      (after : t.itemsIn (left' + 1) close' = [a', scopeItem, b']) (path : Rewrites table s (left + 1) a a')
      (store : Rewrites table s (close - b.length) b b')

/-- The call is a read, and the stream `t` has a read with the scope in its place. -/
structure ScopedRead (table : AliasTable) (s t : TokenStream) (inv : Invocation) (left close left' close' : Nat) :
    Prop where
  headEnd : inv.headEnd = left + 1
  stop : inv.span.stop = close + 1
  closes : s.matchingClose? left = some close
  reads : t.tokensIn (convertedOffset table s inv.span.start) (left' + 1) = readTokens inv.pattern.storeGetter
  closes' : t.matchingClose? left' = some close'
  arguments : ScopesArguments table s t left close left' close'

namespace ReadAt

variable {inv : Invocation} {left close : Nat}

variable (htable : table.WellFormed) (h : ReadAt table s inv left close)

include htable h

theorem scopes_path (htop : topCommas? s close (left + 1) = some [])
    (htail : inv.tail = some ⟨.empty close, ", " ++ scopeStore⟩) :
    ScopesArguments table s (convertedStream table s) left close (convertedOffset table s inv.span.start + 5)
      (placeOf s.tokens.toList (callEdits table s) close) := by
  obtain ⟨hlt, hsize⟩ := lt_close h.closes
  obtain ⟨hcut, hbal⟩ := h.isItem_bounds
  have hitem := isItem_of_no_commas hlt hsize.le h.cuts_arguments hcut hbal htop
  refine .one _ _ (itemsIn_eq_cutAt hsize.le hlt hbal htop) ?_ (rewrites_becomes hitem)
  rw [itemsIn, ← h.offset_list, h.tokensIn_list, h.generatedAt_close_of_some htail, lexFragment_scope,
    oneItem_becomes htable hitem, itemsFrom_comma rfl, nil_append]
  have hscope := oneItem_scopeItem [] []
  rw [append_nil, nil_append] at hscope
  rw [hscope]
  rfl

theorem scopes_store (htop : topCommas? s close (left + 1) = some [comma])
    (htail : inv.tail = some ⟨⟨comma, comma + 1⟩, ", " ++ scopeStore ++ ","⟩) :
    ScopesArguments table s (convertedStream table s) left close (convertedOffset table s inv.span.start + 5)
      (placeOf s.tokens.toList (callEdits table s) close) := by
  obtain ⟨hlt, hsize⟩ := lt_close h.closes
  obtain ⟨hcut, hbal⟩ := h.isItem_bounds
  obtain ⟨hpath, hstore⟩ := isItem_of_comma hsize.le h.cuts_arguments hcut hbal htop
  have hle := hpath.le
  have hlc := hstore.le
  have hlen : close - (s.tokensIn (comma + 1) close).length = comma + 1 := by
    rw [length_tokensIn hstore.size]
    omega
  refine .two _ _ _ (becomes table s (comma + 1) close) (itemsIn_eq_cutAt hsize.le hlt hbal htop) ?_
    (rewrites_becomes hpath) ?_
  · -- the two commas of the new code separate the scope from what is around it
    rw [itemsIn, ← h.offset_list, h.tokensIn_list, h.generatedAt_close_of_comma htail, append_nil,
      becomes_append hle (show comma ≤ close by omega), becomes_append comma.le_succ hlc,
      h.becomes_comma (by omega) htail, lexFragment_scope_comma, oneItem_becomes htable hpath, cons_append,
      itemsFrom_comma rfl, append_assoc, oneItem_scopeItem, singleton_append, itemsFrom_comma rfl]
    have hlast := oneItem_becomes htable hstore [] []
    rw [append_nil, nil_append] at hlast
    rw [hlast]
    rfl
  · rw [hlen]
    exact rewrites_becomes hstore

theorem scopedRead :
    ScopedRead table s (convertedStream table s) inv left close (convertedOffset table s inv.span.start + 5)
      (placeOf s.tokens.toList (callEdits table s) close) := by
  refine ⟨h.headEnd, h.stop, h.closes, h.reads, h.closes_list htable, ?_⟩
  rcases h.list with ⟨htop, htail⟩ | ⟨comma, htop, htail⟩
  · exact h.scopes_path htable htop htail
  · exact h.scopes_store htable htop htail

end ReadAt

end

/-- **Reads of the store configuration keep their arguments.** The batch succeeds. A read that the scan finds becomes
a read with a scope: its one argument comes first and the scope second, or its two arguments come first and third with
the scope between them; and each argument is what the calls inside it make of it. A read is recognised exactly if it
has one or two arguments. -/
theorem convertCalls_scopes_reads {table : AliasTable} (htable : table.Reachable) (s : TokenStream) :
    (∃ t, Migrator.convertCalls s (scan table s) = .ok t
        ∧ ∀ inv ∈ scan table s, inv.pattern.readsStore = true →
          ∃ left close left' close', ScopedRead table s t inv left close left' close')
      ∧ ∀ (i : Nat) (head : Head) (p : Pattern), head? s i = some head → p.readsStore = true →
          p.methods.any (sameWord · (s.text head.method)) = true →
            ((matchAt? table s i).isSome = true ↔ HasOneOrTwoArguments s head.method) := by
  refine ⟨⟨_, convertCalls_scan table s, fun inv hinv hpat => ?_⟩, fun i head p hhead hp hmeth => ?_⟩
  · obtain ⟨left, close, hread⟩ := readAt_of_pattern hinv hpat
    exact ⟨left, close, _, _, hread.scopedRead htable.wellFormed⟩
  · exact matchAt?_store_iff hhead hp hmeth

/-- A read in the arguments of another, both with a store, and a read with three arguments. -/
def readsInReads : TokenStream :=
  .ofSource "<?php Mage::getStoreConfig(g(Mage::getStoreConfigFlag('p', 1)), 2);Mage::getStoreConfig(1, 2, 3);"

theorem convertCalls_scopes_reads_readsInReads :
    (scan .builtin readsInReads).map (·.pattern) = [.getStoreConfig, .getStoreConfigFlag]
      ∧ (∃ t, Migrator.convertCalls readsInReads (scan .builtin readsInReads) = .ok t
        ∧ ∀ inv ∈ scan .builtin readsInReads, inv.pattern.readsStore = true →
          ∃ left close left' close', ScopedRead .builtin readsInReads t inv left close left' close')
      ∧ head? readsInReads 22 = some ⟨22, 24⟩ ∧ ¬ HasOneOrTwoArguments readsInReads 24 := by
  obtain ⟨hreads, hrecognised⟩ := convertCalls_scopes_reads .builtin readsInReads
  have hfacts : (scan .builtin readsInReads).map (·.pattern) = [.getStoreConfig, .getStoreConfigFlag]
      ∧ head? readsInReads 22 = some ⟨22, 24⟩
      ∧ Pattern.getStoreConfig.methods.any (sameWord · (readsInReads.text 24))
      ∧ (matchAt? .builtin readsInReads 22).isSome = false := by
    rw [show readsInReads = .ofTokens _ from ofSource_ofList _]
    decide +kernel
  obtain ⟨hscan, hhead, hmeth, hnone⟩ := hfacts
  refine ⟨hscan, hreads, hhead, fun hhas => ?_⟩
  rw [← hrecognised 22 ⟨22, 24⟩ .getStoreConfig hhead rfl hmeth, hnone] at hhas
  cases hhas

end MageUplift
