import MageUplift.Proofs.TokenJoints

/-!
# Reading tokens again

A token that joins another text as it joined its own is read again. There is one lemma for each rule of code; most
rules see from the token's own text that they apply, and the rest is where the token ends. The rule for operators is
the last one, so where an operator was read, the rules in front of it have to decline again.
-/

namespace MageUplift.Php

open List Option

/-! ## §1. One lemma for each rule. -/

section

variable {t : Token} {last : Option Kind} {c : Char} {w ρ₀ ρ : List Char} {l : Lexeme}

theorem nameRun_ne_zero (h : nextIs isNameStart ρ) : nameRun ρ ≠ 0 := by
  cases ρ with
  | nil => cases h
  | cons x ρ =>
    rw [nameRun, show isNamePart x = true from namePart_of_start h]
    exact Nat.succ_ne_zero _

theorem nameRun_append (h : nameRun (w ++ ρ₀) = w.length) :
    nameRun ρ₀ = 0 ∧ ∀ ρ, nameRun ρ = 0 → nameRun (w ++ ρ) = w.length := by
  induction w with
  | nil => exact ⟨h, fun ρ hρ => hρ⟩
  | cons d w ih =>
    rw [cons_append, nameRun, length_cons] at h
    split at h
    · rename_i hpart
      obtain ⟨hend, hrest⟩ := ih (by omega)
      refine ⟨hend, fun ρ hρ => ?_⟩
      rw [cons_append, nameRun, if_pos, hrest ρ hρ, length_cons]
      rw [Bool.or_eq_true, Bool.and_eq_true] at hpart ⊢
      refine hpart.imp_right (And.imp_right fun hnext => ?_)
      cases w with
      | cons e w => exact hnext
      | nil =>
        -- a segment behind the separator would have been read with it
        exact absurd hend (nameRun_ne_zero hnext)
    · omega

theorem lineBreakLength_cons (x : Char) (cs : List Char) : lineBreakLength (x :: cs)
    = if x = '\r' then (if nextIs (· == '\n') cs then 2 else 1) else if x = '\n' then 1 else 0 := by
  by_cases hr : x = '\r'
  · subst hr
    cases cs with
    | nil => rfl
    | cons y cs => by_cases hy : y = '\n' <;> simp [lineBreakLength, nextIs, hy]
  · by_cases hn : x = '\n' <;> simp [lineBreakLength, hr, hn]

theorem lineBreakLength_same {d : Char} {σ₀ : List Char} (h : lineBreakLength (w ++ d :: σ₀) = w.length) (σ : List Char) :
    lineBreakLength (w ++ d :: σ) = w.length := by
  cases w with
  | nil =>
    rw [nil_append, lineBreakLength_cons] at h ⊢
    split at h
    · split at h <;> cases h
    · rename_i hr
      rw [if_neg hr]
      exact h
  | cons x w =>
    have hnext : nextIs (· == '\n') (w ++ d :: σ) = nextIs (· == '\n') (w ++ d :: σ₀) := by
      cases w <;> rfl
    rw [cons_append, lineBreakLength_cons] at h ⊢
    rw [hnext]
    exact h

def Lexeme.Like (l l' : Lexeme) : Prop := l'.kind = l.kind ∧ l'.length = l.length

variable (hkind : l.kind = t.kind) (hlength : l.length = w.length + 1) (h : t.Joins ρ₀ ρ)

include hkind hlength h

theorem closeTagRule_rejoin (hl : closeTagRule last c (w ++ ρ₀) = some l) : l.Like (phpLexeme last c (w ++ ρ)) := by
  obtain ⟨htag, hl⟩ := ite_none_right_eq_some.mp hl
  cases hl
  rw [Bool.and_eq_true, beq_iff_eq] at htag
  obtain ⟨rfl, hclose⟩ := htag
  cases w with
  | nil =>
    have : 2 + _ = 0 + 1 := hlength
    omega
  | cons d w =>
    obtain rfl : d = '>' := eq_of_beq hclose
    have hbreak : lineBreakLength (w ++ ρ₀) = w.length := by
      have : 2 + lineBreakLength (w ++ ρ₀) = w.length + 1 + 1 := hlength
      omega
    have hsame : lineBreakLength (w ++ ρ) = lineBreakLength (w ++ ρ₀) := by
      cases h with
      | refl => rfl
      | apart frees =>
        obtain ⟨h₀, h⟩ := frees.markup (by rw [← hkind]; rfl)
        rw [h₀, h]
      | along sees => rw [hbreak, lineBreakLength_same hbreak]
    refine ⟨rfl, ?_⟩
    show 2 + lineBreakLength (w ++ ρ) = 2 + lineBreakLength (w ++ ρ₀)
    rw [hsame]

theorem lineCommentRule_rejoin (htext : t.text.toList = c :: w) (hl : lineCommentRule last c (w ++ ρ₀) = some l) :
    l.Like (phpLexeme last c (w ++ ρ)) := by
  obtain ⟨hopen, hl⟩ := ite_none_right_eq_some.mp hl
  cases hl
  rw [Bool.or_eq_true, Bool.and_eq_true, Bool.and_eq_true, beq_iff_eq, beq_iff_eq, Bool.not_eq_true'] at hopen
  have hrun : lineCommentRun 0 (w ++ ρ₀) = w.length := by
    have : 1 + lineCommentRun 0 (w ++ ρ₀) = w.length + 1 := hlength
    omega
  obtain ⟨hcom, hlex⟩ := Token.phpLexeme_lineComment htext hkind.symm hopen hrun
  have hend₀ := lineCommentRun_eq_zero hrun
  have hend : lineCommentRun 0 ρ = 0 := by
    cases h with
    | refl => exact hend₀
    | apart frees => exact frees.comment hcom
    | along sees => exact sees.comment hcom hend₀
  have hnext : nextIs (fun c => c == '>' || c == '[') ρ = false := by
    cases ρ with
    | nil => rfl
    | cons x ρ =>
      -- neither of the two ends a line
      rw [← Bool.not_eq_true]
      intro hx
      have hx : x = '>' ∨ x = '[' := by simpa [nextIs] using hx
      rcases hx with rfl | rfl <;> rw [lineCommentRun_cons (by decide)] at hend <;> cases hend
  rw [hlex last ρ hnext, hend]
  refine ⟨rfl, ?_⟩
  show 1 + (w.length + 0) = 1 + lineCommentRun 0 (w ++ ρ₀)
  rw [hrun, Nat.add_zero]

omit hkind h in
theorem eq_nil_of_open (hopen : l.length = 1 + (w ++ ρ₀).length) : ρ₀ = [] := by
  rw [hlength, length_append] at hopen
  exact eq_nil_of_length_eq_zero (by omega)

theorem blockCommentRule_rejoin (hl : blockCommentRule last c (w ++ ρ₀) = some l) :
    l.Like (phpLexeme last c (w ++ ρ)) := by
  have hlex := phpLexeme_rule (show blockCommentRule ∈ wordRules by simp [wordRules]) hl
  obtain ⟨hopen, hanswer⟩ := ite_none_right_eq_some.mp hl
  rw [Bool.and_eq_true, beq_iff_eq] at hopen
  obtain ⟨rfl, hstar⟩ := hopen
  dsimp only at hanswer
  split at hanswer
  · rename_i n hend
    cases hanswer
    obtain rfl : n = w.length := by
      have : 1 + n = w.length + 1 := hlength
      omega
    rw [phpLexeme_block_append hstar hend last last ρ, hlex]
    exact ⟨rfl, rfl⟩
  · cases hanswer
    have hencl : t.kind.isEnclosed := by
      have hkinds : ∀ b : Bool, (if b then Kind.docComment else .comment).isEnclosed := by decide
      rw [← hkind]
      exact hkinds _
    obtain rfl := eq_nil_of_open hlength rfl
    rw [h.eq_nil hencl rfl, hlex]
    exact ⟨rfl, rfl⟩

theorem dollarRule_rejoin (hl : dollarRule last c (w ++ ρ₀) = some l) : l.Like (phpLexeme last c (w ++ ρ)) := by
  suffices hsame : dollarRule last c (w ++ ρ) = some l by
    rw [phpLexeme_rule (show dollarRule ∈ wordRules by simp [wordRules]) hsame]
    exact ⟨rfl, rfl⟩
  obtain ⟨hc, hl⟩ := ite_none_right_eq_some.mp hl
  rw [dollarRule, if_pos hc]
  split at hl
  · rename_i hstart
    cases hl
    have hrun : run isNamePart (w ++ ρ₀) = w.length := by
      have : 1 + run isNamePart (w ++ ρ₀) = w.length + 1 := hlength
      omega
    obtain ⟨hall, hnext₀⟩ := run_eq_length_iff.mp hrun
    have hnext := h.nextIs_eq (fun frees => frees.label (.inl hkind.symm)) hnext₀
    cases w with
    | nil =>
      -- the name has a first character
      rw [nil_append, nextIs_false_of (fun _ => namePart_of_start) hnext₀] at hstart
      cases hstart
    | cons x w => rw [if_pos (by exact hstart), hrun, run_of_all hall hnext]
  · rename_i hstart
    cases hl
    obtain rfl : w = [] := by
      have : 1 + 0 = w.length + 1 := hlength
      exact eq_nil_of_length_eq_zero (by omega)
    rw [Bool.not_eq_true] at hstart
    have hnext := h.nextIs_eq (fun frees => frees.dollar (.inl hkind.symm)) hstart
    rw [if_neg (by rw [nil_append, hnext]; decide)]

theorem nameRule_rejoin (hl : nameRule last c (w ++ ρ₀) = some l) : l.Like (phpLexeme last c (w ++ ρ)) := by
  suffices hsame : nameRule last c (w ++ ρ) = some l by
    rw [phpLexeme_rule (show nameRule ∈ wordRules by simp [wordRules]) hsame]
    exact ⟨rfl, rfl⟩
  obtain ⟨hguard, hl⟩ := ite_none_right_eq_some.mp hl
  cases hl
  have hrun : nameRun (w ++ ρ₀) = w.length := by
    have : 1 + nameRun (w ++ ρ₀) = w.length + 1 := hlength
    omega
  have hword : t.kind.isWord := by
    rw [← hkind]
    show (if _ then Kind.qualifiedName else wordKind last _).isWord = true
    split
    · rfl
    · rcases wordKind_cases last (String.ofList (c :: (w ++ ρ₀).take (nameRun (w ++ ρ₀)))) with hk | ⟨k, hk⟩ <;>
        rw [hk] <;> rfl
  obtain ⟨hend₀, hmore⟩ := nameRun_append hrun
  have hrun' := hmore ρ (h.nameRun_eq_zero hword hend₀)
  have hguard' : (isNameStart c || (c == '\\' && nextIs isNameStart (w ++ ρ))) := by
    rw [Bool.or_eq_true, Bool.and_eq_true] at hguard ⊢
    refine hguard.imp_right (And.imp_right fun hnext => ?_)
    cases w with
    | cons x w => exact hnext
    | nil => exact absurd hend₀ (nameRun_ne_zero hnext)
  rw [nameRule, if_pos hguard']
  dsimp only
  rw [hrun, hrun', take_left, take_left]

theorem numberRule_rejoin (hl : numberRule last c (w ++ ρ₀) = some l) : l.Like (phpLexeme last c (w ++ ρ)) := by
  suffices hsame : numberRule last c (w ++ ρ) = some l by
    rw [phpLexeme_rule (show numberRule ∈ wordRules by simp [wordRules]) hsame]
    exact ⟨rfl, rfl⟩
  have hk : t.kind = .number := by
    rw [← hkind]
    unfold numberRule at hl
    split at hl
    · cases hl
      rfl
    · split at hl
      · cases hl
        rfl
      · split at hl <;> cases hl
        rfl
  have hbinds : ∀ {cs : List Char}, nextIs (fun c => isNumeral c || binds c) cs = false →
      nextIs isNumeral cs = false ∧ nextIs binds cs = false := fun hcs =>
    ⟨nextIs_false_of (fun x hx => by rw [hx]; rfl) hcs,
      nextIs_false_of (fun x hx => by rw [hx, Bool.or_true]) hcs⟩
  cases h with
  | refl => exact hl
  | apart frees =>
    obtain ⟨h₀, h⟩ := frees.number hk
    obtain ⟨hnumeral₀, hbinds₀⟩ := hbinds h₀
    obtain ⟨hnumeral, hbinds⟩ := hbinds h
    exact NumberEnd.numberRule_eq ⟨hbinds₀, hbinds, .inl ⟨hnumeral₀, hnumeral⟩⟩ hl hlength
  | @along d a σ₀ σ sees =>
    rcases sees.number hk with ⟨h, hmem, hard⟩ | ⟨h₀, h⟩
    · -- cut at the hard character
      obtain ⟨u, v, huv⟩ := append_of_mem hmem
      simp only [isHard, Bool.and_eq_true, Bool.not_eq_true'] at hard
      rw [← cons_append, huv, append_assoc, ← append_assoc] at hl ⊢
      have hend : NumberEnd w.length (w ++ u) (h :: v ++ σ₀) (h :: v ++ σ) :=
        ⟨hard.1.1, hard.1.1, .inl ⟨hard.1.2, hard.1.2⟩⟩
      exact hend.numberRule_eq hl hlength
    · rw [← cons_append, ← append_assoc] at hl ⊢
      refine NumberEnd.numberRule_eq (n := w.length) ⟨h₀, h, .inr ?_⟩ hl hlength
      rw [length_append, length_cons]
      omega

theorem stringRule_rejoin (hl : stringRule last c (w ++ ρ₀) = some l) : l.Like (phpLexeme last c (w ++ ρ)) := by
  have hlex := phpLexeme_rule (show stringRule ∈ wordRules by simp [wordRules]) hl
  rw [stringRule_eq] at hl
  obtain ⟨f, hf, rfl⟩ := map_eq_some_iff.mp hl
  have hreach : (stringEnd false [f] 1 (w ++ ρ₀)).1 = w.length + 1 := hlength
  by_cases hclosed : (stringEnd false [f] 1 (w ++ ρ₀)).2 = []
  · rw [phpLexeme_string_append hf (by rw [← hclosed, Nat.add_comm, ← hreach]) last last ρ, hlex]
    exact ⟨rfl, rfl⟩
  · obtain rfl := eq_nil_of_open hlength (stringEnd_open hclosed)
    rw [h.eq_nil (by rw [← hkind]; rfl) rfl, hlex]
    exact ⟨rfl, rfl⟩

theorem heredocRule_rejoin (hl : heredocRule last c (w ++ ρ₀) = some l) : l.Like (phpLexeme last c (w ++ ρ)) := by
  have hlex := phpLexeme_rule (show heredocRule ∈ wordRules by simp [wordRules]) hl
  obtain ⟨hopen, hanswer⟩ := ite_none_right_eq_some.mp hl
  rw [Bool.and_eq_true, beq_iff_eq, isPrefixOf_iff_prefix] at hopen
  obtain ⟨rfl, harrows⟩ := hopen
  obtain ⟨⟨label, opening⟩, hopener, rfl⟩ := map_eq_some_iff.mp hanswer
  dsimp only at hkind hlength hlex ⊢
  split at hkind
  · rename_i body hend
    rw [hend] at hlength
    have hlen : 2 + opening + body = w.length := by
      have : 1 + (2 + opening + body) = w.length + 1 := hlength
      omega
    obtain ⟨hnext₀, hsame⟩ := phpLexeme_heredoc_append harrows hopener hend hlen
    rw [hsame last ρ (h.nextIs_eq (fun frees => frees.label (.inr hkind.symm)) hnext₀), ← hlen]
    exact ⟨rfl, rfl⟩
  · rename_i hend
    rw [hend] at hlength hlex
    obtain rfl := eq_nil_of_open hlength rfl
    rw [h.eq_nil (by rw [← hkind]; rfl) rfl, hlex]
    exact ⟨rfl, rfl⟩

end

/-! ## §2. Operators and characters that no rule accepts. -/

theorem wordRules_cases (last : Option Kind) (c : Char) (cs : List Char) :
    (∃ rule ∈ wordRules, ∃ l, rule last c cs = some l) ∨ beginsWord c cs = false := by
  cases h : wordRules.findSome? fun rule => rule last c cs with
  | none => exact .inr ((wordRules_none_iff last c cs).mp (findSome?_eq_none_iff.mp h))
  | some l =>
    obtain ⟨rule, hrule, hl⟩ := exists_of_findSome?_eq_some h
    exact .inl ⟨rule, hrule, l, hl⟩

theorem operators_signs : ∀ o ∈ operators, ∀ o' ∈ operators, o'.first = o.first → o'.others ≠ [] →
    o.kind ∈ signs ∨ o'.others = o.others := by decide +kernel

section

variable {t : Token} {last : Option Kind} {c : Char} {w ρ₀ ρ : List Char}

theorem find?_operators_rejoin {o : Operator} (hkind : t.kind = o.kind) (hothers : o.others = w) (h : t.Joins ρ₀ ρ)
    (ho : operators.find? (fun o => o.first == c && o.others.isPrefixOf (w ++ ρ₀)) = some o) :
    operators.find? (fun o => o.first == c && o.others.isPrefixOf (w ++ ρ)) = some o := by
  have hmem := mem_of_find?_eq_some ho
  rw [find?_eq_some_iff_append] at ho ⊢
  obtain ⟨hfits, before, behind, hsplit, hbef⟩ := ho
  rw [Bool.and_eq_true, beq_iff_eq] at hfits
  refine ⟨?_, before, behind, hsplit, fun o' ho' => ?_⟩
  · rw [Bool.and_eq_true, beq_iff_eq, isPrefixOf_iff_prefix, hothers]
    exact ⟨hfits.1, prefix_append w ρ⟩
  · -- an operator in front of it that fits now did fit before
    have hmem' : o' ∈ operators := by
      rw [hsplit]
      exact mem_append_left _ ho'
    have hnot := hbef o' ho'
    rw [Bool.not_eq_true', ← Bool.not_eq_true, Bool.and_eq_true, beq_iff_eq, isPrefixOf_iff_prefix] at hnot ⊢
    rintro ⟨hfst, hpre⟩
    refine hnot ⟨hfst, ?_⟩
    by_cases hsame : o'.others = o.others
    · rw [hsame, hothers]
      exact prefix_append w ρ₀
    · refine h.prefix_of_others hmem' (fun hne => ?_) hpre
      rw [hkind]
      exact (operators_signs o hmem o' hmem' (hfst.trans hfits.1.symm) hne).resolve_right hsame

theorem operators_single : ∀ o ∈ operators, o.first ∈ ['?', '/', '.', '<'] → o.others = [] → o.kind ∈ signs := by decide

theorem operators_shift : ∀ o ∈ operators, o.first = '<' → o.others.head? = some '<' →
    (o.others = ['<'] ∧ o.kind ∈ signs) ∨ o.others = ['<', '='] := by decide

theorem operators_mark : ∀ o ∈ operators, (o.first = '#' → o.others = ['['])
    ∧ (o.first = '\\' → o.others = []) := by decide

theorem not_cons_prefix {x : Char} {xs ρ : List Char} (h : nextIs (· == x) ρ = false) : ¬ x :: xs <+: ρ := by
  rintro ⟨rest, rfl⟩
  exact absurd h (by simp [nextIs])

theorem beginsWord_rejoin {o : Operator} (ho : o ∈ operators) (htext : t.text.toList = c :: w) (hkind : t.kind = o.kind)
    (hfst : o.first = c) (hothers : o.others = w) (hset : t.isSettled ρ₀)
    (hlength : (phpLexeme last c (w ++ ρ₀)).length = w.length + 1) (h : t.Joins ρ₀ ρ)
    (hnone : beginsWord c (w ++ ρ₀) = false) : beginsWord c (w ++ ρ) = false := by
  have hsingle := operators_single o ho
  have hshift := operators_shift o ho
  obtain ⟨hhash, hsep⟩ := operators_mark o ho
  rw [hfst, hothers] at hsingle hshift hhash hsep
  rw [← hkind] at hsingle hshift
  -- what the first character behind a sign decides
  have hnext : ∀ {p : Char → Bool}, (∀ x, p x → (binds x || x == '/') = true) → t.kind ∈ signs →
      nextIs p ρ₀ = false → nextIs p ρ = false := fun hp hsign h₀ =>
    h.nextIs_eq (fun frees => nextIs_false_of hp (frees.sign (.inl hsign))) h₀
  have hmark : ∀ {y : Char} {p : Char → Bool}, (c = y → w = [] → nextIs p ρ₀ = false → nextIs p ρ = false) →
      (c == y && nextIs p (w ++ ρ₀)) = false → (c == y && nextIs p (w ++ ρ)) = false := by
    intro y p hp h₀
    rw [Bool.and_eq_false_iff] at h₀ ⊢
    by_cases hc : c = y
    · refine .inr ?_
      have h₀ := h₀.resolve_left (by simp [hc])
      cases w with
      | nil => exact hp hc rfl h₀
      | cons x w => exact h₀
    · exact .inl (beq_eq_false_iff_ne.mpr hc)
  have hangle : c = '<' → ¬ ['<', '<'] <+: w ++ ρ := by
    rintro rfl hpre
    have hmore : t.kind ∈ signs → nextIs (· == '<') ρ₀ = false → nextIs (· == '<') ρ = false :=
      hnext fun x hx => by rw [eq_of_beq hx]; rfl
    cases w with
    | nil =>
      -- a second sign would have been read with the first
      have h₀ : nextIs (· == '<') ρ₀ = false := by
        cases ρ₀ with
        | nil => rfl
        | cons x ρ₀ =>
          refine beq_eq_false_iff_ne.mpr ?_
          rintro rfl
          exact phpLexeme_shift_length last ρ₀ hlength
      exact not_cons_prefix (hmore (hsingle (by decide) rfl) h₀) hpre
    | cons x w =>
      obtain ⟨rfl, hrest⟩ := cons_prefix_cons.mp hpre
      rcases hshift rfl rfl with ⟨hw, hsign⟩ | hw
      · obtain rfl : w = [] := (cons.inj hw).2
        have h₀ : nextIs (· == '<') ρ₀ = false := by
          simpa [Token.isSettled, htext] using (Bool.and_eq_true_iff.mp hset).1
        exact not_cons_prefix (hmore hsign h₀) hrest
      · obtain rfl : w = ['='] := (cons.inj hw).2
        exact absurd (cons_prefix_cons.mp hrest).1 (by decide)
  simp only [beginsWord, Bool.or_eq_false_iff] at hnone ⊢
  obtain ⟨⟨⟨⟨⟨⟨hfst, hclose⟩, hslash⟩, hattr⟩, hname⟩, hdot⟩, hheredoc⟩ := hnone
  refine ⟨⟨⟨⟨⟨⟨hfst, hmark ?_ hclose⟩, hmark ?_ hslash⟩, ?_⟩, hmark ?_ hname⟩, hmark ?_ hdot⟩, ?_⟩
  · rintro rfl rfl
    exact hnext (fun x hx => by rw [eq_of_beq hx]; rfl) (hsingle (by decide) rfl)
  · rintro rfl rfl
    exact hnext (fun x hx => by rcases Bool.or_eq_true_iff.mp hx with hx | hx <;> rw [eq_of_beq hx] <;> rfl)
      (hsingle (by decide) rfl)
  · rw [Bool.and_eq_false_iff, beq_eq_false_iff_ne]
    by_cases hc : c = '#'
    · exact .inr (by rw [hhash hc]; rfl)
    · exact .inl hc
  · rintro rfl rfl
    exact h.nextIs_eq fun frees => frees.dollar (.inr htext)
  · rintro rfl rfl
    exact hnext (fun x hx => by rw [binds_of_isDigit hx]; rfl) (hsingle (by decide) rfl)
  · rw [Bool.and_eq_false_iff, Bool.and_eq_false_iff, beq_eq_false_iff_ne, ← Bool.not_eq_true, isPrefixOf_iff_prefix]
    exact .inl (Decidable.not_or_of_imp hangle)

end

theorem operators_alone : ∀ o ∈ operators, o.first = '#' ∨ ∃ o' ∈ operators, o'.first = o.first ∧ o'.others = [] := by
  decide +kernel

theorem phpLexeme_error {last : Option Kind} {c : Char} {cs : List Char} (hwords : beginsWord c cs = false)
    (hop : operatorRule last c cs = none) (cs' : List Char) :
    phpLexeme last c cs' = .code .error 0 [(.unexpectedCharacter, 0)] := by
  -- the character begins no operator
  have hfst : ∀ o ∈ operators, o.first ≠ c := by
    intro o ho hc
    rw [operatorRule, map_eq_none_iff, find?_eq_none] at hop
    rcases operators_alone o ho with hhash | ⟨o', ho', hfst, hothers⟩
    · obtain rfl : c = '#' := hc.symm.trans hhash
      refine hop ⟨'#', ['['], .attributeStart⟩ (by simp [operators]) ?_
      cases cs with
      | nil => cases hwords
      | cons x cs => simp_all [beginsWord, nextIs]
    · refine hop o' ho' ?_
      rw [Bool.and_eq_true, beq_iff_eq, hothers]
      exact ⟨hfst.trans hc, rfl⟩
  have hne : ∀ x ∈ ['?', '/', '#', '\\', '.', '<'], (c == x) = false := by
    have hall : ∀ x ∈ ['?', '/', '#', '\\', '.', '<'], ∃ o ∈ operators, o.first = x := by decide +kernel
    intro x hx
    obtain ⟨o, ho, rfl⟩ := hall x hx
    exact beq_eq_false_iff_ne.mpr (hfst o ho).symm
  have hwords' : beginsWord c cs' = false := by
    simp only [forall_mem_cons] at hne
    simp_all [beginsWord]
  have hoperator' : operatorRule last c cs' = none := by
    rw [operatorRule, map_eq_none_iff, find?_eq_none]
    intro o ho hfits
    exact hfst o ho (eq_of_beq (Bool.and_eq_true_iff.mp hfits).1)
  rw [phpLexeme_not_word hwords', hoperator']
  rfl

/-! ## §3. Reading again. -/

theorem phpLexeme_rejoin {t : Token} {last : Option Kind} {c : Char} {w ρ₀ ρ : List Char} (htext : t.text.toList = c :: w)
    (hkind : (phpLexeme last c (w ++ ρ₀)).kind = t.kind) (hlength : (phpLexeme last c (w ++ ρ₀)).length = w.length + 1)
    (hblank : t.kind ≠ .whitespace) (hset : t.isSettled ρ₀) (h : t.Joins ρ₀ ρ) :
    (phpLexeme last c (w ++ ρ₀)).Like (phpLexeme last c (w ++ ρ)) := by
  rcases wordRules_cases last c (w ++ ρ₀) with ⟨rule, hrule, l, hl⟩ | hnone
  · rw [phpLexeme_rule hrule hl] at hkind hlength ⊢
    simp only [wordRules, mem_cons, not_mem_nil, or_false] at hrule
    rcases hrule with rfl | rfl | rfl | rfl | rfl | rfl | rfl | rfl | rfl
    · obtain ⟨-, ⟨⟩⟩ := ite_none_right_eq_some.mp hl
      exact absurd hkind.symm hblank
    · exact closeTagRule_rejoin hkind hlength h hl
    · exact lineCommentRule_rejoin hkind hlength h htext hl
    · exact blockCommentRule_rejoin hkind hlength h hl
    · exact dollarRule_rejoin hkind hlength h hl
    · exact nameRule_rejoin hkind hlength h hl
    · exact numberRule_rejoin hkind hlength h hl
    · exact stringRule_rejoin hkind hlength h hl
    · exact heredocRule_rejoin hkind hlength h hl
  · cases hop : operatorRule last c (w ++ ρ₀) with
    | none =>
      rw [phpLexeme_error hnone hop, phpLexeme_error hnone hop]
      exact ⟨rfl, rfl⟩
    | some l =>
      have hlex := phpLexeme_not_word hnone last
      rw [hop, getD_some] at hlex
      obtain ⟨o, ho, rfl⟩ := map_eq_some_iff.mp hop
      have hfits := find?_some ho
      rw [Bool.and_eq_true, beq_iff_eq, isPrefixOf_iff_prefix] at hfits
      have hothers : o.others = w := by
        rw [hlex] at hlength
        have : 1 + o.others.length = w.length + 1 := hlength
        rw [prefix_iff_eq_take.mp hfits.2, show o.others.length = w.length by omega, take_left]
      have hkind' : t.kind = o.kind := by
        rw [← hkind, hlex]
        rfl
      have hnone' := beginsWord_rejoin (mem_of_find?_eq_some ho) htext hkind' hfits.1 hothers hset hlength h hnone
      rw [phpLexeme_not_word hnone', operatorRule, find?_operators_rejoin hkind' hothers h ho, hlex]
      exact ⟨rfl, rfl⟩

theorem htmlRun_markup {w ρ : List Char} (hin : ∀ u v, w = u ++ v → v ≠ [] → openTag? (v ++ ρ) = none)
    (hopen : ρ ≠ [] → (openTag? ρ).isSome) : htmlRun 0 (w ++ ρ) = w.length := by
  induction w with
  | nil =>
    cases ρ with
    | nil => rfl
    | cons x ρ =>
      rw [nil_append, htmlRun, if_pos (hopen (cons_ne_nil x ρ))]
      rfl
  | cons d w ih =>
    have hd : openTag? (d :: (w ++ ρ)) = none := hin [] (d :: w) rfl (cons_ne_nil d w)
    rw [cons_append, htmlRun, hd, if_neg (by simp), htmlRun_add,
      ih fun u v huv hv => hin (d :: u) v (by rw [huv, cons_append]) hv, length_cons]
    omega

theorem tagBlankLength_append {blanks ρ₀ : List Char} (hlen : tagBlankLength (blanks ++ ρ₀) = blanks.length)
    (hne : blanks ≠ []) {ρ : List Char} (hret : blanks.getLast? = some '\r' → mayEnd ρ = false) :
    tagBlankLength (blanks ++ ρ) = blanks.length := by
  obtain ⟨b, blanks, rfl⟩ := exists_cons_of_ne_nil hne
  unfold tagBlankLength at hlen ⊢
  rw [cons_append, lineBreakLength_cons] at hlen ⊢
  by_cases hr : b = '\r'
  · subst hr
    cases blanks with
    | nil =>
      rw [nil_append, nextIs_false_of (fun x hx => by rw [beq_iff_eq.mp hx]; rfl) (hret rfl)]
      rfl
    | cons y blanks => exact hlen
  · rw [if_neg hr] at hlen ⊢
    exact hlen

theorem htmlLexeme_rejoin {t : Token} {c : Char} {w ρ₀ ρ : List Char} (htext : t.text.toList = c :: w)
    (hkind : (htmlLexeme c (w ++ ρ₀)).kind = t.kind) (hlength : (htmlLexeme c (w ++ ρ₀)).length = w.length + 1)
    (hset : t.isSettled ρ₀) (h : t.Joins ρ₀ ρ)
    (hmarkup : t.kind = .inlineHtml → (ρ = [] → ρ₀ = []) ∧ (ρ ≠ [] → (openTag? ρ).isSome)) :
    (htmlLexeme c (w ++ ρ₀)).Like (htmlLexeme c (w ++ ρ)) := by
  rcases htmlLexeme_cases hkind hlength with htag | ⟨hk, hnone, hrun⟩
  · suffices hsame : openTag? (c :: (w ++ ρ)) = some (t.kind, w.length) by
      rw [htmlLexeme, htmlLexeme, htag, hsame]
      exact ⟨rfl, rfl⟩
    rcases openTag?_shape htag with ⟨hk, hw⟩ | ⟨p, h', q, blanks, hk, hw, hp, hh, hq, hlen, hend₀⟩
    · obtain ⟨rfl, rfl⟩ := cons.inj hw
      rw [hk]
      rfl
    · obtain ⟨rfl, rfl⟩ := cons.inj hw
      have hend : blanks = [] → ρ = [] := by
        rintro rfl
        -- without its blank the tag stood at the end
        have hρ₀ := hend₀ rfl
        cases h with
        | refl => exact hρ₀
        | apart frees => exact frees.tag hk (by rw [htext]; rfl)
        | along sees => cases hρ₀
      have hblanks : tagBlankLength (blanks ++ ρ) = blanks.length := by
        by_cases hne : blanks = []
        · rw [hne, hend hne]
          rfl
        · refine tagBlankLength_append hlen hne fun hlast => ?_
          have hfeed : t.takesFeed := by
            obtain ⟨b, blanks, rfl⟩ := exists_cons_of_ne_nil hne
            rw [Token.takesFeed, htext, hk, show ('<' :: '?' :: p :: h' :: q :: b :: blanks).getLast?
              = (b :: blanks).getLast? from by simp [getLast?_cons_cons], hlast]
            decide
          rw [Token.isSettled, hfeed, Bool.true_and, Bool.and_eq_true] at hset
          exact h.nextIs_eq (·.feed hfeed) ((Bool.not_eq_true' _).mp hset.2)
      show openTag? ('<' :: '?' :: p :: h' :: q :: (blanks ++ ρ)) = _
      rw [openTag?_blanks hp hh hq hlen hend, hblanks, Nat.add_comm 4, hk]
      rfl
  · obtain ⟨hend, hopen⟩ := hmarkup hk
    have hin := openTag?_inside hnone hrun hend hopen
    have hnone' : openTag? (c :: (w ++ ρ)) = none := hin [] (c :: w) rfl (cons_ne_nil c w)
    have hrun' : htmlRun 0 (w ++ ρ) = w.length :=
      htmlRun_markup (fun u v huv => hin (c :: u) v (by rw [huv, cons_append])) hopen
    rw [htmlLexeme, htmlLexeme, hnone, hnone']
    refine ⟨rfl, ?_⟩
    show 1 + htmlRun 0 (w ++ ρ) = 1 + htmlRun 0 (w ++ ρ₀)
    rw [hrun, hrun']

/-- **A token that joins another text as it joined its own is read again.** -/
theorem Token.ReadAfter.rejoin {t : Token} {last : Option Kind} {ρ₀ ρ : List Char} (hread : t.ReadAfter last ρ₀)
    (hblank : t.kind ≠ .whitespace) (hset : t.isSettled ρ₀) (h : t.Joins ρ₀ ρ)
    (hmarkup : t.kind = .inlineHtml → (ρ = [] → ρ₀ = []) ∧ (ρ ≠ [] → (openTag? ρ).isSome)) : t.ReadAfter last ρ := by
  obtain ⟨c, w, htext, hkind, hlength⟩ := hread
  have hlike : (lexeme t.kind.mode last c (w ++ ρ₀)).Like (lexeme t.kind.mode last c (w ++ ρ)) := by
    cases hmode : t.kind.mode with
    | php =>
      rw [hmode] at hkind hlength
      exact phpLexeme_rejoin htext hkind hlength hblank hset h
    | html =>
      rw [hmode] at hkind hlength
      exact htmlLexeme_rejoin htext hkind hlength hset h hmarkup
  exact ⟨c, w, htext, hlike.1.trans hkind, hlike.2.trans hlength⟩

theorem Token.Joins.isSettled {t : Token} {ρ₀ ρ : List Char} (h : t.Joins ρ₀ ρ) (h₀ : t.isSettled ρ₀) :
    t.isSettled ρ := by
  simp only [Token.isSettled, Bool.and_eq_true, Bool.not_eq_true', Bool.and_eq_false_iff, beq_eq_false_iff_ne] at h₀ ⊢
  obtain ⟨hshift, htag⟩ := h₀
  refine ⟨?_, or_iff_not_imp_left.mpr fun hfeed =>
    h.nextIs_eq (·.feed ((Bool.not_eq_false _).mp hfeed)) (htag.resolve_left hfeed)⟩
  by_cases htext : t.text.toList = ['<', '<']
  · refine .inr (h.nextIs_eq (fun frees => ?_) (hshift.resolve_left fun hne => hne htext))
    refine nextIs_false_of (fun x hx => ?_) (frees.sign (.inr htext))
    rw [beq_iff_eq] at hx
    subst hx
    decide
  · exact .inl htext

end MageUplift.Php
