import MageUplift.Proofs.LegibleInjection

/-!
# Migrated code is read as it was written

A migrated file is read anew from its text. Are the tokens that one finds there the tokens that the two batches put
together? The code of a call begins with a variable or a word and ends with a bracket or a name, and it stands where
the call stood, right between the neighbours of the call. So a word behind the call can become a part of its name
(`migrate_fuses_word`), and a token in front of it can take its first word along. Where calls stand apart, and nothing
else in the file waits for the text behind it, all tokens stay what they are.
-/

namespace MageUplift

open Php TokenStream Call Wiring Magento List Option Edit

variable {t : Token} {inv : Invocation}

namespace Php

/-! ## §1. Words behind a token. -/

/-- A word right behind the token would become a part of it. -/
def Token.takesWord (t : Token) : Bool :=
  [Kind.variableName, .heredoc, .dollar, .number].contains t.kind || t.text == "\\"

def goesOn (c : Char) : Bool := isNamePart c || c == '\\'

theorem not_binds_of_isNameStart {c : Char} (h : isNameStart c) : binds c = false := by
  have hdigits : ∀ c ∈ ['0', '1', '2', '3', '4', '5', '6', '7', '8', '9'], isNameStart c = false := by decide
  have hsigns : ∀ c ∈ ['*', '?', '>', '<', '[', '-', '.', '=', '+', '&', '|', ':'], isNameStart c = false := by decide
  rw [← Bool.not_eq_true]
  intro hbinds
  rw [binds, Bool.or_eq_true, contains_iff_mem] at hbinds
  have hnot : isNameStart c = false := hbinds.elim (fun hdigit => hdigits c (mem_digits hdigit)) (hsigns c)
  rw [h] at hnot
  cases hnot

open Edit in
theorem wovenFrom_of_nil {items : List Token} {edits : List (Edit Token)} {a b : Nat} (hab : a ≤ b)
    (hb : b ≤ items.length)
    (h : ∀ i, a ≤ i → i < b → pieceAt edits items[i]? i = []) : wovenFrom items edits a = wovenFrom items edits b := by
  induction hn : b - a generalizing a with
  | zero =>
    obtain rfl : a = b := by omega
    rfl
  | succ n ih =>
    have hnil := h a le_rfl (by omega)
    rw [getElem?_eq_getElem (by omega)] at hnil
    rw [wovenFrom, drop_eq_getElem_cons (by omega), weaveFrom, hnil, nil_append]
    exact ih (by omega) (fun i hai hib => h i (by omega) hib) (by omega)

theorem Token.ReadAfter.nameRun_eq_zero {last : Option Kind} {ρ : List Char} (h : t.ReadAfter last ρ)
    (hword : t.kind.isWord) : nameRun ρ = 0 := by
  have hmode : t.kind.mode = .php := by
    cases hk : t.kind <;> rw [hk] at hword <;> first | rfl | cases hword
  obtain ⟨c, w, -, hkind, hlen⟩ := h.php hmode
  rw [← hkind] at hword
  have hrun : 1 + nameRun (w ++ ρ) = w.length + 1 := by
    have hops : ∀ o ∈ operators, o.kind.isWord ≠ true := by decide
    have hspec := phpLexeme_spec last c (w ++ ρ)
    generalize phpLexeme last c (w ++ ρ) = l at hspec hword hlen
    -- only names are words
    cases hspec with
    | blockComment hkind | openComment hkind => rcases hkind with rfl | rfl <;> cases hword
    | name => exact hlen
    | operator ho => exact absurd hword (hops _ ho)
    | _ => cases hword
  exact (nameRun_append (w := w) (by omega)).1

end Php

/-! ## §2. The text of a call. -/

theorem text_of_isMage (h : isMage t) :
    ∃ c w, t.text.toList = c :: w ∧ goesOn c ∧ binds c = false ∧ isNumeral c = false
      ∧ ∀ ρ, nameRun (t.text.toList ++ ρ) ≠ 0 := by
  have hletter : ∀ {c : Char}, c.toLower = 'M'.toLower → c = 'm' ∨ c = 'M' := fun hc =>
    (eq_or_capital_of_toLower hc).imp id fun ⟨_, hval⟩ => Char.ext hval
  unfold isMage at h
  split at h
  · obtain ⟨c, w, htext, hc, -⟩ := map_eq_cons_iff.mp (toLower_of_sameWord h)
    have hpart : goesOn c ∧ isNamePart c ∧ binds c = false ∧ isNumeral c = false := by
      rcases hletter hc with rfl | rfl <;> decide
    refine ⟨c, w, htext, hpart.1, hpart.2.2.1, hpart.2.2.2, fun ρ => ?_⟩
    rw [htext, cons_append, nameRun, hpart.2.1, Bool.true_or, if_pos rfl]
    exact Nat.succ_ne_zero _
  · obtain ⟨c, v, htext, hc, htail⟩ := map_eq_cons_iff.mp (toLower_of_sameWord h)
    obtain ⟨d, w, rfl, hd, -⟩ := map_eq_cons_iff.mp htail
    obtain rfl : c = '\\' := by
      rcases eq_or_capital_of_toLower hc with hc | ⟨hle, hval⟩
      · exact hc
      · rw [hval] at hle
        exact absurd hle (by decide)
    refine ⟨'\\', d :: w, htext, by decide, by decide, by decide, fun ρ => ?_⟩
    have hnext : nextIs isNameStart (d :: w ++ ρ) := by
      rcases hletter hd with rfl | rfl <;> rfl
    rw [htext, cons_append, nameRun, hnext, if_pos (by decide)]
    exact Nat.succ_ne_zero _
  · cases h

section

variable {items : List Token} {mode : Mode} {last : Option Kind}

theorem Php.Legible.front_word (h : Legible mode last items) {i : Nat} {u : Token} (ht : items[i]? = some t)
    (hu : items[i + 1]? = some u) (hmage : isMage u) (htakes : t.takesWord = false) {c : Char}
    (hc : isNameStart c) (cs : List Char) : t.Parts (charsOf (items.drop (i + 1))) (c :: cs) := by
  obtain ⟨d, w, hutext, -, hbinds, -, hname⟩ := text_of_isMage hmage
  have hchars : charsOf (items.drop (i + 1)) = u.text.toList ++ charsOf (items.drop (i + 1 + 1)) := by
    rw [drop_of_getElem? hu, charsOf_cons]
  have hne : charsOf (items.drop (i + 1)) ≠ [] := by
    rw [hchars, hutext]
    exact cons_ne_nil _ _
  have hphp : t.kind.nextMode = .php := by
    rw [← h.mode_next ht hu]
    rcases isMage_kind hmage with hk | hk <;> rw [hk] <;> rfl
  rw [Token.takesWord, Bool.or_eq_false_iff, ← Bool.not_eq_true, contains_iff_mem] at htakes
  obtain ⟨hkind, hslash⟩ := htakes
  have hbackslash : t.text.toList ≠ ['\\'] := by
    intro heq
    rw [show t.text = "\\" from String.toList_injective heq] at hslash
    cases hslash
  have hnotBinds := not_binds_of_isNameStart hc
  refine ⟨⟨fun hword => ?_, fun hlabel => ?_, fun hdollar => ?_, fun hnumber => ?_, fun _ => ?_, fun hline => ?_,
    fun _ hnil => absurd hnil hne, fun hk hlen => absurd hlen (h.openTag_length ht hne hk), fun _ => ?_,
    fun hmarkup => ?_⟩, .inr ⟨?_, hnotBinds, fun heq => absurd heq hbackslash⟩⟩
  · -- a word in front of a name would go on with it
    have hblank : t.kind ≠ .whitespace := by
      intro hk
      rw [hk] at hword
      cases hword
    have hzero := (h.read_at ht hblank).nameRun_eq_zero hword
    rw [hchars] at hzero
    exact absurd hzero (hname _)
  · exact absurd (by rcases hlabel with hk | hk <;> rw [hk] <;> decide) hkind
  · rcases hdollar with hk | heq
    · exact absurd (by rw [hk]; decide) hkind
    · exact absurd heq hbackslash
  · exact absurd (by rw [hnumber]; decide) hkind
  · show (binds c || c == '/') = false
    rw [hnotBinds, Bool.false_or, beq_eq_false_iff_ne]
    rintro rfl
    cases hc
  · -- behind a line comment stands no call
    rcases isMage_kind hmage with hk | hk <;> rcases h.behind_lineComment ht hu hline with hk' | hk' <;>
      rw [hk] at hk' <;> cases hk'
  · show (isBlank c || c == '\x7d') = false
    rw [← Bool.not_eq_true, Bool.or_eq_true, beq_iff_eq]
    have hall : ∀ c ∈ [' ', '\t', '\n', '\r', '\x0b', '\x0c'], isNameStart c = false := by decide
    rintro (hblank | rfl)
    · rw [hall c (mem_blanks hblank)] at hc
      cases hc
    · cases hc
  · rw [hphp] at hmarkup
    cases hmarkup
  · rw [hchars, hutext]
    exact hbinds

end

/-! ## §3. How the code of calls begins and ends. -/

/-- The code ends with a name, and no number stands in front of it. -/
structure EndsWithName (code : String) : Prop where
  tokens : ∃ ts name, codeTokens none code.toList = ts ++ [⟨.identifier, name⟩] ∧ (∀ u ∈ ts, u.kind ≠ .number)
    ∧ nextIs isNameStart name.toList = true
  last : code.toList.getLast?.any isNamePart = true

theorem EndsWithName.fits {code : String} {ks : List Kind} {last : Option Kind} (h : EndsWithName code)
    (hinert : InertText code.toList ks) (hfst : BeginsFree last code) :
    (∀ ρ, nextIs goesOn ρ = false → Fits last (lexFragment code) ρ)
      ∧ ∀ last', (lexFragment code).foldl seenAfter last' = some .identifier := by
  obtain ⟨⟨ts, name, htoks, hnumbers, hname⟩, hlast⟩ := h
  obtain ⟨x, hx, hpart⟩ := (Option.any_eq_true _ _).mp hlast
  have hends : ∀ c, code.toList.getLast? = some c → isBlank c = false ∧ c ≠ '/' := by
    intro c hc
    rw [hx, some.injEq] at hc
    subst hc
    refine ⟨?_, ?_⟩
    · rw [← Bool.not_eq_true]
      intro hblank
      rw [isNamePart_of_isBlank hblank] at hpart
      cases hpart
    · rintro rfl
      cases hpart
  obtain ⟨front, hfront⟩ := lexFragment_last hinert htoks hends
  -- a number would be significant
  have hfrontNumbers : ∀ u ∈ front, u.kind ≠ .number := by
    intro u hu hk
    have hsig : significant front = ts := by
      have := lexFragment_code code
      rw [hfront, significant_append, htoks] at this
      exact append_inj_left' this rfl
    refine hnumbers u ?_ hk
    rw [← hsig, significant, mem_filter, Token.isTrivia, hk]
    exact ⟨hu, rfl⟩
  obtain ⟨c, w, hcw, hc⟩ := cons_of_nextIs hname
  have hslash : c ≠ '\\' ∧ c ≠ '<' := by
    constructor <;> rintro rfl <;> cases hc
  refine ⟨fun ρ hρ => ?_, fun last' => ?_⟩
  · refine lexFragment_fits hinert htoks (fun heq => (hends '/' heq).2 rfl) (.of_name (.inr rfl) ?_ hρ []) rfl
      (.inr (.inr ⟨⟨front, hfront, hfrontNumbers⟩, c, ?_, not_binds_of_isNameStart hc, hslash.1⟩)) hfst
    · show name.toList ≠ ['\\'] ∧ name.toList ≠ ['<', '<']
      rw [hcw]
      exact ⟨fun heq => hslash.1 (List.cons.inj heq).1, fun heq => hslash.2 (List.cons.inj heq).1⟩
    · show c ∈ name.toList
      rw [hcw]
      exact mem_cons_self
  · rw [foldl_seenAfter, lexFragment_code, htoks, getLast?_concat]
    rfl

/-- What follows a property and is no open parenthesis: nothing, a call without arguments, or a member. -/
def isMemberTarget (target : String) : Bool :=
  match codeTokens (some .identifier) target.toList with
  | [a, ⟨.identifier, name⟩] => a.kind == .arrow && nextIs isNameStart name.toList
      && target.toList.getLast?.any isNamePart
  | _ => false

theorem propertyTargets_ends : ∀ target ∈ propertyTargets, target ∉ ["->getValue(", "->isSetFlag("] →
    target = "" ∨ target = "->create()" ∨ isMemberTarget target := by
  decide +kernel

theorem property_ends {v : Collaborator} (hname : isIdentifier v.name.toList) {target : String}
    (hmem : target ∈ propertyTargets) (hclosed : target ∉ ["->getValue(", "->isSetFlag("]) :
    EndsWithName (v.property ++ target) ∨ EndsWith [')'] (v.property ++ target) := by
  have htoks := codeTokens_property hname (propertyTargets_quiet target hmem).1
  rcases propertyTargets_ends target hmem hclosed with rfl | rfl | htarget
  · -- the name of the property itself
    have hparts := nameText_identifier hname
    have hne : v.name.toList ≠ [] := by
      intro hnil
      rw [hnil] at hname
      cases hname
    refine .inl ⟨⟨[⟨.variableName, "$this"⟩, ⟨.arrow, "->"⟩], v.name, ?_, by decide, ?_⟩, ?_⟩
    · rw [htoks, show "".toList = [] from rfl, codeTokens_nil]
      rfl
    · exact (isIdentifier_iff.mp hname).1
    · rw [String.append_empty, Collaborator.property, String.toList_append, getLast?_append]
      cases hx : v.name.toList.getLast? with
      | none => exact absurd (getLast?_eq_none_iff.mp hx) hne
      | some x => exact hparts x (mem_of_getLast? hx)
  · exact .inr (EndsWith.append ⟨"->create(".toList, ')', [], rfl, by decide, forall_mem_nil _⟩ v.property)
  · unfold isMemberTarget at htarget
    split at htarget
    · rename_i a name hmember
      rw [Bool.and_eq_true, Bool.and_eq_true, beq_iff_eq] at htarget
      obtain ⟨⟨ha, hstart⟩, hlast⟩ := htarget
      refine .inl ⟨⟨[⟨.variableName, "$this"⟩, ⟨.arrow, "->"⟩, ⟨.identifier, v.name⟩, a], name, ?_, ?_, hstart⟩, ?_⟩
      · rw [htoks, hmember]
        rfl
      · simp [ha]
      · obtain ⟨x, hx, hpart⟩ := (Option.any_eq_true _ _).mp hlast
        rw [String.toList_append, getLast?_append, hx]
        exact hpart
    · cases htarget

/-- **How the code for the head of a call ends**: with a name, with a parenthesis that closes, or with the one that the
head ends with as well. -/
theorem CallForm.ends {s : TokenStream} (h : CallForm s inv)
    (hname : ∀ v, inv.collaborator = some v → isIdentifier v.name.toList) :
    EndsWithName inv.modern ∨ EndsWith [')'] inv.modern
      ∨ EndsWith ['('] inv.modern ∧ ∃ left, inv.headEnd = left + 1 ∧ s.kind? left = some .leftParen := by
  cases h with
  | property v target modern mem closed collaborator tail =>
    rw [modern]
    exact (property_ends (hname v collaborator) mem closed).imp_right .inl
  | storeConfig target e modern mem collaborator paren tail code =>
    refine .inr (.inr ⟨?_, paren⟩)
    rw [modern]
    refine EndsWith.append ?_ _
    rcases mem_cons.mp mem with rfl | mem
    · exact ⟨"->getValue".toList, '(', [], rfl, by decide, nofun⟩
    · rw [mem_singleton.mp mem]
      exact ⟨"->isSetFlag".toList, '(', [], rfl, by decide, nofun⟩
  | translation modern bare tail =>
    rw [modern]
    exact .inl ⟨⟨[], "__", by decide +kernel, nofun, by decide⟩, by decide⟩
  | exception modern bare paren tail =>
    rw [modern]
    exact .inr (.inr ⟨EndsWith.append ⟨[], '(', [], rfl, by decide, nofun⟩ _, paren⟩)
  | plainException e modern bare paren tail code =>
    rw [modern]
    exact .inr (.inr ⟨EndsWith.append ⟨"__".toList, '(', [], rfl, by decide, nofun⟩ _, paren⟩)

theorem CallForm.begins {s : TokenStream} (h : CallForm s inv) :
    (nextIs (· == '$') inv.modern.toList ∧ BeginsUnreserved inv.modern)
      ∨ nextIs isNameStart inv.modern.toList := by
  have hproperty : ∀ (v : Collaborator) (target : String), nextIs (· == '$') (v.property ++ target).toList
      ∧ BeginsUnreserved (v.property ++ target) := by
    intro v target
    refine ⟨?_, fun u hu => ?_⟩
    · rw [Collaborator.property, String.toList_append, String.toList_append]
      rfl
    · obtain ⟨t, rest, hlex, hk⟩ := lexFragment_property v target
      rw [hlex, firstCode, find?_cons_of_pos (by rw [Token.isTrivia, hk]; rfl), some.injEq] at hu
      rw [← hu, Token.isContextual, hk]
      rfl
  cases h with
  | property v target modern => exact .inl (modern ▸ hproperty v target)
  | storeConfig target e modern => exact .inl (modern ▸ hproperty _ target)
  | translation modern => exact .inr (by rw [modern]; decide)
  | exception modern => exact .inr (by rw [modern]; decide)
  | plainException e modern => exact .inr (by rw [modern]; decide)

theorem CallForm.tail_code {s : TokenStream} (h : CallForm s inv) {c : CodeEdit} (hc : inv.tail = some c) :
    (c.span.isEmpty → c.code = ", " ++ scopeStore ∨ c.code = ")")
      ∧ (c.span.isEmpty = false → c.code = ", " ++ scopeStore ++ ",") := by
  cases h with
  | property v target modern mem closed collaborator tail =>
    rw [tail] at hc
    cases hc
  | storeConfig target e modern mem collaborator paren tail code =>
    rw [tail, some.injEq] at hc
    subst hc
    rcases code with ⟨hempty, hcode⟩ | ⟨hempty, hcode⟩ <;> rw [hempty]
    · exact ⟨fun _ => .inl hcode, nofun⟩
    · exact ⟨nofun, fun _ => hcode⟩
  | translation modern bare tail =>
    rw [tail] at hc
    cases hc
  | exception modern bare paren tail =>
    rw [tail] at hc
    cases hc
  | plainException e modern bare paren tail code =>
    rw [tail, some.injEq] at hc
    subst hc
    rw [code.1]
    exact ⟨fun _ => .inr code.2, nofun⟩

/-! ## §4. Where calls write. -/

section

variable {table : AliasTable} {s : TokenStream} {p : Nat} {code : String}

/-- What a call writes in front of token `p`. -/
inductive CallEditAt (table : AliasTable) (s : TokenStream) (p : Nat) (code : String) : Prop where
  | head {inv : Invocation} (mem : inv ∈ scan table s) (start : inv.span.start = p) (code : code = inv.modern)
  /-- Code before the parenthesis that closes its argument list. -/
  | close (kind : s.kind? p = some .rightParen) (kept : covers (callEdits table s) p = false)
      (code : code = ", " ++ scopeStore ∨ code = ")")
  /-- Code in the place of the comma of its argument list. -/
  | comma (kind : s.kind? p = some .comma) (dropped : covers (callEdits table s) p = true)
      (code : code = ", " ++ scopeStore ++ ",")

theorem callEdit_at (htab : table.WellFormed) (hne : generatedAt (callEdits table s) p ≠ []) :
    ∃ code, generatedAt (callEdits table s) p = lexFragment code ∧ CallEditAt table s p code
      ∧ ∃ ks, InertText code.toList ks := by
  obtain ⟨e, he, rfl⟩ := exists_generatedAt hne
  have hgen := generatedAt_mem (scan_callsInOrder table s).edits_distinct he
  obtain ⟨inv, hinv, c, hc, rfl⟩ := mem_callEdits he
  have hcall := isCall_mem hinv
  obtain ⟨ks, ls, hcode⟩ := matchAt?_code htab hcall
  refine ⟨c.code, hgen, ?_, (hcode.of_mem hc).1⟩
  rcases mem_cons.mp hc with rfl | htail
  · exact .head hinv rfl rfl
  · -- the further code goes before the end of the list, or in the place of its comma
    have htail : inv.tail = some c := mem_toList.mp htail
    obtain ⟨left, close, commas, hheadEnd, -, hclose, hcommas, hkind, hspan⟩ := hcall.anatomy.tail_cases htail
    have hform := (matchAt?_form hcall).tail_code htail
    rcases hspan with hspan | ⟨comma, hmem, hspan⟩
    · have hstart : c.toEdit.span.start = close := by
        show c.span.start = close
        rw [hspan]
        rfl
      rw [hstart]
      exact .close hkind (not_covered_callClose hinv hheadEnd hclose hkind)
        (hform.1 (by rw [hspan]; exact beq_self_eq_true close))
    · have hstart : c.toEdit.span.start = comma := by
        show c.span.start = comma
        rw [hspan]
      have hstop : c.toEdit.span.stop = comma + 1 := by
        show c.span.stop = comma + 1
        rw [hspan]
      rw [hstart]
      refine .comma (topCommas?_spec hcommas hmem).2.2 ?_ (hform.2 ?_)
      · exact covers_iff.mpr ⟨_, he, by omega⟩
      · rw [hspan]
        exact beq_eq_false_iff_ne.mpr (Nat.succ_ne_self comma).symm

theorem CutsNoHead.kept_of_nothing (htab : table.WellFormed) (hcut : CutsNoHead table s p)
    (hnone : generatedAt (callEdits table s) p = []) :
    OutsideHeads table s p ∧ covers (callEdits table s) p = false := by
  have hwrites : ∀ e ∈ callEdits table s, e.span.start ≠ p := by
    intro e he hstart
    have := generatedAt_mem (scan_callsInOrder table s).edits_distinct he
    rw [hstart] at this
    exact (newCode_callEdits htab he).2 (this.symm.trans hnone)
  have hout : OutsideHeads table s p := hcut.outside fun inv hinv => hwrites _ (headEdit_mem hinv)
  refine ⟨hout, ?_⟩
  rw [← Bool.not_eq_true]
  intro hcov
  obtain ⟨e, he, hspan⟩ := covers_iff.mp hcov
  obtain ⟨inv, -, c, -, rfl, ⟨hc, -⟩ | ⟨left, hc, -⟩⟩ := edit_outside hout he hspan.1 (.inr hspan.2)
  · exact hwrites _ he (congrArg Span.start hc)
  · exact hwrites _ he (congrArg Span.start hc)

theorem nextIs_wovenFrom (htab : table.WellFormed) (htext : ∀ u ∈ s.tokens.toList, u.text.toList ≠ [])
    (hcut : CutsNoHead table s p) (hp : p ≤ s.size) (h : nextIs goesOn (charsOf (s.tokens.toList.drop p)) = false) :
    nextIs goesOn (charsOf (wovenFrom s.tokens.toList (callEdits table s) p)) = false := by
  rcases Nat.lt_or_eq_of_le hp with hlt | rfl
  · obtain ⟨t, ht⟩ := get?_of_lt hlt
    rw [← tokens_getElem?] at ht
    have hlen := lt_getElem? ht
    obtain ⟨d, w, hdw⟩ := exists_cons_of_ne_nil (htext t (mem_of_getElem? ht))
    rw [drop_of_getElem? ht, charsOf_cons, hdw] at h
    have hd : goesOn d = false := h
    rw [wovenFrom_eq hlen]
    by_cases hnone : generatedAt (callEdits table s) p = []
    · rw [hnone, nil_append, behindCode, (hcut.kept_of_nothing htab hnone).2, if_neg Bool.false_ne_true, ht]
      show nextIs goesOn (t.text.toList ++ _) = false
      rw [hdw]
      exact hd
    · obtain ⟨code, hcode, hedit, -⟩ := callEdit_at htab hnone
      rw [hcode, charsOf_append, chars_fragment]
      cases hedit with
      | head mem start code =>
        -- a call begins with a name
        obtain ⟨u, hu, hmage⟩ := (isCall_mem mem).isMage
        rw [start, ← tokens_getElem?, ht, some.injEq] at hu
        obtain ⟨c, w', hcw, hc, -⟩ := text_of_isMage (hu ▸ hmage)
        rw [hdw] at hcw
        rw [(List.cons.inj hcw).1, hc] at hd
        cases hd
      | close kind kept code => rcases code with rfl | rfl <;> rfl
      | comma kind dropped code =>
        rw [code]
        rfl
  · have hend : wovenFrom s.tokens.toList (callEdits table s) s.size = [] := by
      rw [wovenFrom, drop_eq_nil_of_le (by rw [Array.length_toList]; exact le_rfl), weaveFrom, pieceAt,
        generatedAt_size]
      split <;> rfl
    rw [hend]
    rfl

theorem behindCode_head (hinv : inv ∈ scan table s) : behindCode s.tokens.toList (callEdits table s) inv.span.start
      = wovenFrom s.tokens.toList (callEdits table s) inv.headEnd := by
  have hsize : inv.headEnd ≤ s.size := by
    have hcall := isCall_mem hinv
    exact hcall.anatomy.headEnd_le_stop.trans (hcall.anatomy.stop_le_size hcall.start_lt_size)
  rw [behindCode, covers_head hinv le_rfl (head_lt hinv), if_pos rfl, nil_append]
  refine wovenFrom_of_nil (head_lt hinv) (by rwa [Array.length_toList]) fun i hlt hi => ?_
  exact pieceAt_in_head hinv hlt hi _

end

/-! ## §5. Calls that stand apart. -/

/-- The code for the head of the call runs together with nothing. Where it begins with a word, the token in front does
not take the word along, and the word is not read as the name of a member, a function or a constant. Where it ends
with a word, no name goes on behind the head. -/
def Call.Invocation.standsApart (s : TokenStream) (inv : Invocation) : Bool :=
  (!nextIs isNameStart inv.modern.toList
      || !(s.get? (inv.span.start - 1)).any Token.takesWord
        && !((s.prevSignificant? inv.span.start).bind s.kind?).any Kind.isNaming)
    && (!inv.modern.toList.getLast?.any isNamePart || !nextIs goesOn (charsOf (s.tokens.toList.drop inv.headEnd)))

section

variable {table : AliasTable} {s : TokenStream} {p : Nat} {code : String}

theorem seen_eq_prev (s : TokenStream) (hp : p ≤ s.size) :
    (s.tokens.toList.take p).foldl seenAfter none = (s.prevSignificant? p).bind s.kind? := by
  cases hprev : s.prevSignificant? p with
  | some q =>
    obtain ⟨t, ht, hsig⟩ := prev_token hprev
    rw [bind_some, kind?_get? ht]
    exact seen_of_trivia (lt_of_prev hprev) (triviaIn_of_prev hp hprev) (kind?_get? ht) hsig
  | none =>
    -- without a significant token nothing was seen
    have hnone : significant (s.tokens.toList.take p) = [] := by
      rw [significant, filter_eq_nil_iff]
      intro t ht hsig
      obtain ⟨i, hi⟩ := mem_iff_getElem?.mp ht
      have hlt : i < p := by
        have := lt_getElem? hi
        rw [length_take] at this
        omega
      rw [getElem?_take_of_lt hlt, tokens_getElem?] at hi
      obtain ⟨n, hn, -⟩ := exists_prev hlt hp hi (by simpa using hsig)
      rw [hprev] at hn
      cases hn
    rw [foldl_seenAfter, hnone]
    rfl

theorem front_of_standsApart (h : inv.standsApart s) (hword : nextIs isNameStart inv.modern.toList) :
    (∀ t, s.get? (inv.span.start - 1) = some t → t.takesWord = false)
      ∧ contextOf ((s.prevSignificant? inv.span.start).bind s.kind?) = none := by
  rw [Invocation.standsApart, hword, Bool.not_true, Bool.false_or, Bool.and_eq_true, Bool.and_eq_true, Bool.not_eq_true',
    Bool.not_eq_true'] at h
  refine ⟨fun t ht => ?_, contextOf_eq_none fun k hk => ?_⟩
  · have := h.1.1
    rwa [ht, any_some] at this
  · have := h.1.2
    rwa [hk, any_some] at this

theorem behind_of_standsApart (h : inv.standsApart s) (hword : inv.modern.toList.getLast?.any isNamePart) :
    nextIs goesOn (charsOf (s.tokens.toList.drop inv.headEnd)) = false := by
  rw [Invocation.standsApart, hword, Bool.not_true, Bool.false_or, Bool.and_eq_true, Bool.not_eq_true'] at h
  exact h.2

theorem unreserved_mark {c : Char} {cs : List Char} {k : Kind} (hcode : code.toList = c :: cs)
    (hmark : soleMark? c = some k) : BeginsUnreserved code := by
  intro u hu
  rw [firstCode_eq, lexFragment_code, hcode, codeTokens_mark hmark, head?_cons, some.injEq] at hu
  rw [← hu, Token.isContextual]
  unfold soleMark? at hmark
  split at hmark
  all_goals first | (cases hmark; done) | (cases hmark; rfl)

theorem tail_begins {code : String} (h : code ∈ [", " ++ scopeStore, ", " ++ scopeStore ++ ",", ")"]) :
    BeginsUnreserved code ∧ ∃ c cs, code.toList = c :: cs ∧ c ∈ [',', ')'] := by
  simp only [mem_cons, not_mem_nil, or_false] at h
  rcases h with rfl | rfl | rfl
  · exact ⟨unreserved_mark (c := ',') rfl rfl, ',', _, rfl, by decide⟩
  · exact ⟨unreserved_mark (c := ',') rfl rfl, ',', _, rfl, by decide⟩
  · exact ⟨unreserved_mark (c := ')') rfl rfl, ')', _, rfl, by decide⟩

theorem scopeTail_ends : EndsWithName (", " ++ scopeStore) :=
  ⟨⟨_, "SCOPE_STORE", (by decide +kernel : codeTokens none (", " ++ scopeStore).toList = [⟨.comma, ","⟩,
    ⟨.qualifiedName, "\\Magento\\Store\\Model\\ScopeInterface"⟩, ⟨.doubleColon, "::"⟩] ++ [⟨.identifier, "SCOPE_STORE"⟩]),
    by decide, by decide⟩, by decide +kernel⟩

/-- Legible tokens whose calls stand apart and ask for nothing but names. -/
structure CallsApart (table : AliasTable) (s : TokenStream) : Prop where
  legible : Legible .html none s.tokens.toList
  text : ∀ u ∈ s.tokens.toList, u.text.toList ≠ []
  names : ∀ inv ∈ scan table s, ∀ v, inv.collaborator = some v → isIdentifier v.name.toList = true
  apart : ∀ inv ∈ scan table s, inv.standsApart s = true

namespace CallsApart

theorem mark_text (h : CallsApart table s) {k : Kind} (hk : s.kind? p = some k) (hmark : k ∈ [.comma, .rightParen]) :
    ∃ u c, s.tokens.toList[p]? = some u ∧ u.kind = k ∧ u.text.toList = [c] ∧ c ∈ [',', ')'] := by
  obtain ⟨u, hu, rfl⟩ := map_eq_some_iff.mp hk
  rw [← tokens_getElem?] at hu
  have hkinds : ∀ k ∈ [Kind.comma, .rightParen], k ∈ markKinds ∧ k ≠ .whitespace := by decide
  obtain ⟨c, hc, hsole⟩ := (h.legible.read_at hu (hkinds _ hmark).2).mark (hkinds _ hmark).1
  refine ⟨u, c, hu, rfl, hc, ?_⟩
  unfold soleMark? at hsole
  split at hsole
  all_goals first | decide | contradiction | (rw [← some.inj hsole] at hmark; exact absurd hmark (by decide))

theorem front (h : CallsApart table s) {i : Nat} (ht : s.tokens.toList[i]? = some t)
    (hedit : CallEditAt table s (i + 1) code) (rest : List Char) :
    t.Parts (charsOf (s.tokens.toList.drop (i + 1))) (code.toList ++ rest) := by
  -- marks begin apart, and stood in front of a mark
  have htail : ∀ {k : Kind}, s.kind? (i + 1) = some k → k ∈ [.comma, .rightParen] →
      code ∈ [", " ++ scopeStore, ", " ++ scopeStore ++ ",", ")"] →
      t.Parts (charsOf (s.tokens.toList.drop (i + 1))) (code.toList ++ rest) := by
    intro k hk hmark hcode
    obtain ⟨u, d, hu, hkind, hutext, hd⟩ := h.mark_text hk hmark
    obtain ⟨-, c, cs, hcs, hc⟩ := tail_begins hcode
    have hbegin : ∀ c ∈ [',', ')'], (c ∈ ['\n', ' ', ',', ')', '$'] ∧ isBlank c = false) ∧ binds c = false
        ∧ isNumeral c = false := by decide
    have hkinds : ∀ k ∈ [Kind.comma, .rightParen], k ≠ .whitespace ∧ k ≠ .closeTag ∧ k.mode = .php := by decide
    obtain ⟨hblank, htag, hmode⟩ := hkinds k hmark
    rw [hcs, cons_append]
    refine h.legible.front_apart ht hu hutext (hbegin d hd).2 (hbegin c hc).1.1 (fun hline => ?_)
      (fun _ => (hbegin c hc).1.2) (hkind ▸ hmode) _
    rcases h.legible.behind_lineComment ht hu hline with hk' | hk' <;> rw [hkind] at hk'
    · exact absurd hk' hblank
    · exact absurd hk' htag
  cases hedit with
  | @head inv mem start code =>
    obtain ⟨u, hu, hmage⟩ := (isCall_mem mem).isMage
    rw [start, ← tokens_getElem?] at hu
    rw [code]
    rcases (matchAt?_form (isCall_mem mem)).begins with ⟨hdollar, -⟩ | hword
    · -- a variable begins apart
      obtain ⟨d, w, hutext, -, hbinds, hnumeral, -⟩ := text_of_isMage hmage
      obtain ⟨c, cs, hcs, hc⟩ := cons_of_nextIs hdollar
      have hkind := isMage_kind hmage
      rw [hcs, beq_iff_eq.mp hc, cons_append]
      refine h.legible.front_apart ht hu hutext ⟨hbinds, hnumeral⟩ (by decide) (fun hline => ?_) (fun _ => rfl) ?_ _
      · rcases h.legible.behind_lineComment ht hu hline with hk | hk <;> rw [hk] at hkind <;>
          rcases hkind with hk | hk <;>
          cases hk
      · rcases hkind with hk | hk <;> rw [hk] <;> rfl
    · have htakes := (front_of_standsApart (h.apart inv mem) hword).1 t (by
        rw [start, Nat.add_sub_cancel, ← tokens_getElem?]
        exact ht)
      obtain ⟨c, cs, hcs, hc⟩ := cons_of_nextIs hword
      rw [hcs]
      exact h.legible.front_word ht hu hmage htakes hc _
  | close kind kept code => exact htail kind (by decide) (by rcases code with rfl | rfl <;> simp)
  | comma kind dropped code => exact htail kind (by decide) (by rw [code]; simp)

theorem fits (h : CallsApart table s) (htab : table.WellFormed) (hedit : CallEditAt table s p code) {ks : List Kind}
    (hinert : InertText code.toList ks) :
    Fits ((s.tokens.toList.take p).foldl seenAfter none) (lexFragment code)
      (charsOf (behindCode s.tokens.toList (callEdits table s) p)) := by
  cases hedit with
  | @head inv mem start code =>
    have hcall := isCall_mem mem
    have hform := matchAt?_form hcall
    subst start
    subst code
    have hfst : BeginsFree ((s.tokens.toList.take inv.span.start).foldl seenAfter none) inv.modern := by
      rcases hform.begins with ⟨-, hunreserved⟩ | hword
      · exact .inr hunreserved
      · refine .inl ?_
        rw [seen_eq_prev s hcall.start_lt_size.le]
        exact (front_of_standsApart (h.apart inv mem) hword).2
    rw [behindCode_head mem]
    rcases hform.ends (h.names inv mem) with hends | hends | ⟨hends, -⟩
    · refine (hends.fits hinert hfst).1 _ (nextIs_wovenFrom htab h.text (cutsNoHead_headEnd mem) ?_ ?_)
      · exact hcall.anatomy.headEnd_le_stop.trans (hcall.anatomy.stop_le_size hcall.start_lt_size)
      · exact behind_of_standsApart (h.apart inv mem) hends.last
    · exact (hends.fits (by decide) hinert hfst).1 _
    · exact (hends.fits (by decide) hinert hfst).1 _
  | close kind kept code =>
    obtain ⟨u, c, hu, -, hutext, hc⟩ := h.mark_text kind (by decide)
    have hbehind : behindCode s.tokens.toList (callEdits table s) p
        = u :: wovenFrom s.tokens.toList (callEdits table s) (p + 1) := by
      rw [behindCode, kept, if_neg Bool.false_ne_true, hu]
      rfl
    rcases code with rfl | rfl
    · refine (scopeTail_ends.fits hinert (.inr (tail_begins (by simp)).1)).1 _ ?_
      have hmarks : ∀ c ∈ [',', ')'], goesOn c = false := by decide
      rw [hbehind, charsOf_cons, hutext]
      exact hmarks c hc
    · have hends : EndsWith [')'] ")" := ⟨[], ')', [], rfl, by decide, forall_mem_nil _⟩
      exact (hends.fits (by decide) hinert (.inr (tail_begins (by simp)).1)).1 _
  | comma kind dropped code =>
    subst code
    have hends : EndsWith [','] (", " ++ scopeStore ++ ",") :=
      EndsWith.append ⟨[], ',', [], rfl, by decide, forall_mem_nil _⟩ _
    exact (hends.fits (by decide) hinert (.inr (tail_begins (by simp)).1)).1 _

theorem passed_trivia (htab : table.WellFormed) {a j : Nat} (hcut : CutsNoHead table s a) (haj : a ≤ j)
    (hnone : ∀ m, a ≤ m → m ≤ j → generatedAt (callEdits table s) m = [])
    (hpassed : ∀ m, a ≤ m → m < j → covers (callEdits table s) m
      ∨ ∃ u, s.tokens.toList[m]? = some u ∧ u.isTrivia) : s.TriviaIn a j := by
  induction hn : j - a generalizing a with
  | zero => exact fun m h₁ h₂ => by omega
  | succ n ih =>
    obtain ⟨hout, hkept⟩ := hcut.kept_of_nothing htab (hnone a le_rfl haj)
    have hrest := ih hout.cuts.2 (by omega) (fun m h₁ h₂ => hnone m (by omega) h₂)
      (fun m h₁ h₂ => hpassed m (by omega) h₂)
      (by omega)
    intro m h₁ h₂
    rcases Nat.eq_or_lt_of_le h₁ with rfl | hlt
    · rcases hpassed a le_rfl h₂ with hcov | ⟨u, hu, htriv⟩
      · rw [hkept] at hcov
        cases hcov
      · exact ⟨u, by rw [← tokens_getElem?]; exact hu, htriv⟩
    · exact hrest m hlt h₂

theorem headPaths_last : ∀ path ∈ headPaths, path ≠ [] ∧ ∃ k, path.getLast? = some k
    ∧ k ∈ [.identifier, .leftParen, .rightParen] := by
  decide

theorem pending (h : CallsApart table s) (htab : table.WellFormed) (hedit : CallEditAt table s p code) {ks : List Kind}
    (hinert : InertText code.toList ks) (last : Option Kind) :
    Pending s.tokens.toList (callEdits table s) p ((lexFragment code).foldl seenAfter last) := by
  intro j t hpj hbtw hkept ht hsig
  -- behind the tokens that are dropped, the last of them is what was seen
  have hseen : ∀ {a : Nat} {k : Kind}, p ≤ a → a < j → CutsNoHead table s (a + 1) → s.kind? a = some k →
      k.isTrivia = false → (s.tokens.toList.take j).foldl seenAfter none = some k := by
    intro a k hpa haj hcut hk hksig
    refine seen_of_trivia haj (passed_trivia htab hcut haj (fun m h₁ h₂ => ?_) fun m h₁ h₂ => ?_) hk hksig
    · have hnone := (hbtw (m - 1) (by omega) (by omega)).2
      rwa [Nat.sub_add_cancel (by omega)] at hnone
    · exact (hbtw m (by omega) h₂).1
  cases hedit with
  | @head inv mem start code =>
    have hcall := isCall_mem mem
    have hform := matchAt?_form hcall
    subst start
    subst code
    obtain ⟨path, m, hpath, hfollows, hheadEnd⟩ := hcall.anatomy.head_path
    obtain ⟨hne, k, hlast, hk⟩ := headPaths_last path hpath
    have hmj : m < j := by
      refine Nat.lt_of_not_le fun hle => ?_
      rw [covers_head mem hpj (by omega)] at hkept
      cases hkept
    have hkinds : ∀ k ∈ [Kind.identifier, .leftParen, .rightParen], k.isTrivia = false
      ∧ contextOf (some k) = none := by decide
    have hkm := (hfollows.kind_last hne).trans hlast
    rw [hseen hfollows.le hmj (hheadEnd ▸ cutsNoHead_headEnd mem) hkm (hkinds k hk).1]
    refine ⟨fun _ => (hkinds k hk).2, fun _ hopen => ?_⟩
    -- only code that ends with the parenthesis of its head leaves a list open
    have hfree : BeginsFree none inv.modern := .inl rfl
    rcases hform.ends (h.names inv mem) with hends | hends | ⟨hends, left, hleft, hparen⟩
    · rw [(hends.fits hinert hfree).2 last] at hopen
      cases hopen
    · obtain ⟨d, hd, hmark⟩ := (hends.fits (by decide) hinert hfree).2
      rw [hmark last, mem_singleton.mp hd] at hopen
      cases hopen
    · obtain rfl : left = m := by omega
      rw [hkm, some.injEq] at hparen
      rw [hparen]
      rfl
  | close kind kept code =>
    -- the parenthesis itself comes next
    obtain ⟨u, hu, hukind⟩ := map_eq_some_iff.mp kind
    rw [← tokens_getElem?] at hu
    obtain rfl : p = j := by
      refine hpj.antisymm (Nat.le_of_not_lt fun hlt => ?_)
      rcases (hbtw p le_rfl hlt).1 with hcov | ⟨v, hv, htriv⟩
      · rw [kept] at hcov
        cases hcov
      · rw [hu, some.injEq] at hv
        rw [← hv, Token.isTrivia, hukind] at htriv
        cases htriv
    rw [hu, some.injEq] at ht
    rw [← ht, Token.isContextual, hukind]
    exact ⟨fun hword => (by cases hword), fun htag => (by cases htag)⟩
  | comma kind dropped code =>
    have hlt : p < j := by
      refine Nat.lt_of_le_of_ne hpj fun heq => ?_
      rw [← heq, dropped] at hkept
      cases hkept
    have hout : OutsideHeads table s p := by
      intro inv hinv
      have hcall := isCall_mem hinv
      exact hcall.anatomy.comma_outside hcall.isMage kind
    rw [hseen le_rfl hlt hout.cuts.2 kind rfl]
    exact ⟨fun _ => rfl, fun _ _ => rfl⟩

theorem joinable_callEdits (h : CallsApart table s) (htab : table.WellFormed) :
    Joinable s.tokens.toList (callEdits table s) := by
  refine ⟨fun i => starts_callEdits htab, fun i t => dropped_callEdits, fun i hne => ?_, fun i hne => ?_,
    fun i t ht _ hne => ?_, fun i hne last => ?_⟩
  · obtain ⟨e, he, rfl⟩ := exists_generatedAt hne
    obtain ⟨t, ht, hk⟩ := token_callEdits he
    exact ⟨t, ht, (mode_of_editedKinds t.kind hk).1⟩
  · obtain ⟨code, hcode, hedit, ks, hinert⟩ := callEdit_at htab hne
    rw [hcode]
    exact h.fits htab hedit hinert
  · obtain ⟨code, hcode, hedit, -⟩ := callEdit_at htab hne
    obtain ⟨e, he, hstart⟩ := exists_generatedAt hne
    obtain ⟨u, hu, -⟩ := token_callEdits he
    rw [hstart] at hu
    rw [wovenFrom_eq (lt_getElem? hu), hcode, charsOf_append, chars_fragment]
    exact (h.front ht hedit _).imp_left fun h _ => h
  · obtain ⟨code, hcode, hedit, ks, hinert⟩ := callEdit_at htab hne
    rw [hcode]
    exact h.pending htab hedit hinert last

theorem legible_convertedStream (h : CallsApart table s) (htab : table.WellFormed) :
    Legible .html none (convertedStream table s).tokens.toList :=
  weave_legible (h.joinable_callEdits htab) h.legible h.text

end CallsApart

end

/-! ## §6. The migrated file. -/

theorem text_ne_nil_lex (source : String) : ∀ u ∈ (ofSource source).tokens.toList, u.text.toList ≠ [] :=
  steps_text_ne_nil .html none 0 source.toList

theorem text_ne_nil_convertedStream {table : AliasTable} {s : TokenStream}
    (htext : ∀ u ∈ s.tokens.toList, u.text.toList ≠ []) :
    ∀ u ∈ (convertedStream table s).tokens.toList, u.text.toList ≠ [] := by
  intro u hu
  rcases mem_weave hu with hu | ⟨e, he, hu⟩
  · exact htext u hu
  · obtain ⟨inv, -, c, -, rfl⟩ := mem_callEdits he
    exact steps_text_ne_nil .php none 0 c.code.toList u hu

theorem kept_sublist_weaveFrom (edits : List (Edit Token)) (items : List Token) (i : Nat) :
    (((items.zipIdx i).filter fun x => !Edit.covers edits x.2).map Prod.fst).Sublist (weaveFrom edits i items) := by
  induction items generalizing i with
  | nil => exact nil_sublist _
  | cons x rest ih =>
    rw [zipIdx_cons, weaveFrom, pieceAt, append_assoc]
    refine List.Sublist.trans ?_ (sublist_append_right _ _)
    cases hcov : covers edits i with
    | true =>
      rw [filter_cons_of_neg (by simp [hcov]), if_pos rfl]
      exact ih (i + 1)
    | false =>
      rw [filter_cons_of_pos (by simp [hcov]), if_neg Bool.false_ne_true, map_cons]
      exact (ih (i + 1)).cons_cons x

/-- The tokens of the file that no call drops. -/
def Migrator.keptTokens (m : Migrator) (s : TokenStream) : List Token :=
  (s.tokens.toList.zipIdx.filter fun x => !isDropped m.table s x.2).map Prod.fst

theorem keptTokens_sublist_edited {m : Migrator} {s : TokenStream} {r : Requirements} {inserts : List (Edit Token)}
    (h : IsInjection (convertedStream m.table s) m.indent r inserts) :
    (m.keptTokens s).Sublist (editedTokens m.table s inserts) := by
  have hconv := kept_sublist_weaveFrom (callEdits m.table s) s.tokens.toList 0
  have hinserted := kept_sublist_weaveFrom inserts (convertedStream m.table s).tokens.toList 0
  simp only [covers_callEdits] at hconv
  rw [filter_eq_self.mpr (fun x _ => by rw [h.covers_eq_false]; rfl), zipIdx_map_fst] at hinserted
  exact hconv.trans hinserted

theorem significant_migrated {m : Migrator} {file source : String} {out : TokenStream} {report : FileReport}
    (htab : m.table.Reachable) (hind : IsIndentText m.indent.toList) (hset : areSettled none (lex source))
    (hapart : ∀ inv ∈ scan m.table (.ofSource source), inv.standsApart (.ofSource source))
    (hrun : m.migrate file (.ofSource source) = .ok (.converted out report))
    (hnames : ∀ v ∈ report.requirements, isIdentifier v.name.toList) :
    significant out.tokens.toList = significant (m.edited (.ofSource source)) := by
  have hout := migrate_edited hrun
  obtain ⟨r, inserts, hcoll, hinj, -, hreport⟩ := migrate_cases hrun
  have hentries : ∀ v ∈ r.entries, isIdentifier v.name.toList := by
    rw [hreport] at hnames
    exact hnames
  have hinjection : IsInjection (convertedStream m.table (.ofSource source)) m.indent r inserts :=
    ⟨hind, collect_plain (scan_plain htab.wellFormed) hcoll, hinj⟩
  have hcalls : CallsApart m.table (.ofSource source) := by
    refine ⟨steps_legible hset, text_ne_nil_lex source, fun inv hinv v hv => ?_, hapart⟩
    obtain ⟨w, hw, hname⟩ := collect_names hcoll inv hinv v hv
    exact hname ▸ hentries w hw
  -- the two batches one after the other
  have hleg := hinjection.legible hentries (hcalls.legible_convertedStream htab.wellFormed)
    (text_ne_nil_convertedStream hcalls.text)
  rw [hout, m.edited_eq hcoll hinj, ofSource, Php.lex, lexSteps, toList_joinTexts]
  exact hleg.significant_eq

/-- **Nothing runs together in a migrated file.** In the file no token waits for the text behind it, its calls stand
apart, and what they ask for has names that can be names. Then reading the text of the migrated file anew gives the
significant tokens that the two batches put together, neither merged nor split nor of another kind; among them are,
in order, those of the file that no call drops. -/
theorem migrate_keeps_tokens {m : Migrator} {file source : String} {out : TokenStream} {report : FileReport}
    (htab : m.table.Reachable) (hind : IsIndentText m.indent.toList) (hset : areSettled none (lex source) = true)
    (hapart : ∀ inv ∈ scan m.table (.ofSource source), inv.standsApart (.ofSource source) = true)
    (hrun : m.migrate file (.ofSource source) = .ok (.converted out report))
    (hnames : ∀ v ∈ report.requirements, isIdentifier v.name.toList = true) :
    significant out.tokens.toList = significant (m.edited (.ofSource source))
      ∧ (significant (m.keptTokens (.ofSource source))).Sublist (significant out.tokens.toList) := by
  have hsame := significant_migrated htab hind hset hapart hrun hnames
  obtain ⟨r, hcoll, -, hinj, -⟩ := m.run_cases htab hind hrun
  refine ⟨hsame, ?_⟩
  rw [hsame, m.edited_eq hcoll hinj.answer]
  exact (keptTokens_sublist_edited hinj).filter _

def helperApart : String := "<?php class A\x7bfunction f($b)\x7breturn Mage::helper('core') and $b;\x7d\x7d"

theorem migrate_keeps_tokens_helperApart :
    ∃ out report, defaultMigrator.migrate "A.php" (.ofSource helperApart) = .ok (.converted out report)
      ∧ report.calls.map (·.pattern) = [.helper]
      ∧ significant out.tokens.toList = significant (defaultMigrator.edited (.ofSource helperApart))
      ∧ (significant (defaultMigrator.keptTokens (.ofSource helperApart))).Sublist (significant out.tokens.toList) := by
  have hrun : convertsTo (fun _ report => report.calls.map (·.pattern) == [.helper]
        && report.requirements.all fun v => isIdentifier v.name.toList)
      (defaultMigrator.migrate "A.php" (.ofSource helperApart)) = true := by
    rw [migrate_eq, show ofSource helperApart = .ofTokens _ from ofSource_ofList _]
    decide +kernel
  have hapart : (scan defaultMigrator.table (.ofSource helperApart)).all (·.standsApart (.ofSource helperApart)) := by
    rw [show ofSource helperApart = .ofTokens _ from ofSource_ofList _]
    decide +kernel
  obtain ⟨out, report, hout, hrun⟩ := of_convertsTo hrun
  rw [Bool.and_eq_true, beq_iff_eq, List.all_eq_true] at hrun
  exact ⟨out, report, hout, hrun.1, migrate_keeps_tokens .builtin (by decide) (by decide +kernel)
    (List.all_eq_true.mp hapart) hout hrun.2⟩

/-- A helper that a word touches, in a class that has the helper already. -/
def helperTouched : String :=
  "<?php class A\x7bfunction __construct(public $taxHelper)\x7bMage::helper('tax')and f();\x7d\x7d"

/-- A word behind a call may become a part of the code of the call: the name of the property takes it along. -/
theorem migrate_fuses_word :
    ∃ out report, defaultMigrator.migrate "A.php" (.ofSource helperTouched) = .ok (.converted out report)
      ∧ significant out.tokens.toList ≠ significant (defaultMigrator.edited (.ofSource helperTouched)) := by
  have hrun : convertsTo (fun out _ => (significant out.tokens.toList).length
        != (significant (defaultMigrator.edited (.ofSource helperTouched))).length)
      (defaultMigrator.migrate "A.php" (.ofSource helperTouched)) = true := by
    rw [migrate_eq]
    simp only [refresh_ofTokens]
    rw [show ofSource helperTouched = .ofTokens _ from ofSource_ofList _]
    decide +kernel
  obtain ⟨out, report, hout, hrun⟩ := of_convertsTo hrun
  exact ⟨out, report, hout, fun heq => bne_iff_ne.mp hrun (congrArg length heq)⟩

end MageUplift
