import MageUplift.Proofs.CodeLexemes

/-!
# The outline of a text

Of the tokens of a text its outline keeps only the brackets, and it exists only when nothing is wrong
with the text. Most characters do not matter for it: a token that begins with a *soft* character (a blank,
a name, a number, an ordinary operator) consists of soft characters and holds no bracket, so wherever code
is read, a soft character can be left out (`outline_soft`). The other characters are few, and for each of
them there is an equation that says how the outline goes on.

So the outline, unlike the tokens, can be computed piece by piece from a text that was put together from
pieces.
-/

namespace MageUplift.Php

open List Option

variable {c : Char} {cs : List Char} {k : Kind} {n : Nat} {p : Char → Bool}

/-! ## §1. Soft characters. -/

/-- The punctuation that ordinary operators begin with and consist of. -/
def softPunctuation : List Char :=
  ['$', '.', '*', '>', '=', '!', ':', '-', '+', '&', '|', '%', '^', ';', ',', '@', '~', '\\']

/-- In code, nothing but blanks, names, numbers and ordinary operators begins with the character. -/
def isSoft (c : Char) : Bool := isBlank c || isNamePart c || softPunctuation.contains c

theorem isSoft_of_isBlank (h : isBlank c) : isSoft c := by
  simp [isSoft, h]

theorem isSoft_namePart (h : isNamePart c) : isSoft c := by
  simp [isSoft, h]

theorem namePart_of_digit (h : isDigitPart c) : isNamePart c := by
  simp only [isDigitPart, isNamePart, Bool.or_eq_true, Char.isAlphanum] at *
  rcases h with h | h <;> simp [h]

theorem isNamePart_of_isBaseDigitPart (h : isBaseDigitPart c) : isNamePart c := by
  grind [isBaseDigitPart, isNamePart, Char.isAlphanum, isAlpha_eq, Char.le_def]

/-- The first `n` characters pass the test. -/
def Starts (p : Char → Bool) (n : Nat) (cs : List Char) : Prop := ∀ x ∈ cs.take n, p x = true

namespace Starts

variable {q : Char → Bool}

theorem zero (cs : List Char) : Starts p 0 cs := by
  intro x hx
  cases hx

theorem cons (hc : p c) (h : Starts p n cs) : Starts p (1 + n) (c :: cs) := by
  intro x hx
  rw [Nat.add_comm, take_succ_cons, mem_cons] at hx
  rcases hx with rfl | hx
  · exact hc
  · exact h x hx

theorem add {m : Nat} (hm : Starts p m cs) (hn : Starts p n (cs.drop m)) : Starts p (m + n) cs := by
  intro x hx
  rw [take_add, mem_append] at hx
  exact hx.elim (hm x) (hn x)

theorem run (hp : ∀ x, q x → p x) (cs : List Char) : Starts p (Php.run q cs) cs := by
  intro x hx
  rw [Php.run, ← prefix_iff_eq_take.mp (List.takeWhile_prefix q)] at hx
  exact hp x (List.all_eq_true.mp all_takeWhile x hx)

theorem next (hp : ∀ x, q x → p x) (hcs : nextIs q cs) (h : Starts p n (cs.drop 1)) : Starts p (1 + n) cs := by
  cases cs with
  | nil => cases hcs
  | cons c cs => exact cons (hp c hcs) h

end Starts

/-! ## §2. Inner characters. -/

def innerPunctuation : List Char := ['\\', '.', '+', '-', '*', '>', '=', ':', '&', '|']

/-- The character may stand inside a token that begins with a soft character; the others are delimiters. -/
def isInner (c : Char) : Bool := isNamePart c || innerPunctuation.contains c

theorem isInner_namePart (h : isNamePart c) : isInner c := by
  simp [isInner, h]

theorem isSoft_of_isInner (h : isInner c) : isSoft c := by
  have hall : ∀ x ∈ innerPunctuation, isSoft x := by decide
  rw [isInner, Bool.or_eq_true, contains_iff_mem] at h
  exact h.elim isSoft_namePart (hall c)

theorem innerPrefix_digits (cs : List Char) : Starts isInner (run isDigitPart cs) cs :=
  .run (fun _ h => isInner_namePart (namePart_of_digit h)) cs

theorem innerPrefix_nameRun (cs : List Char) : Starts isInner (nameRun cs) cs := by
  induction cs with
  | nil => exact .zero []
  | cons c cs ih =>
    rw [nameRun]
    split
    · rename_i hname
      have hc : isInner c := by
        simp only [Bool.or_eq_true, Bool.and_eq_true, beq_iff_eq] at hname
        rcases hname with hname | ⟨rfl, -⟩
        · exact isInner_namePart hname
        · decide
      rw [Nat.add_comm]
      exact ih.cons hc
    · exact .zero _

theorem innerPrefix_fraction (cs : List Char) : Starts isInner (fractionLength cs) cs := by
  unfold fractionLength
  split
  · split
    · exact (innerPrefix_digits _).cons (by decide)
    · split
      · exact .zero _
      · exact (Starts.zero _).cons (by decide)
  · exact .zero _

theorem innerPrefix_exponent (cs : List Char) : Starts isInner (exponentLength cs) cs := by
  have hsign : ∀ cs, Starts isInner (if nextIs (fun c => c == '+' || c == '-') cs then 1 else 0) cs := by
    intro cs
    split
    · rename_i hsign
      refine .next (fun x hx => ?_) hsign (.zero _)
      rw [Bool.or_eq_true, beq_iff_eq, beq_iff_eq] at hx
      rcases hx with rfl | rfl <;> decide
    · exact .zero _
  unfold exponentLength
  split
  · rename_i e cs
    split
    · rename_i he
      have hletter : isInner e := by
        simp only [Bool.or_eq_true, beq_iff_eq] at he
        rcases he with rfl | rfl <;> decide
      replace hsign := hsign cs
      dsimp only
      generalize (if nextIs (fun c => c == '+' || c == '-') cs then 1 else 0) = sign at hsign ⊢
      split
      · rw [Nat.add_assoc]
        exact (hsign.add (innerPrefix_digits _)).cons hletter
      · exact .zero _
    · exact .zero _
  · exact .zero _

/-! ## §3. Soft lexemes. -/

structure Lexeme.IsSoft (l : Lexeme) (c : Char) (cs : List Char) : Prop where
  faultless : l.faults = []
  stays : l.next = .php
  plain : l.kind.isPlain = true
  soft : Starts isSoft l.length (c :: cs)

theorem IsNameKind.isPlain (h : IsNameKind k) : k.isPlain := by
  cases h <;> rfl

theorem operators_soft : ∀ o ∈ operators, isSoft o.first →
    o.kind.isPlain ∧ ∀ x ∈ o.others, isInner x := by
  decide

theorem exists_rule_of_soft (last : Option Kind) (cs : List Char) (h : isSoft c) :
    phpRules.findSome? (fun rule => rule last c cs) ≠ none := by
  intro hnone
  rw [findSome?_eq_none_iff] at hnone
  have hword := (wordRules_none_iff last c cs).mp fun rule hrule => hnone rule (mem_append_left [operatorRule] hrule)
  have hop : operatorRule last c cs = none := hnone operatorRule (by simp [phpRules])
  simp only [beginsWord, Bool.or_eq_false_iff] at hword
  rw [isSoft, Bool.or_eq_true, Bool.or_eq_true] at h
  rcases h with (h | h) | h
  · simp [h] at hword
  · have hpart : isNameStart c ∨ c.isDigit := by grind [isNamePart, isNameStart, Char.isAlphanum]
    rcases hpart with hpart | hpart <;> simp [hpart] at hword
  · have hpunctuation : ∀ x ∈ softPunctuation, x = '$' ∨ ∃ o ∈ operators, o.first = x ∧ o.others = [] := by
      decide
    rcases hpunctuation c (by simpa using h) with rfl | ⟨o, ho, rfl, hothers⟩
    · simp at hword
    · rw [operatorRule, map_eq_none_iff, find?_eq_none] at hop
      exact hop o ho (by simp [hothers])

/-- **What begins with a soft character** are blanks, or a token without brackets and with inner characters only behind
its first one. -/
theorem CodeLexeme.of_soft {l : Lexeme} (h : CodeLexeme c cs l) (hc : isSoft c) :
    l = .code .whitespace (run isBlank cs) [] ∧ isBlank c
      ∨ ∃ k n, l = .code k n [] ∧ k.isPlain ∧ Starts isInner n cs := by
  -- comments, tags, strings and heredocs begin with a character that is not soft
  have hhard : ∀ {x : Char}, c = x → isSoft x = false → False := by
    rintro x rfl hx
    rw [hc] at hx
    cases hx
  cases h with
  | blanks hblank => exact .inl ⟨rfl, hblank⟩
  | closeTag hc => exact (hhard hc (by decide)).elim
  | lineComment hc => rcases hc with ⟨hc, -⟩ | ⟨hc, -⟩ <;> exact (hhard hc (by decide)).elim
  | blockComment _ hc => exact (hhard hc (by decide)).elim
  | openComment _ hc => exact (hhard hc (by decide)).elim
  | variableName => exact .inr ⟨_, _, rfl, rfl, .run (fun _ => isInner_namePart) cs⟩
  | dollar => exact .inr ⟨_, _, rfl, rfl, .zero cs⟩
  | name hkind => exact .inr ⟨_, _, rfl, hkind.isPlain, innerPrefix_nameRun cs⟩
  | basedNumber _ hcs =>
    -- the letter of the base, and the digits behind it
    have hletters : ∀ y ∈ ['x', 'X', 'b', 'B', 'o', 'O'], isInner y := by decide
    exact .inr ⟨_, _, rfl, rfl, .next (fun x hx => hletters x (contains_iff_mem.mp hx)) hcs
      (.run (fun _ hx => isInner_namePart (isNamePart_of_isBaseDigitPart hx)) _)⟩
  | number =>
    exact .inr ⟨_, _, rfl, rfl, (innerPrefix_digits cs).add ((innerPrefix_fraction _).add (innerPrefix_exponent _))⟩
  | fraction => exact .inr ⟨_, _, rfl, rfl, (innerPrefix_digits cs).add (innerPrefix_exponent _)⟩
  | string hframe =>
    unfold openingFrame? at hframe
    split at hframe
    · exact (hhard (eq_of_beq ‹_›) (by decide)).elim
    · obtain ⟨hquote, -⟩ := ite_none_right_eq_some.mp hframe
      rw [Bool.or_eq_true, beq_iff_eq, beq_iff_eq] at hquote
      rcases hquote with hquote | hquote <;> exact (hhard hquote (by decide)).elim
  | heredoc hc => exact (hhard hc (by decide)).elim
  | openHeredoc hc => exact (hhard hc (by decide)).elim
  | operator ho hfst hothers =>
    obtain ⟨hplain, hinner⟩ := operators_soft _ ho (hfst ▸ hc)
    refine .inr ⟨_, _, rfl, hplain, fun x hx => ?_⟩
    rw [← prefix_iff_eq_take.mp hothers] at hx
    exact hinner x hx
  | unexpected hnone => exact (exists_rule_of_soft _ cs hc (findSome?_eq_none_iff.mpr hnone)).elim

theorem phpLexeme_soft (last : Option Kind) (cs : List Char) (hc : isSoft c) :
    (phpLexeme last c cs).IsSoft c cs := by
  rcases (phpLexeme_spec last c cs).of_soft hc with ⟨hl, -⟩ | ⟨k, n, hl, hplain, hinner⟩ <;> rw [hl]
  · exact ⟨rfl, rfl, rfl, (Starts.run (fun _ => isSoft_of_isBlank) cs).cons hc⟩
  · exact ⟨rfl, rfl, hplain, Starts.cons hc fun x hx => isSoft_of_isInner (hinner x hx)⟩

theorem phpLexeme_inner {last : Option Kind} {c : Char} (cs : List Char) (hc : isSoft c)
    (hblank : isBlank c = false) : Starts isInner ((phpLexeme last c cs).length - 1) cs := by
  rcases (phpLexeme_spec last c cs).of_soft hc with ⟨-, hc'⟩ | ⟨k, n, hl, -, hinner⟩
  · rw [hblank] at hc'
    cases hc'
  · rw [hl]
    show Starts isInner (1 + n - 1) cs
    rwa [Nat.add_sub_cancel_left]

/-! ## §4. Outlines. -/

def Kind.marks (k : Kind) : List Kind := if k.isPlain then [] else [k]

def marksOf (tokens : List Token) : List Kind := tokens.flatMap fun t => t.kind.marks

/-- The brackets of the text, read in the given mode; `none` if something is wrong with it. -/
def outline (mode : Mode) : List Char → Option (List Kind)
  | [] => some []
  | c :: cs =>
    let l := lexeme mode none c cs
    if l.faults = [] then (outline l.next ((c :: cs).drop l.length)).map (l.kind.marks ++ ·) else none
termination_by cs => cs.length
decreasing_by
  have := (lexeme mode none c cs).length_pos
  simp only [length_drop, length_cons]
  omega

@[simp] theorem outline_nil (mode : Mode) : outline mode [] = some [] := by
  rw [outline]

theorem outline_cons (mode : Mode) (c : Char) (cs : List Char) :
    outline mode (c :: cs) = if (lexeme mode none c cs).faults = [] then
      (outline (lexeme mode none c cs).next ((c :: cs).drop (lexeme mode none c cs).length)).map
        ((lexeme mode none c cs).kind.marks ++ ·) else none := by
  rw [outline]

theorem Kind.marks_of_isPlain (h : k.isPlain) : k.marks = [] := by
  rw [Kind.marks, if_pos h]

/-- The two lexemes differ at most in the kind of a token without brackets. -/
structure Lexeme.Agrees (l l' : Lexeme) : Prop where
  faults : l.faults = l'.faults
  next : l.next = l'.next
  length : l.length = l'.length
  marks : l.kind.marks = l'.kind.marks

theorem Lexeme.Agrees.refl (l : Lexeme) : l.Agrees l := ⟨rfl, rfl, rfl, rfl⟩

/-- The first answers of a row of rules to two texts are related when the rules' answers are, one by one. -/
theorem findSome?_rel {R : Lexeme → Lexeme → Prop} {rules : List Rule} {f g : Rule → Option Lexeme} {l l' : Lexeme}
    (hl : R l l') (h : ∀ rule ∈ rules, Option.Rel R (f rule) (g rule)) :
    R ((rules.findSome? f).getD l) ((rules.findSome? g).getD l') := by
  induction rules with
  | nil => exact hl
  | cons rule rules ih =>
    have hrule := h rule mem_cons_self
    rw [findSome?_cons, findSome?_cons]
    generalize f rule = answer, g rule = answer' at hrule ⊢
    cases hrule with
    | some hrel => exact hrel
    | none => exact ih (forall_mem_cons.mp h).2

theorem lexeme_agrees (mode : Mode) (last : Option Kind) (c : Char) (cs : List Char) :
    (lexeme mode last c cs).Agrees (lexeme mode none c cs) := by
  cases mode with
  | html => exact .refl _
  | php =>
    refine findSome?_rel (.refl _) fun rule hrule => ?_
    have hsame : rule last c cs = rule none c cs → Option.Rel Lexeme.Agrees (rule last c cs) (rule none c cs) := by
      intro heq
      rw [heq]
      cases rule none c cs with
      | none => exact .none
      | some l => exact .some (.refl l)
    simp only [phpRules, mem_cons, not_mem_nil, or_false] at hrule
    rcases hrule with rfl | rfl | rfl | rfl | rfl | rfl | rfl | rfl | rfl | rfl
    case inr.inr.inr.inr.inr.inl =>
      unfold nameRule
      split
      · have hplain : ∀ (q : Bool) (last : Option Kind) (word : String),
            (if q then Kind.qualifiedName else wordKind last word).marks = [] := by
          intro q last word
          cases q
          · exact Kind.marks_of_isPlain (isNameKind_wordKind last word).isPlain
          · rfl
        exact .some ⟨rfl, rfl, rfl, by rw [Lexeme.code, Lexeme.code, hplain, hplain]⟩
      · exact .none
    all_goals exact hsame rfl

/-- **The outline of a text** says that nothing is wrong with it, and lists the brackets of its tokens. -/
theorem steps_outline (mode : Mode) (last : Option Kind) (offset : Nat) (cs : List Char) (ks : List Kind) :
    outline mode cs = some ks ↔
      (∀ st ∈ steps mode last offset cs, st.errors = [])
        ∧ marksOf ((steps mode last offset cs).map LexStep.token) = ks := by
  fun_induction steps mode last offset cs generalizing ks with
  | case1 mode last offset =>
    rw [outline_nil, some.injEq]
    simp [marksOf]
  | case2 mode last offset c cs l chars seen ih =>
    have hagrees := lexeme_agrees mode last c cs
    have herrors : l.errors offset chars = [] ↔ (lexeme mode none c cs).faults = [] := by
      rw [Lexeme.errors, map_eq_nil_iff, ← hagrees.faults]
    rw [outline_cons, ← hagrees.faults, ← hagrees.next, ← hagrees.length, ← hagrees.marks]
    simp only [mem_cons, forall_eq_or_imp, map_cons, marksOf, flatMap_cons]
    rw [herrors, ← hagrees.faults]
    by_cases hfaults : l.faults = []
    · rw [if_pos hfaults, map_eq_some_iff]
      constructor
      · rintro ⟨ks', hks', rfl⟩
        obtain ⟨hclean, hmarks⟩ := (ih ks').mp hks'
        exact ⟨⟨hfaults, hclean⟩, by rw [← hmarks]; rfl⟩
      · rintro ⟨⟨-, hclean⟩, rfl⟩
        exact ⟨_, (ih _).mpr ⟨hclean, rfl⟩, rfl⟩
    · rw [if_neg hfaults]
      constructor
      · intro h
        cases h
      · rintro ⟨⟨h, -⟩, -⟩
        exact absurd h hfaults

theorem outline_iff {source : String} {ks : List Kind} :
    outline .html source.toList = some ks ↔ lexErrors source = [] ∧ marksOf (lex source) = ks := by
  rw [steps_outline .html none 0, lexErrors, flatMap_eq_nil_iff]
  rfl

/-! ## §5. Soft characters do not matter. -/

theorem outline_dropWhile (cs : List Char) : outline .php cs = outline .php (cs.dropWhile isSoft) := by
  -- a lexeme at a soft character drops soft characters only, so what is left has the same hard rest
  induction hn : cs.length using Nat.strongRecOn generalizing cs with
  | ind n ih =>
    cases cs with
    | nil => rfl
    | cons c cs =>
      by_cases hc : isSoft c
      · have hsoft := phpLexeme_soft none cs hc
        have hpos := (phpLexeme none c cs).length_pos
        have hlex : lexeme .php none c cs = phpLexeme none c cs := rfl
        have hrest : ∀ (n : Nat) (cs : List Char), Starts isSoft n cs →
            (cs.drop n).dropWhile isSoft = cs.dropWhile isSoft := by
          intro n cs hn
          conv => rhs; rw [← take_append_drop n cs]
          rw [dropWhile_append_of_pos hn]
        rw [outline_cons, hlex, if_pos hsoft.faultless, hsoft.stays, Kind.marks_of_isPlain hsoft.plain]
        simp only [nil_append, Option.map_id_fun', id]
        rw [ih _ (by rw [← hn, length_drop, length_cons]; omega) _ rfl, hrest _ _ hsoft.soft]
      · rw [dropWhile_cons_of_neg hc]

theorem outline_soft (hc : isSoft c) (cs : List Char) : outline .php (c :: cs) = outline .php cs := by
  rw [outline_dropWhile (c :: cs), outline_dropWhile cs, dropWhile_cons_of_pos hc]

theorem outline_softs {w : List Char} (hw : ∀ c ∈ w, isSoft c) (cs : List Char) :
    outline .php (w ++ cs) = outline .php cs := by
  induction w with
  | nil => rfl
  | cons c w ih =>
    rw [cons_append, outline_soft (hw c mem_cons_self)]
    exact ih (forall_mem_cons.mp hw).2

/-! ## §6. The other characters. -/

theorem outline_code (h : phpLexeme none c cs = .code k n []) :
    outline .php (c :: cs) = (outline .php (cs.drop n)).map (k.marks ++ ·) := by
  have hlex : lexeme .php none c cs = .code k n [] := h
  rw [outline_cons, hlex]
  show (outline .php ((c :: cs).drop (1 + n))).map (k.marks ++ ·) = _
  rw [Nat.add_comm, drop_succ_cons]

theorem outline_code_plain (h : phpLexeme none c cs = .code k n []) (hk : k.isPlain) :
    outline .php (c :: cs) = outline .php (cs.drop n) := by
  rw [outline_code h, Kind.marks_of_isPlain hk]
  simp

def bracket? : Char → Option Kind
  | '(' => some .leftParen
  | ')' => some .rightParen
  | '{' => some .leftBrace
  | '}' => some .rightBrace
  | '[' => some .leftBracket
  | ']' => some .rightBracket
  | _ => none

theorem outline_bracket (h : bracket? c = some k) (cs : List Char) :
    outline .php (c :: cs) = (outline .php cs).map (k :: ·) := by
  have hcode : ∀ {c : Char} {k : Kind}, phpLexeme none c cs = .code k 0 [] → k.marks = [k] →
      outline .php (c :: cs) = (outline .php cs).map (k :: ·) := by
    intro c k hlex hmarks
    rw [outline_code hlex, hmarks]
    rfl
  unfold bracket? at h
  split at h
  case h_7 => cases h
  all_goals
    cases h
    exact hcode rfl rfl

theorem outline_attribute (cs : List Char) :
    outline .php ('#' :: '[' :: cs) = (outline .php cs).map (Kind.attributeStart :: ·) :=
  outline_code (k := .attributeStart) (n := 1) rfl

theorem lineCommentRun_add (n : Nat) (cs : List Char) : lineCommentRun n cs = n + lineCommentRun 0 cs := by
  induction cs generalizing n with
  | nil => rfl
  | cons c cs ih =>
    rw [lineCommentRun, lineCommentRun]
    split
    · rfl
    · rw [ih (n + 1), ih (0 + 1)]
      omega

theorem lineCommentRun_cons {c : Char} (hc : c ∉ ['\n', '\r', '?']) (cs : List Char) :
    lineCommentRun 0 (c :: cs) = lineCommentRun 0 cs + 1 := by
  simp only [mem_cons, not_mem_nil, or_false, not_or] at hc
  rw [lineCommentRun, if_neg (by simp [hc]), lineCommentRun_add, Nat.add_comm, Nat.zero_add]

theorem operators_repeated : ∀ o ∈ operators, o.first ∈ ['/', '?', '<'] →
    o.others.head? = some o.first ∨ o.kind.isPlain ∧ ∀ x ∈ o.others, isSoft x := by decide

theorem outline_operator (hc : c ∈ ['/', '?', '<']) (hword : beginsWord c cs = false)
    (hnext : nextIs (· == c) cs = false) :
    outline .php (c :: cs) = outline .php cs := by
  have hlex := phpLexeme_not_word hword none
  cases hop : operatorRule none c cs with
  | none =>
    -- each of the characters is an operator
    have hex : ∀ x ∈ ['/', '?', '<'], ∃ o ∈ operators, o.first = x ∧ o.others = [] := by decide
    obtain ⟨o, ho, hfst, hothers⟩ := hex c hc
    rw [operatorRule, map_eq_none_iff, find?_eq_none] at hop
    exact absurd (by simp [hfst, hothers]) (hop o ho)
  | some l =>
    rw [hop, getD_some] at hlex
    obtain ⟨o, ho, rfl⟩ := map_eq_some_iff.mp hop
    have hfits := find?_some ho
    rw [Bool.and_eq_true, beq_iff_eq, isPrefixOf_iff_prefix] at hfits
    obtain ⟨rfl, rest, rfl⟩ := hfits
    obtain ⟨hplain, hothers⟩ := (operators_repeated o (mem_of_find?_eq_some ho) hc).resolve_left fun hhead => by
      rw [nextIs, head?_append, hhead] at hnext
      simp at hnext
    rw [outline_code_plain hlex hplain, drop_left, outline_softs hothers]

theorem outline_slash (h : nextIs (fun c => c == '/' || c == '*') cs = false) :
    outline .php ('/' :: cs) = outline .php cs := by
  rw [nextIs_or, Bool.or_eq_false_iff] at h
  exact outline_operator (by decide) (by simp [beginsWord, isBlank, isNameStart, openingFrame?, nextIs_or, h]) h.1

theorem outline_question (h : nextIs (fun c => c == '>' || c == '?') cs = false) :
    outline .php ('?' :: cs) = outline .php cs := by
  rw [nextIs_or, Bool.or_eq_false_iff] at h
  exact outline_operator (by decide) (by simp [beginsWord, isBlank, isNameStart, openingFrame?, h]) h.2

theorem outline_less (h : nextIs (· == '<') cs = false) : outline .php ('<' :: cs) = outline .php cs := by
  refine outline_operator (by decide) ?_ h
  have hhere : (['<', '<'] : List Char).isPrefixOf cs = false := by
    cases cs with
    | nil => rfl
    | cons x cs => rw [isPrefixOf, Bool.beq_comm, show (x == '<') = false from h, Bool.false_and]
  simp [beginsWord, isBlank, isNameStart, openingFrame?, hhere]

theorem operatorRule_doubled (hc : c ∈ ['?', '<']) (last : Option Kind) (cs : List Char) :
    operatorRule last c (c :: cs) = some (.code .operator (if nextIs (· == '=') cs then 2 else 1) []) := by
  simp only [mem_cons, not_mem_nil, or_false] at hc
  cases cs with
  | nil => rcases hc with rfl | rfl <;> rfl
  | cons x cs =>
    by_cases hx : x = '='
    · subst hx
      rcases hc with rfl | rfl <;> rfl
    · rcases hc with rfl | rfl <;> simp [operatorRule, operators, nextIs, hx, Ne.symm hx]

theorem outline_doubled (hc : c ∈ ['?', '<']) (hword : beginsWord c (c :: cs) = false) :
    outline .php (c :: c :: cs) = outline .php cs := by
  have hlex := phpLexeme_not_word hword none
  rw [operatorRule_doubled hc, getD_some] at hlex
  rw [outline_code_plain hlex rfl]
  split
  · rename_i hequals
    cases cs with
    | nil => cases hequals
    | cons x cs =>
      obtain rfl : x = '=' := eq_of_beq hequals
      rw [outline_soft (c := '=') (by decide)]
      rfl
  · rfl

theorem beginsWord_questions (cs : List Char) : beginsWord '?' ('?' :: cs) = false := by
  simp [beginsWord, isBlank, isNameStart, openingFrame?, nextIs]

/-- `??` is one token, so a `>` behind it closes nothing. -/
theorem outline_questions (cs : List Char) : outline .php ('?' :: '?' :: cs) = outline .php cs :=
  outline_doubled (by decide) (beginsWord_questions cs)

def opensHeredoc (cs : List Char) : Bool := nextIs (· == '<') cs && (heredocOpener? (cs.drop 1)).isSome

theorem beginsWord_shift (cs : List Char) : beginsWord '<' ('<' :: cs) = opensHeredoc cs := by
  cases cs with
  | nil => rfl
  | cons x cs =>
    simp [beginsWord, isBlank, isNameStart, openingFrame?, opensHeredoc, nextIs, Bool.beq_comm (a := x), isPrefixOf]

theorem outline_shift (h : opensHeredoc cs = false) : outline .php ('<' :: '<' :: cs) = outline .php cs :=
  outline_doubled (by decide) (by rw [beginsWord_shift, h])

/-! ## §7. Markup. -/

theorem htmlRun_add (n : Nat) (cs : List Char) : htmlRun n cs = n + htmlRun 0 cs := by
  induction cs generalizing n with
  | nil => rfl
  | cons c cs ih =>
    rw [htmlRun, htmlRun]
    split
    · rfl
    · rw [ih (n + 1), ih (0 + 1)]
      omega

theorem outline_markup (h : openTag? (c :: cs) = none) : outline .html (c :: cs) = outline .html cs := by
  have hrun : ∀ {c : Char} {cs : List Char}, openTag? (c :: cs) = none →
      outline .html (c :: cs) = outline .html (cs.drop (htmlRun 0 cs)) := by
    intro c cs h
    have hlex : lexeme .html none c cs = ⟨.inlineHtml, 1 + htmlRun 0 cs, [], .html, by omega⟩ := by
      show htmlLexeme c cs = _
      rw [htmlLexeme, h]
    rw [outline_cons, hlex]
    simp only [if_true, Kind.marks_of_isPlain (k := .inlineHtml) rfl, nil_append, Option.map_id_fun', id]
    rw [Nat.add_comm, drop_succ_cons]
  rw [hrun h]
  cases cs with
  | nil => rfl
  | cons d ds =>
    rw [htmlRun]
    split
    · rfl
    · rename_i hnone
      -- the run that began with `c` begins with `d` as well
      rw [hrun (by simpa using hnone), htmlRun_add, Nat.add_comm, drop_succ_cons]

theorem openTag?_cases (h : openTag? cs = some (k, n)) :
    (∃ rest, cs = '<' :: '?' :: '=' :: rest ∧ k = .openTagWithEcho ∧ n = 2)
      ∨ ∃ p h q rest, cs = '<' :: '?' :: p :: h :: q :: rest ∧ p.toLower = 'p' ∧ h.toLower = 'h'
        ∧ q.toLower = 'p' ∧ (rest = [] ∨ nextIs isBlank rest) ∧ k = .openTag ∧ n = 4 + tagBlankLength rest := by
  unfold openTag? at h
  split at h
  · cases h
    exact .inl ⟨_, rfl, rfl, rfl⟩
  · rename_i p h' q rest _
    split at h
    · rename_i hphp
      cases h
      simp only [Bool.and_eq_true, beq_iff_eq, Bool.or_eq_true, List.isEmpty_iff] at hphp
      exact .inr ⟨p, h', q, rest, rfl, hphp.1.1.1, hphp.1.1.2, hphp.1.2, hphp.2, rfl, rfl⟩
    · cases h
  · cases h

theorem outline_openTag
    (h : openTag? (c :: cs) = some (k, n)) : outline .html (c :: cs) = outline .php (cs.drop n) := by
  have hlex : lexeme .html none c cs = .code k n [] := by
    show htmlLexeme c cs = _
    rw [htmlLexeme, h]
  have hk : k.isPlain := by
    rcases openTag?_cases h with ⟨_, -, rfl, -⟩ | ⟨_, _, _, _, -, -, -, -, -, rfl, -⟩ <;> rfl
  rw [outline_cons, hlex]
  show (outline .php ((c :: cs).drop (1 + n))).map (k.marks ++ ·) = _
  rw [Nat.add_comm, drop_succ_cons, Kind.marks_of_isPlain hk]
  simp

/-- The line break behind a close tag belongs to the tag, and does not matter in markup either. -/
theorem outline_closeTag (cs : List Char) : outline .php ('?' :: '>' :: cs) = outline .html cs := by
  have hlex : lexeme .php none '?' ('>' :: cs)
      = ⟨.closeTag, 2 + lineBreakLength cs, [], .html, by omega⟩ := rfl
  have hbreak : outline .html (cs.drop (lineBreakLength cs)) = outline .html cs := by
    unfold lineBreakLength
    split
    · rw [outline_markup rfl, outline_markup rfl]
      rfl
    · rw [outline_markup rfl]
      rfl
    · rw [outline_markup rfl]
      rfl
    · rfl
  rw [outline_cons, hlex]
  simp only [if_true, Kind.marks_of_isPlain (k := .closeTag) rfl, nil_append, Option.map_id_fun', id]
  rw [Nat.add_comm, drop_succ_cons, drop_succ_cons, hbreak]

end MageUplift.Php
