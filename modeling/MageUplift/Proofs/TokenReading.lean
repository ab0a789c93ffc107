import MageUplift.Proofs.LexemeEnds

/-!
# Tokens in front of other text

A token was read in front of one text; does it stay the same token in front of another? For most tokens
the text behind them does not matter: a string or a block comment ends with its own last character, a
bracket is one character, and what is soft does not show in an outline. The exceptions are listed in
`Token.Clear`: an operator that could grow into a comment, a tag or a heredoc, a heredoc whose closing
label could grow, a line comment that goes on to the end of the line, and the pieces of markup.
-/

namespace MageUplift.Php

open List String

variable {t : Token} {c : Char} {cs ρ ρ₀ w : List Char} {last : Option Kind} {k : Kind}

/-! ## §1. Modes. -/

def Kind.mode : Kind → Mode
  | .inlineHtml | .openTag | .openTagWithEcho => .html
  | _ => .php

def Kind.nextMode : Kind → Mode
  | .inlineHtml | .closeTag => .html
  | _ => .php

/-- A lexeme has a kind of its mode, and its kind decides how reading goes on. -/
def Lexeme.InMode (mode : Mode) (l : Lexeme) : Prop := l.kind.mode = mode ∧ l.next = l.kind.nextMode

theorem operators_mode : ∀ o ∈ operators, o.kind.mode = .php ∧ o.kind.nextMode = .php := by decide

theorem CodeLexeme.inMode {l : Lexeme} (h : CodeLexeme c cs l) : l.InMode .php := by
  cases h with
  | blockComment hkind | openComment hkind => rcases hkind with rfl | rfl <;> exact ⟨rfl, rfl⟩
  | name hkind => cases hkind <;> exact ⟨rfl, rfl⟩
  | operator ho => exact ⟨(operators_mode _ ho).1, (operators_mode _ ho).2.symm⟩
  | _ => exact ⟨rfl, rfl⟩

theorem phpLexeme_inMode (last : Option Kind) (c : Char) (cs : List Char) : (phpLexeme last c cs).InMode .php :=
  (phpLexeme_spec last c cs).inMode

theorem lexeme_inMode (mode : Mode) (last : Option Kind) (c : Char) (cs : List Char) :
    (lexeme mode last c cs).InMode mode := by
  cases mode with
  | php => exact phpLexeme_inMode last c cs
  | html =>
    show (htmlLexeme c cs).InMode .html
    unfold htmlLexeme
    split
    · rename_i k n htag
      rcases openTag?_cases htag with ⟨_, -, rfl, -⟩ | ⟨_, _, _, _, -, -, -, -, -, rfl, -⟩ <;> exact ⟨rfl, rfl⟩
    · exact ⟨rfl, rfl⟩

/-! ## §2. Lexed tokens. -/

def charsOf (tokens : List Token) : List Char := tokens.flatMap fun t => t.text.toList

@[simp] theorem charsOf_nil : charsOf [] = [] := rfl

@[simp] theorem charsOf_cons (t : Token) (tokens : List Token) :
    charsOf (t :: tokens) = t.text.toList ++ charsOf tokens := rfl

theorem charsOf_append (a b : List Token) : charsOf (a ++ b) = charsOf a ++ charsOf b := flatMap_append

theorem toList_joinTexts (tokens : List Token) : (TokenStream.joinTexts tokens).toList = charsOf tokens := by
  rw [TokenStream.joinTexts, toList_join, flatMap_map]
  rfl

/-- Reading the text of the token, with `ρ` behind it, gives the token and finds nothing wrong. -/
def Token.LexedBefore (t : Token) (ρ : List Char) : Prop :=
  ∃ c w last, t.text.toList = c :: w ∧ (lexeme t.kind.mode last c (w ++ ρ)).kind = t.kind
    ∧ (lexeme t.kind.mode last c (w ++ ρ)).length = w.length + 1
    ∧ (lexeme t.kind.mode last c (w ++ ρ)).faults = []

/-- Every token was read in front of those behind it, in the mode that the one before leaves. -/
inductive Lexical : Mode → List Token → Prop where
  | nil (mode : Mode) : Lexical mode []
  | cons {mode : Mode} {t : Token} {rest : List Token} (inMode : t.kind.mode = mode)
      (lexed : t.LexedBefore (charsOf rest)) (tail : Lexical t.kind.nextMode rest) : Lexical mode (t :: rest)

theorem charsOf_steps (mode : Mode) (last : Option Kind) (offset : Nat) (cs : List Char) :
    charsOf ((steps mode last offset cs).map LexStep.token) = cs := by
  rw [charsOf, flatMap_map]
  exact flatMap_steps_text mode last offset cs

theorem chars_fragment (code : String) : charsOf (lexFragment code) = code.toList :=
  charsOf_steps .php none 0 code.toList

theorem steps_text_ne_nil (mode : Mode) (last : Option Kind) (offset : Nat) (cs : List Char) :
    ∀ t ∈ (steps mode last offset cs).map LexStep.token, t.text.toList ≠ [] := by
  fun_induction steps mode last offset cs with
  | case1 => exact forall_mem_nil _
  | case2 mode last offset c cs l chars seen ih =>
    intro t ht
    rcases mem_cons.mp ht with rfl | ht
    · have hpos := l.length_pos
      rw [toList_ofList]
      intro hnil
      rcases take_eq_nil_iff.mp hnil with hzero | hnil
      · omega
      · cases hnil
    · exact ih t ht

theorem exists_take_lexeme (mode : Mode) (last : Option Kind) (c : Char) (cs : List Char) :
    ∃ w, (c :: cs).take (lexeme mode last c cs).length = c :: w ∧ w ++ (c :: cs).drop (lexeme mode last c cs).length = cs
      ∧ (lexeme mode last c cs).length = w.length + 1 := by
  have hlen := lexeme_length_le mode last c cs
  obtain ⟨n, hn⟩ := Nat.exists_eq_add_one_of_ne_zero (lexeme mode last c cs).length_pos.ne'
  rw [hn] at hlen ⊢
  exact ⟨cs.take n, rfl, take_append_drop n cs, by rw [length_take]; omega⟩

theorem steps_lexical {mode : Mode} {offset : Nat} (h : ∀ st ∈ steps mode last offset cs, st.errors = []) :
    Lexical mode ((steps mode last offset cs).map LexStep.token) := by
  fun_induction steps mode last offset cs with
  | case1 => exact .nil _
  | case2 mode last offset c cs l chars seen ih =>
    obtain ⟨hmode, hnext⟩ := lexeme_inMode mode last c cs
    have hfaults : l.faults = [] := map_eq_nil_iff.mp (h _ mem_cons_self)
    have htail := ih (forall_mem_cons.mp h).2
    obtain ⟨w, hw, hrest, hlen⟩ := exists_take_lexeme mode last c cs
    rw [map_cons]
    refine .cons hmode ⟨c, w, last, String.toList_ofList.trans hw, ?_⟩ ?_
    · rw [charsOf_steps, hrest]
      show (lexeme l.kind.mode last c cs).kind = l.kind ∧ (lexeme l.kind.mode last c cs).length = _
        ∧ (lexeme l.kind.mode last c cs).faults = []
      rw [show l.kind.mode = mode from hmode]
      exact ⟨rfl, hlen, hfaults⟩
    · show Lexical l.kind.nextMode _
      rw [← show l.next = l.kind.nextMode from hnext]
      exact htail

/-! ## §3. Tokens that are clear of what follows. -/

def Token.isLineComment (t : Token) : Bool :=
  t.kind == .comment && match t.text.toList with
    | '#' :: _ => true
    | '/' :: '/' :: _ => true
    | _ => false

/-- Nothing at the start of `ρ` changes how the token is read, if it was read in front of `ρ₀` before. -/
structure Token.Clear (t : Token) (ρ₀ ρ : List Char) : Prop where
  slash : t = ⟨.operator, "/"⟩ → nextIs (fun c => c == '/' || c == '*') ρ = false
  question : t = ⟨.question, "?"⟩ → nextIs (fun c => c == '>' || c == '?') ρ = false
  less : t = ⟨.operator, "<"⟩ → nextIs (· == '<') ρ = false
  shift : t = ⟨.operator, "<<"⟩ → opensHeredoc ρ = false
  heredoc : t.kind = .heredoc → nextIs isNamePart ρ = false
  /-- What the comment takes along of `ρ` is soft. -/
  comment : t.isLineComment = true →
    nextIs (fun c => c == '>' || c == '[') ρ = false ∧ Starts isSoft (lineCommentRun 0 ρ) ρ
  /-- Markup runs up to an open tag or to the end. -/
  markup : t.kind = .inlineHtml → (ρ = [] → ρ₀ = []) ∧ (ρ ≠ [] → (openTag? ρ).isSome = true)
  /-- An open tag without its blank stands at the end. -/
  tag : t.kind = .openTag → t.text.toList.length = 5 → ρ = []

def Token.Reads (t : Token) (ρ : List Char) : Prop :=
  outline t.kind.mode (t.text.toList ++ ρ) = (outline t.kind.nextMode ρ).map (t.kind.marks ++ ·)

theorem Token.reads_plain (hplain : t.kind.isPlain)
    (h : outline t.kind.mode (t.text.toList ++ ρ) = outline t.kind.nextMode ρ) : t.Reads ρ := by
  unfold Token.Reads
  rw [h, Kind.marks_of_isPlain hplain]
  simp

theorem outline_drop_soft {n : Nat} (h : Starts isSoft n cs) : outline .php (cs.drop n) = outline .php cs := by
  conv => rhs; rw [← take_append_drop n cs]
  exact (outline_softs h _).symm

theorem Token.reads_soft (hmode : t.kind.mode = .php) (hnext : t.kind.nextMode = .php)
    (hplain : t.kind.isPlain) (hsoft : ∀ x ∈ t.text.toList, isSoft x) (ρ : List Char) : t.Reads ρ := by
  apply Token.reads_plain hplain
  rw [hmode, hnext, outline_softs hsoft]

/-! ## §4. One lemma for each kind of rule. -/

theorem operators_hard : ∀ o ∈ operators, isSoft o.first
    ∨ (bracket? o.first = some o.kind ∧ o.others = [])
    ∨ (o.first :: o.others = ['#', '['] ∧ o.kind = .attributeStart)
    ∨ o.kind.isPlain ∧ (
      (o.first :: o.others = ['/', '='] ∨ o.first :: o.others = ['/'] ∧ o.kind = .operator)
      ∨ (o.first :: o.others = ['?', '-', '>'] ∨ o.first :: o.others = ['?', '?', '='] ∨ o.first :: o.others = ['?', '?']
        ∨ o.first :: o.others = ['?'] ∧ o.kind = .question)
      ∨ (o.first :: o.others = ['<', '=', '>'] ∨ o.first :: o.others = ['<', '<', '='] ∨ o.first :: o.others = ['<', '>']
        ∨ o.first :: o.others = ['<', '='] ∨ o.first :: o.others = ['<', '<'] ∧ o.kind = .operator
        ∨ o.first :: o.others = ['<'] ∧ o.kind = .operator)) := by
  decide

theorem marks_of_bracket? (h : bracket? c = some k) : k.marks = [k] := by
  unfold bracket? at h
  split at h
  case h_7 => cases h
  all_goals
    cases h
    rfl

theorem Token.reads_operator {o : Operator} (ho : o ∈ operators) (hkind : t.kind = o.kind)
    (htext : t.text.toList = o.first :: o.others) (h : t.Clear ρ₀ ρ) : t.Reads ρ := by
  have hmode := operators_mode o ho
  rw [← hkind] at hmode
  have ht : ∀ {k : Kind} {w : List Char}, o.kind = k → o.first :: o.others = w → t = ⟨k, ofList w⟩ := by
    rintro k w rfl rfl
    rw [← hkind, ← htext, ofList_toList]
  rcases operators_hard o ho with hsoft | ⟨hbr, hothers⟩ | ⟨hw, hattr⟩ | ⟨hplain, hhard⟩
  · obtain ⟨hplain, hothers⟩ := operators_soft o ho hsoft
    refine Token.reads_soft hmode.1 hmode.2 (hkind ▸ hplain) ?_ ρ
    rw [htext]
    exact forall_mem_cons.mpr ⟨hsoft, fun x hx => isSoft_of_isInner (hothers x hx)⟩
  · unfold Token.Reads
    rw [hmode.1, hmode.2, htext, hothers, hkind, marks_of_bracket? hbr]
    exact outline_bracket hbr ρ
  · unfold Token.Reads
    rw [hmode.1, hmode.2, htext, hw, hkind, hattr]
    exact outline_attribute ρ
  · apply Token.reads_plain (hkind ▸ hplain)
    rw [hmode.1, hmode.2, htext]
    have hrest : ∀ {w : List Char}, (∀ x ∈ w, isSoft x) → outline .php (w ++ ρ) = outline .php ρ :=
      fun hsoft => outline_softs hsoft ρ
    rcases hhard with (hw | ⟨hw, hk⟩) | (hw | hw | hw | ⟨hw, hk⟩) | (hw | hw | hw | hw | ⟨hw, hk⟩ | ⟨hw, hk⟩)
    · exact hw ▸ (outline_slash rfl).trans (hrest (by decide))
    · exact hw ▸ outline_slash (h.slash (ht hk hw))
    · exact hw ▸ (outline_question rfl).trans (hrest (by decide))
    · exact hw ▸ (outline_questions _).trans (hrest (by decide))
    · exact hw ▸ outline_questions ρ
    · exact hw ▸ outline_question (h.question (ht hk hw))
    · exact hw ▸ (outline_less rfl).trans (hrest (by decide))
    · exact hw ▸ (outline_shift rfl).trans (hrest (by decide))
    · exact hw ▸ (outline_less rfl).trans (hrest (by decide))
    · exact hw ▸ (outline_less rfl).trans (hrest (by decide))
    · exact hw ▸ outline_shift (h.shift (ht hk hw))
    · exact hw ▸ outline_less (h.less (ht hk hw))

theorem outline_breaks {breaks : List Char} (h : ∀ x ∈ breaks, x = '\n' ∨ x = '\r') (ρ : List Char) :
    outline .html (breaks ++ ρ) = outline .html ρ := by
  induction breaks with
  | nil => rfl
  | cons x breaks ih =>
    have hx : openTag? (x :: (breaks ++ ρ)) = none := by
      rcases h x mem_cons_self with rfl | rfl <;> rfl
    rw [cons_append, outline_markup hx]
    exact ih (forall_mem_cons.mp h).2

theorem take_lineBreakLength (cs : List Char) : ∀ x ∈ cs.take (lineBreakLength cs), x = '\n' ∨ x = '\r' := by
  unfold lineBreakLength
  split
  · simp
  · simp
  · simp
  · simp

section

variable {t : Token} {c : Char} {w ρ₀ ρ : List Char} {last : Option Kind} {l : Lexeme}

theorem Token.reads_closeTag (htext : t.text.toList = '?' :: w) (hk : t.kind = .closeTag)
    (htag : nextIs (· == '>') (w ++ ρ₀)) (hlen : 2 + lineBreakLength ((w ++ ρ₀).drop 1) = w.length + 1) :
    t.Reads ρ := by
  cases w with
  | nil =>
    rw [length_nil] at hlen
    omega
  | cons d w =>
    have hd : d = '>' := by simpa [nextIs] using htag
    subst hd
    have hbreaks : ∀ x ∈ w, x = '\n' ∨ x = '\r' := by
      have hw : w = (w ++ ρ₀).take (lineBreakLength (w ++ ρ₀)) := by
        have hlen' : lineBreakLength (w ++ ρ₀) = w.length := by
          rw [length_cons] at hlen
          have : lineBreakLength (('>' :: w ++ ρ₀).drop 1) = lineBreakLength (w ++ ρ₀) := rfl
          omega
        rw [hlen', take_left]
      rw [hw]
      exact take_lineBreakLength _
    apply Token.reads_plain (by rw [hk]; rfl)
    rw [hk, htext]
    show outline .php ('?' :: '>' :: (w ++ ρ)) = outline .html ρ
    rw [outline_closeTag, outline_breaks hbreaks]

theorem lineCommentRun_append (h : lineCommentRun 0 (w ++ ρ₀) = w.length) (hρ : nextIs (· == '>') ρ = false) :
    lineCommentRun 0 (w ++ ρ) = w.length + lineCommentRun 0 ρ := by
  induction w with
  | nil => simp
  | cons d w ih =>
    rw [cons_append, lineCommentRun, length_cons] at h
    split at h
    · omega
    · rename_i hend
      rw [lineCommentRun_add] at h
      have hend' : ¬ (d == '\n' || d == '\r' || (d == '?' && nextIs (· == '>') (w ++ ρ))) := by
        cases w with
        | nil =>
          simp only [nil_append, hρ, Bool.and_false, Bool.or_false]
          intro hbreak
          exact hend (by simp [hbreak])
        | cons e w => exact hend
      rw [cons_append, lineCommentRun, if_neg hend', lineCommentRun_add, ih (by omega), length_cons]
      omega

theorem lineCommentRun_eq_zero (h : lineCommentRun 0 (w ++ ρ₀) = w.length) : lineCommentRun 0 ρ₀ = 0 := by
  induction w with
  | nil => exact h
  | cons d w ih =>
    rw [cons_append, lineCommentRun, length_cons] at h
    split at h
    · omega
    · rw [lineCommentRun_add] at h
      exact ih (by omega)

theorem Token.phpLexeme_lineComment (htext : t.text.toList = c :: w) (hk : t.kind = .comment)
    (hopen : c = '/' ∧ nextIs (· == '/') (w ++ ρ₀) ∨ c = '#' ∧ nextIs (· == '[') (w ++ ρ₀) = false)
    (hrun : lineCommentRun 0 (w ++ ρ₀) = w.length) : t.isLineComment
      ∧ ∀ last ρ, nextIs (fun c => c == '>' || c == '[') ρ = false →
        phpLexeme last c (w ++ ρ) = .code .comment (w.length + lineCommentRun 0 ρ) [] := by
  simp only [nextIs_or, Bool.or_eq_false_iff]
  rcases hopen with ⟨rfl, hslash⟩ | ⟨rfl, hhash⟩
  · obtain ⟨v, rfl⟩ : ∃ v, w = '/' :: v := by
      cases w with
      | cons x v => exact ⟨v, by rw [show x = '/' from eq_of_beq hslash]⟩
      | nil =>
        -- the second slash belongs to the comment
        cases ρ₀ with
        | nil => cases hslash
        | cons x ρ₀ =>
          obtain rfl : x = '/' := eq_of_beq hslash
          rw [nil_append, lineCommentRun_cons (by decide)] at hrun
          cases hrun
    refine ⟨by simp [Token.isLineComment, hk, htext], fun last ρ hρ => ?_⟩
    rw [← lineCommentRun_append hrun hρ.1]
    rfl
  · refine ⟨by simp [Token.isLineComment, hk, htext], fun last ρ hρ => ?_⟩
    have hattr : nextIs (· == '[') (w ++ ρ) = false := by
      cases w with
      | nil => exact hρ.2
      | cons x w => exact hhash
    rw [← lineCommentRun_append hrun hρ.1]
    exact phpLexeme_rule (show lineCommentRule ∈ wordRules by simp [wordRules]) (by simp [lineCommentRule, hattr])

theorem Token.reads_lineComment (htext : t.text.toList = c :: w) (hk : t.kind = .comment)
    (hopen : c = '/' ∧ nextIs (· == '/') (w ++ ρ₀) ∨ c = '#' ∧ nextIs (· == '[') (w ++ ρ₀) = false)
    (hrun : lineCommentRun 0 (w ++ ρ₀) = w.length) (h : t.Clear ρ₀ ρ) : t.Reads ρ := by
  obtain ⟨hline, hlex⟩ := Token.phpLexeme_lineComment htext hk hopen hrun
  obtain ⟨hnext, hsoft⟩ := h.comment hline
  apply Token.reads_plain (by rw [hk]; rfl)
  rw [hk, htext]
  show outline .php (c :: (w ++ ρ)) = outline .php ρ
  rw [outline_code_plain (hlex none ρ hnext) rfl, ← drop_drop, drop_left, outline_drop_soft hsoft]

theorem Token.reads_of_same (htext : t.text.toList = c :: w) (hkind : (phpLexeme last c (w ++ ρ₀)).kind = t.kind)
    (hlen : (phpLexeme last c (w ++ ρ₀)).length = w.length + 1) (hfaults : (phpLexeme last c (w ++ ρ₀)).faults = [])
    (hsame : phpLexeme none c (w ++ ρ) = phpLexeme last c (w ++ ρ₀)) : t.Reads ρ := by
  obtain ⟨hmode, hnext⟩ := phpLexeme_inMode last c (w ++ ρ₀)
  have hlex : lexeme .php none c (w ++ ρ) = phpLexeme last c (w ++ ρ₀) := hsame
  rw [hkind] at hmode hnext
  rw [Token.Reads, hmode, htext, cons_append, outline_cons, hlex, if_pos hfaults, hnext, hkind, hlen,
    drop_succ_cons, drop_left]

end

/-! ## §5. Markup and open tags. -/

theorem openTag?_php {p h q : Char} {rest : List Char} (hp : p.toLower = 'p') (hh : h.toLower = 'h')
    (hq : q.toLower = 'p') (hrest : rest = [] ∨ nextIs isBlank rest) :
    openTag? ('<' :: '?' :: p :: h :: q :: rest) = some (.openTag, 4 + tagBlankLength rest) := by
  have hne : p ≠ '=' := by
    rintro rfl
    cases hp
  unfold openTag?
  split
  · rename_i heq
    cases heq
    exact absurd rfl hne
  · rename_i heq
    cases heq
    rw [if_pos]
    rcases hrest with rfl | hrest
    · simp [hp, hh, hq]
    · simp [hp, hh, hq, hrest]
  · rename_i hnone
    exact absurd rfl (hnone p h q rest)

theorem softPrefix_tagBlank (cs : List Char) : Starts isSoft (tagBlankLength cs) cs := by
  unfold tagBlankLength
  split
  · intro x hx
    rcases take_lineBreakLength cs x hx with rfl | rfl <;> decide
  · split
    · rename_i hblank
      cases cs with
      | nil => cases hblank
      | cons b cs => exact (Starts.zero cs).cons (isSoft_of_isBlank (by simpa [nextIs] using hblank))
    · exact .zero _

theorem nextIs_isBlank_of_tagBlank (h : tagBlankLength cs ≠ 0) : nextIs isBlank cs := by
  unfold tagBlankLength at h
  split at h
  · unfold lineBreakLength at h
    split at h
    · rfl
    · rfl
    · rfl
    · exact absurd rfl h
  · split at h
    · assumption
    · exact absurd rfl h

theorem htmlLexeme_cases (hkind : (htmlLexeme c (w ++ ρ)).kind = k)
    (hlength : (htmlLexeme c (w ++ ρ)).length = w.length + 1) : openTag? (c :: (w ++ ρ)) = some (k, w.length)
      ∨ k = .inlineHtml ∧ openTag? (c :: (w ++ ρ)) = none ∧ htmlRun 0 (w ++ ρ) = w.length := by
  unfold htmlLexeme at hkind hlength
  split at hkind
  · rename_i k' n htag
    rw [htag] at hlength
    cases hkind
    have hlen : 1 + n = w.length + 1 := hlength
    obtain rfl : n = w.length := by omega
    exact .inl htag
  · rename_i hnone
    rw [hnone] at hlength
    have hrun : 1 + htmlRun 0 (w ++ ρ) = w.length + 1 := hlength
    exact .inr ⟨hkind.symm, hnone, by omega⟩

theorem openTag?_shape (h : openTag? (c :: (w ++ ρ)) = some (k, w.length)) :
    (k = .openTagWithEcho ∧ c :: w = ['<', '?', '='])
      ∨ ∃ p h q blanks, k = .openTag ∧ c :: w = '<' :: '?' :: p :: h :: q :: blanks ∧ p.toLower = 'p'
        ∧ h.toLower = 'h' ∧ q.toLower = 'p' ∧ tagBlankLength (blanks ++ ρ) = blanks.length ∧ (blanks = [] → ρ = []) := by
  rcases openTag?_cases h with ⟨rest, hcs, hk, hn⟩ | ⟨p, h', q, rest, hcs, hp, hh, hq, hblank, hk, hn⟩
  · obtain ⟨rfl, hw⟩ := cons.inj hcs
    obtain ⟨rfl, -⟩ : w = ['?', '='] ∧ ρ = rest := append_inj hw hn
    exact .inl ⟨hk, rfl⟩
  · obtain ⟨rfl, hw⟩ := cons.inj hcs
    have htake : w.take 4 = ['?', p, h', q] := by
      have := congrArg (List.take 4) hw
      rwa [take_append_of_le_length (by omega)] at this
    have hsplit : w = '?' :: p :: h' :: q :: w.drop 4 := by
      conv => lhs; rw [← take_append_drop 4 w, htake]
      rfl
    have hrest : rest = w.drop 4 ++ ρ := by
      rw [hsplit] at hw
      simpa using hw.symm
    have hlen : tagBlankLength rest = (w.drop 4).length := by
      rw [length_drop]
      omega
    refine .inr ⟨p, h', q, w.drop 4, hk, by rw [← hsplit], hp, hh, hq, hrest ▸ hlen, fun hnil => ?_⟩
    rw [hnil] at hrest hlen
    subst hrest
    refine hblank.resolve_right fun hblank => ?_
    unfold tagBlankLength at hlen
    split at hlen
    · contradiction
    · cases hlen

theorem openTag?_blanks {p h q : Char} {blanks : List Char} (hp : p.toLower = 'p') (hh : h.toLower = 'h')
    (hq : q.toLower = 'p') (hlen : tagBlankLength (blanks ++ ρ₀) = blanks.length) (hend : blanks = [] → ρ = []) :
    openTag? ('<' :: '?' :: p :: h :: q :: (blanks ++ ρ))
      = some (.openTag, 4 + tagBlankLength (blanks ++ ρ)) := by
  apply openTag?_php hp hh hq
  cases blanks with
  | nil => exact .inl (hend rfl)
  | cons b blanks =>
    have htag : tagBlankLength (b :: blanks ++ ρ₀) ≠ 0 := by
      rw [hlen]
      simp
    have hblank : nextIs isBlank (b :: blanks ++ ρ₀) := nextIs_isBlank_of_tagBlank htag
    exact .inr hblank

theorem Token.reads_openTag (htext : t.text.toList = c :: w)
    (htag : openTag? (c :: (w ++ ρ₀)) = some (t.kind, w.length)) (h : t.Clear ρ₀ ρ) : t.Reads ρ := by
  rcases openTag?_shape htag with ⟨hk, hw⟩ | ⟨p, h', q, blanks, hk, hw, hp, hh, hq, hlen, -⟩
  · apply Token.reads_plain (by rw [hk]; rfl)
    rw [hk, htext, hw]
    exact outline_openTag (k := .openTagWithEcho) (n := 2) rfl
  · have hsoft : ∀ x ∈ blanks, isSoft x := by
      have := softPrefix_tagBlank (blanks ++ ρ₀)
      rwa [hlen, Starts, take_left] at this
    have hend : blanks = [] → ρ = [] := by
      rintro rfl
      exact h.tag hk (by rw [htext, hw]; rfl)
    apply Token.reads_plain (by rw [hk]; rfl)
    rw [hk, htext, hw]
    show outline .html ('<' :: '?' :: p :: h' :: q :: (blanks ++ ρ)) = outline .php ρ
    rw [outline_openTag (openTag?_blanks hp hh hq hlen hend), Nat.add_comm]
    show outline .php ((blanks ++ ρ).drop (tagBlankLength (blanks ++ ρ))) = _
    rw [outline_drop_soft (softPrefix_tagBlank _), outline_softs hsoft]

theorem openTag?_append_eq_none {v : List Char} (hv : v ≠ []) (h : openTag? (v ++ ρ₀) = none)
    (hend : ρ = [] → ρ₀ = []) (htag : ρ ≠ [] → (openTag? ρ).isSome) : openTag? (v ++ ρ) = none := by
  by_cases hρ : ρ = []
  · rw [hρ, ← hend hρ]
    exact h
  obtain ⟨⟨k, n⟩, hk⟩ := Option.isSome_iff_exists.mp (htag hρ)
  -- the tag that begins behind `v` cannot be part of one that begins in `v`
  obtain ⟨σ, rfl⟩ : ∃ σ, ρ = '<' :: '?' :: σ := by
    rcases openTag?_cases hk with ⟨rest, rfl, -⟩ | ⟨p, h, q, rest, rfl, -⟩ <;> exact ⟨_, rfl⟩
  cases hopen : openTag? (v ++ '<' :: '?' :: σ) with
  | none => rfl
  | some found =>
    exfalso
    obtain ⟨k', n'⟩ := found
    have hlower : Char.toLower '<' ≠ 'p' ∧ Char.toLower '<' ≠ 'h' ∧ Char.toLower '?' ≠ 'h'
      ∧ Char.toLower '?' ≠ 'p' := by decide
    rcases openTag?_cases hopen with ⟨rest, hcs, -, -⟩ | ⟨p, h', q, rest, hcs, hp, hh, hq, hrest, -, -⟩
    · match v, hv with
      | [a], _ => simp at hcs
      | [a, b], _ => simp at hcs
      | a :: b :: c :: v, _ =>
        simp only [cons_append, cons.injEq] at hcs
        obtain ⟨rfl, rfl, rfl, -⟩ := hcs
        cases h
    · match v, hv with
      | [a], _ => simp at hcs
      | [a, b], _ =>
        simp only [cons_append, nil_append, cons.injEq] at hcs
        obtain ⟨-, -, rfl, -⟩ := hcs
        exact hlower.1 hp
      | [a, b, c], _ =>
        simp only [cons_append, nil_append, cons.injEq] at hcs
        obtain ⟨-, -, -, rfl, -⟩ := hcs
        exact hlower.2.1 hh
      | [a, b, c, d], _ =>
        simp only [cons_append, nil_append, cons.injEq] at hcs
        obtain ⟨-, -, -, -, rfl, -⟩ := hcs
        exact hlower.1 hq
      | a :: b :: c :: d :: e :: v, _ =>
        simp only [cons_append, cons.injEq] at hcs
        obtain ⟨rfl, rfl, rfl, rfl, rfl, hvσ⟩ := hcs
        have hblank : v ++ ρ₀ = [] ∨ nextIs isBlank (v ++ ρ₀) := by
          rcases hrest with rfl | hrest
          · simp at hvσ
          · rw [← hvσ] at hrest
            cases v with
            | nil => cases hrest
            | cons x v => exact .inr hrest
        simp only [cons_append] at h
        rw [openTag?_php hp hh hq hblank] at h
        cases h

theorem openTag?_of_htmlRun (h : htmlRun 0 (w ++ ρ₀) = w.length) :
    (∀ u v, w = u ++ v → v ≠ [] → openTag? (v ++ ρ₀) = none) := by
  induction w with
  | nil =>
    intro u v huv hv
    exact absurd (append_eq_nil_iff.mp huv.symm).2 hv
  | cons c w ih =>
    rw [cons_append, htmlRun] at h
    split at h
    · rw [length_cons] at h
      omega
    · rename_i hnone
      rw [htmlRun_add, length_cons] at h
      intro u v huv hv
      cases u with
      | nil =>
        rw [nil_append] at huv
        rw [← huv]
        simpa using hnone
      | cons d u => exact ih (by omega) u v (cons.inj huv).2 hv

theorem openTag?_inside (hnone : openTag? (c :: (w ++ ρ₀)) = none)
    (hrun : htmlRun 0 (w ++ ρ₀) = w.length) (hend : ρ = [] → ρ₀ = []) (htag : ρ ≠ [] → (openTag? ρ).isSome)
    (u v : List Char) (huv : c :: w = u ++ v) (hv : v ≠ []) : openTag? (v ++ ρ) = none := by
  refine openTag?_append_eq_none hv ?_ hend htag
  cases u with
  | nil =>
    rw [nil_append] at huv
    rw [← huv]
    exact hnone
  | cons d u => exact openTag?_of_htmlRun hrun u v (cons.inj huv).2 hv

theorem outline_markups (h : ∀ u v, w = u ++ v → v ≠ [] → openTag? (v ++ ρ) = none) :
    outline .html (w ++ ρ) = outline .html ρ := by
  induction w with
  | nil => rfl
  | cons c w ih =>
    have hc : openTag? (c :: (w ++ ρ)) = none := h [] (c :: w) rfl (by simp)
    rw [cons_append, outline_markup hc]
    exact ih fun u v huv => h (c :: u) v (by rw [huv, cons_append])

theorem Token.reads_markup (htext : t.text.toList = c :: w)
    (hk : t.kind = .inlineHtml) (hnone : openTag? (c :: (w ++ ρ₀)) = none)
    (hrun : htmlRun 0 (w ++ ρ₀) = w.length) (h : t.Clear ρ₀ ρ) : t.Reads ρ := by
  obtain ⟨hend, htag⟩ := h.markup hk
  apply Token.reads_plain (by rw [hk]; rfl)
  rw [hk, htext]
  exact outline_markups (openTag?_inside hnone hrun hend htag)

/-! ## §6. Every token that is clear of what follows it. -/

theorem Token.reads_of_phpLexeme {last : Option Kind}
    (htext : t.text.toList = c :: w) (hkind : (phpLexeme last c (w ++ ρ₀)).kind = t.kind)
    (hlength : (phpLexeme last c (w ++ ρ₀)).length = w.length + 1)
    (hfaults : (phpLexeme last c (w ++ ρ₀)).faults = []) (h : t.Clear ρ₀ ρ) : t.Reads ρ := by
  by_cases hc : isSoft c
  · obtain ⟨-, hstays, hplain, hsoft⟩ := phpLexeme_soft last (w ++ ρ₀) hc
    obtain ⟨hmode, hnext⟩ := phpLexeme_inMode last c (w ++ ρ₀)
    rw [hkind] at hmode hnext hplain
    rw [hlength, Starts, ← cons_append, ← length_cons (a := c), take_left] at hsoft
    refine Token.reads_soft hmode (hnext ▸ hstays) hplain ?_ ρ
    rw [htext]
    exact hsoft
  · have hspec := phpLexeme_spec last c (w ++ ρ₀)
    have hsame := Token.reads_of_same (ρ := ρ) htext hkind hlength hfaults
    generalize hl : phpLexeme last c (w ++ ρ₀) = l at hspec hkind hlength hfaults hsame
    have hlen : ∀ {k : Kind} {n : Nat} {faults : List (Fault × Nat)}, Lexeme.code k n faults = l → n = w.length := by
      rintro k n faults rfl
      have : 1 + n = w.length + 1 := hlength
      omega
    cases hspec with
    | blanks hblank => exact absurd (isSoft_of_isBlank hblank) hc
    | closeTag hq htag =>
      subst hq
      exact Token.reads_closeTag htext hkind.symm htag hlength
    | lineComment hopen => exact Token.reads_lineComment htext hkind.symm hopen (hlen rfl) h
    | blockComment _ hslash hstar hend =>
      subst hslash
      exact hsame (hl ▸ phpLexeme_block_append hstar (hlen rfl ▸ hend) last none ρ)
    | openComment | openHeredoc | unexpected => cases hfaults
    | variableName hdollar | dollar hdollar => exact absurd (hdollar ▸ by decide) hc
    | name _ hstart =>
      rcases hstart with hstart | rfl
      · exact absurd (isSoft_namePart (namePart_of_start hstart)) hc
      · exact absurd (by decide) hc
    | basedNumber hzero => exact absurd (hzero ▸ by decide) hc
    | number hdigit =>
      exact absurd (isSoft_namePart (namePart_of_digit (by simp [isDigitPart, hdigit]))) hc
    | fraction hdot => exact absurd (hdot ▸ by decide) hc
    | @string f hf =>
      have hnone : (stringEnd false [f] 1 (w ++ ρ₀)).2 = [] := map_eq_nil_iff.mp hfaults
      have hreach : (stringEnd false [f] 1 (w ++ ρ₀)).1 = w.length + 1 := hlength
      exact hsame (hl ▸ phpLexeme_string_append hf (by rw [← hnone, Nat.add_comm, ← hreach]) last none ρ)
    | heredoc hless harrows hopener hend =>
      subst hless
      obtain ⟨hnext₀, hlex⟩ := phpLexeme_heredoc_append harrows hopener hend (hlen rfl)
      exact hsame ((hlex none ρ (h.heredoc hkind.symm)).trans (hl ▸ (hlex last ρ₀ hnext₀).symm))
    | @operator o ho hfst hothers =>
      refine Token.reads_operator ho hkind.symm ?_ h
      rw [htext, hfst, prefix_iff_eq_take.mp hothers, hlen rfl, take_left]

/-- **A token that is clear of what follows it adds its bracket to the outline.** -/
theorem Token.reads_of_clear (hlexed : t.LexedBefore ρ₀) (h : t.Clear ρ₀ ρ) : t.Reads ρ := by
  obtain ⟨c, w, last, htext, hkind, hlen, hfaults⟩ := hlexed
  cases hmode : t.kind.mode with
  | php =>
    rw [hmode] at hkind hlen hfaults
    exact Token.reads_of_phpLexeme htext hkind hlen hfaults h
  | html =>
    rw [hmode] at hkind hlen
    rcases htmlLexeme_cases hkind hlen with htag | ⟨hk, hnone, hrun⟩
    · exact Token.reads_openTag htext htag h
    · exact Token.reads_markup htext hk hnone hrun h

end MageUplift.Php
