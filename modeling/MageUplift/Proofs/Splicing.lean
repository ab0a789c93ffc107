import MageUplift.Proofs.TokenReading

/-!
# New tokens between tokens that were read

A text in which nothing is wrong is read, some of its tokens are dropped and others are put between the
rest. Is the new text still read as one expects? `Spliced` says how the tokens may be mixed: what is new
is inert, which means that it adds its brackets to any outline, and it starts with a character that no
token in front of it can take along. Then only heredocs can go wrong, and `HeredocsStand` says that none
does.
-/

namespace MageUplift.Php

open List Option Bool

variable {w ρ cs : List Char} {t next : Token} {c : Char} {src rest res : List Token} {last : Option Kind}
  {mode : Mode}

/-! ## §1. What stands behind a token that was read. -/

/-- The token ends where `ρ` begins: nothing at the start of `ρ` would have been read with it. -/
structure Token.EndsBefore (t : Token) (ρ : List Char) : Prop where
  slash : t = ⟨.operator, "/"⟩ → nextIs (fun c => c == '/' || c == '*') ρ = false
  question : t = ⟨.question, "?"⟩ → nextIs (fun c => c == '>' || c == '?') ρ = false
  less : t = ⟨.operator, "<"⟩ → nextIs (· == '<') ρ = false
  comment : t.isLineComment = true → lineCommentRun 0 ρ = 0
  markup : t.kind = .inlineHtml → ρ ≠ [] → (openTag? ρ).isSome = true
  tag : t.kind = .openTag → t.text.toList.length = 5 → ρ = []

theorem phpLexeme_block_kind (last : Option Kind) (cs : List Char) :
    (phpLexeme last '/' ('*' :: cs)).kind ≠ .operator := by
  obtain ⟨k, hk, hlex⟩ := phpLexeme_block last cs
  rw [hlex]
  split <;> rcases hk with rfl | rfl <;> exact nofun

theorem phpLexeme_questions_kind (last : Option Kind) (cs : List Char) :
    (phpLexeme last '?' ('?' :: cs)).kind ≠ .question := by
  rw [phpLexeme_not_word (beginsWord_questions cs), operatorRule_doubled (by decide)]
  exact nofun

theorem phpLexeme_shift_length (last : Option Kind) (cs : List Char) :
    (phpLexeme last '<' ('<' :: cs)).length ≠ 1 := by
  cases hhere : heredocRule last '<' ('<' :: cs) with
  | some l =>
    rw [phpLexeme_rule (show heredocRule ∈ wordRules by simp [wordRules]) hhere]
    obtain ⟨-, hl⟩ := ite_none_right_eq_some.mp hhere
    obtain ⟨⟨label, opening⟩, -, rfl⟩ := map_eq_some_iff.mp hl
    dsimp only
    split
    · show 1 + _ ≠ 1
      omega
    · show 1 + ('<' :: cs).length ≠ 1
      rw [length_cons]
      omega
  | none =>
    have hword : beginsWord '<' ('<' :: cs) = false := by
      simpa [beginsWord, heredocRule, isBlank, isNameStart, openingFrame?] using hhere
    rw [phpLexeme_not_word hword, operatorRule_doubled (by decide), getD_some]
    show 1 + (if _ then 2 else 1) ≠ 1
    split <;> decide

theorem htmlRun_eq_zero (h : htmlRun 0 (w ++ ρ) = w.length) : htmlRun 0 ρ = 0 := by
  induction w with
  | nil => exact h
  | cons d w ih =>
    rw [cons_append, htmlRun, length_cons] at h
    split at h
    · omega
    · rw [htmlRun_add] at h
      exact ih (by omega)

theorem lineCommentRun_of_lexed
    (htext : t.text.toList = c :: w) (hkind : (phpLexeme last c (w ++ ρ)).kind = .comment)
    (hlen : (phpLexeme last c (w ++ ρ)).length = w.length + 1) (ht : t.isLineComment) :
    lineCommentRun 0 (w ++ ρ) = w.length := by
  have hlex : phpLexeme last c (w ++ ρ) = .code .comment (lineCommentRun 0 (w ++ ρ)) [] := by
    unfold Token.isLineComment at ht
    rw [htext, and_eq_true] at ht
    have hmark := ht.2
    split at hmark
    · rename_i hc
      cases hc
      -- behind a hash the bracket of an attribute would have made another token
      by_cases hattr : nextIs (· == '[') (w ++ ρ)
      · exfalso
        obtain ⟨cs, hcs⟩ : ∃ cs, w ++ ρ = '[' :: cs := by
          cases hwρ : w ++ ρ with
          | nil =>
            rw [hwρ] at hattr
            cases hattr
          | cons x cs =>
            rw [hwρ] at hattr
            exact ⟨cs, by rw [show x = '[' from by simpa [nextIs] using hattr]⟩
        rw [hcs] at hkind
        cases hkind
      · exact phpLexeme_rule (show lineCommentRule ∈ wordRules by simp [wordRules])
          (by simp [lineCommentRule, hattr])
    · rename_i hc
      cases hc
      rfl
    · cases hmark
  rw [hlex] at hlen
  have : 1 + lineCommentRun 0 (w ++ ρ) = w.length + 1 := hlen
  omega

theorem Token.endsBefore_of_lexeme
    (htext : t.text.toList = c :: w) (hkind : (lexeme t.kind.mode last c (w ++ ρ)).kind = t.kind)
    (hlength : (lexeme t.kind.mode last c (w ++ ρ)).length = w.length + 1) : t.EndsBefore ρ := by
  refine ⟨?_, ?_, ?_, ?_, ?_, ?_⟩
  · rintro rfl
    cases htext
    cases ρ with
    | nil => rfl
    | cons x ρ =>
      simp only [nextIs, head?_cons, any_some, or_eq_false_iff, beq_eq_false_iff_ne]
      constructor
      · rintro rfl
        cases hkind
      · rintro rfl
        exact phpLexeme_block_kind last ρ hkind
  · rintro rfl
    cases htext
    cases ρ with
    | nil => rfl
    | cons x ρ =>
      simp only [nextIs, head?_cons, any_some, or_eq_false_iff, beq_eq_false_iff_ne]
      constructor
      · rintro rfl
        cases hkind
      · rintro rfl
        exact phpLexeme_questions_kind last ρ hkind
  · rintro rfl
    cases htext
    cases ρ with
    | nil => rfl
    | cons x ρ =>
      simp only [nextIs, head?_cons, any_some, beq_eq_false_iff_ne]
      rintro rfl
      exact phpLexeme_shift_length last ρ hlength
  · intro ht
    have hk : t.kind = .comment := by
      rw [Token.isLineComment, and_eq_true] at ht
      exact eq_of_beq ht.1
    rw [hk] at hkind hlength
    exact lineCommentRun_eq_zero (lineCommentRun_of_lexed htext hkind hlength ht)
  · intro hk hρ
    rw [hk] at hkind hlength
    rcases htmlLexeme_cases hkind hlength with htag | ⟨-, -, hrun⟩
    · rcases openTag?_shape htag with ⟨hk, -⟩ | ⟨_, _, _, _, hk, -⟩ <;> cases hk
    · have hzero := htmlRun_eq_zero hrun
      cases ρ with
      | nil => exact absurd rfl hρ
      | cons x ρ =>
        rw [htmlRun] at hzero
        split at hzero
        · assumption
        · rw [htmlRun_add] at hzero
          omega
  · intro hk hlen
    rw [hk] at hkind hlength
    rcases htmlLexeme_cases hkind hlength with htag | ⟨hk, -⟩
    · rcases openTag?_shape htag with ⟨hk, -⟩ | ⟨p, h, q, blanks, -, hw, -, -, -, -, hend⟩
      · cases hk
      · -- the five letters are the whole tag
        rw [htext, hw] at hlen
        exact hend (by simpa using hlen)
    · cases hk

theorem Token.LexedBefore.ends (h : t.LexedBefore ρ) : t.EndsBefore ρ := by
  obtain ⟨c, w, last, htext, hkind, hlen, -⟩ := h
  exact endsBefore_of_lexeme htext hkind hlen

/-! ## §2. Inert tokens and heredocs that stand. -/

/-- What follows neither makes the closing label of a heredoc longer nor opens a heredoc with a shift. -/
def Token.heredocStands (t : Token) (ρ : List Char) : Bool :=
  !(t.kind == .heredoc && nextIs isNamePart ρ) && !(t == ⟨.operator, "<<"⟩ && opensHeredoc ρ)

/-- No heredoc opens or goes on because of the text behind a token. -/
def heredocsStand : List Token → Bool
  | [] => true
  | t :: rest => t.heredocStands (charsOf rest) && heredocsStand rest

theorem Token.heredocStands_of_ne (hk : t.kind ≠ .heredoc) (ht : t ≠ ⟨.operator, "<<"⟩)
    (ρ : List Char) : t.heredocStands ρ := by
  rw [Token.heredocStands, beq_eq_false_iff_ne.mpr hk, beq_eq_false_iff_ne.mpr ht]
  rfl

theorem phpLexeme_ne_heredoc (last : Option Kind) (cs : List Char) (hc : c ≠ '<') :
    (phpLexeme last c cs).kind ≠ .heredoc := by
  have hops : ∀ o ∈ operators, o.kind ≠ .heredoc := by decide
  have hspec := phpLexeme_spec last c cs
  generalize phpLexeme last c cs = l at hspec ⊢
  cases hspec with
  | blockComment hkind | openComment hkind => rcases hkind with rfl | rfl <;> exact nofun
  | name hkind => cases hkind <;> exact nofun
  | heredoc hless | openHeredoc hless => exact absurd hless hc
  | operator ho => exact hops _ ho
  | _ => exact nofun

/-- A token of code that adds its bracket to the outline of whatever follows it. -/
structure Token.Inert (t : Token) : Prop where
  mode : t.kind.mode = .php
  next : t.kind.nextMode = .php
  reads : ∀ ρ, t.Reads ρ
  stands : ∀ ρ, t.heredocStands ρ = true

/-- The characters that could be read together with a token in front of them. -/
def joiners : List Char := ['/', '*', '?', '>', '<', '[']

def startsFree (cs : List Char) : Bool := !nextIs joiners.contains cs

theorem nextIs_startsFree {p : Char → Bool} (h : startsFree cs)
    (hp : ∀ c, p c → c ∈ joiners) : nextIs p cs = false := by
  cases cs with
  | nil => rfl
  | cons c cs =>
    show p c = false
    have hc : c ∉ joiners := by simpa [startsFree, nextIs] using h
    rw [← not_eq_true]
    exact fun htrue => hc (hp c htrue)

/-! ## §3. Spliced tokens. -/

/-- How the token `t`, which stood before `src`, may stand before `res`. -/
inductive Token.Meets (t : Token) : List Token → List Token → Prop where
  | done : t.Meets [] []
  | same (next : Token) (src res : List Token) : t.Meets (next :: src) (next :: res)
  | new {next : Token} {src res : List Token} (mode : next.kind.mode = .php)
      (free : startsFree (charsOf res) = true) (code : t.isLineComment = false) : t.Meets (next :: src) res
  /-- New code without brackets and comments stands in between. -/
  | soft {next : Token} {src res gap : List Token} (mode : next.kind.mode = .php)
      (free : startsFree (charsOf (gap ++ next :: res)) = true) (soft : ∀ x ∈ charsOf gap, isSoft x = true) :
      t.Meets (next :: src) (gap ++ next :: res)

/-- `res` are the tokens `src`, some of them dropped and inert tokens put in between. -/
inductive Spliced : List Token → List Token → Prop where
  | done : Spliced [] []
  | keep {t : Token} {src res : List Token} (meets : t.Meets src res) (rest : Spliced src res) :
      Spliced (t :: src) (t :: res)
  | drop {t : Token} {src res : List Token} (mode : t.kind.mode = .php) (next : t.kind.nextMode = .php)
      (rest : Spliced src res) : Spliced (t :: src) res
  | new {t g : Token} {src res : List Token} (inert : g.Inert) (mode : t.kind.mode = .php)
      (rest : Spliced (t :: src) res) : Spliced (t :: src) (g :: res)

theorem Lexical.text_ne_nil (h : Lexical mode (t :: rest)) : t.text.toList ≠ [] := by
  cases h with
  | cons _ lexed _ =>
    obtain ⟨c, w, -, htext, -⟩ := lexed
    rw [htext]
    exact cons_ne_nil c w

theorem lineCommentRun_of_lexeme {ρ₀ : List Char}
    (hlen : (phpLexeme last c (w ++ ρ₀)).length = w.length + 1) (hrun : lineCommentRun 0 (c :: (w ++ ρ₀)) = 0)
    (ρ : List Char) : lineCommentRun 0 (c :: (w ++ ρ)) = 0 := by
  rw [lineCommentRun] at hrun ⊢
  split at hrun
  · rename_i hend
    rw [if_pos]
    cases w with
    | cons d w => exact hend
    | nil =>
      -- a question mark alone would have been read with the bracket behind it
      have hclose : (c == '?' && nextIs (· == '>') ([] ++ ρ₀)) = false := by
        rw [← not_eq_true]
        intro htag
        rw [and_eq_true, beq_iff_eq] at htag
        obtain ⟨rfl, hnext⟩ := htag
        rw [phpLexeme_closeTag hnext] at hlen
        change 2 + _ = 1 at hlen
        omega
      rw [hclose, Bool.or_false] at hend
      rw [hend, Bool.true_or]
  · rw [lineCommentRun_add] at hrun
    omega

theorem phpLexeme_of_lineCommentRun (h : lineCommentRun 0 (c :: cs) = 0) (last : Option Kind) :
    (phpLexeme last c cs).kind = .whitespace ∨ (phpLexeme last c cs).kind = .closeTag := by
  rw [lineCommentRun] at h
  split at h
  · rename_i hend
    simp only [or_eq_true, and_eq_true, beq_iff_eq] at hend
    rcases hend with (rfl | rfl) | ⟨rfl, hclose⟩
    · exact .inl rfl
    · exact .inl rfl
    · exact .inr (congrArg Lexeme.kind (phpLexeme_closeTag hclose last))
  · rw [lineCommentRun_add] at h
    omega

theorem lineCommentRun_of_next (h : Lexical .php (next :: src))
    (hrun : lineCommentRun 0 (charsOf (next :: src)) = 0) (ρ : List Char) :
    lineCommentRun 0 (next.text.toList ++ ρ) = 0 := by
  cases h with
  | cons inMode lexed tail =>
    obtain ⟨c, w, last, htext, -, hlen, -⟩ := lexed
    rw [inMode] at hlen
    rw [charsOf_cons, htext, cons_append] at hrun
    rw [htext, cons_append]
    exact lineCommentRun_of_lexeme hlen hrun ρ

theorem openTag?_of_next (h : Lexical .html (next :: src))
    (htag : (openTag? (charsOf (next :: src))).isSome) (hrest : Spliced (next :: src) (next :: res)) :
    (openTag? (charsOf (next :: res))).isSome := by
  cases h with
  | cons inMode lexed tail =>
    obtain ⟨c, w, last, htext, hkind, hlen, -⟩ := lexed
    rw [inMode] at hkind hlen
    rw [charsOf_cons, htext, cons_append] at htag
    have hk := (htmlLexeme_cases hkind hlen).resolve_right fun hmarkup => by
      rw [hmarkup.2.1] at htag
      cases htag
    rw [charsOf_cons, htext]
    rcases openTag?_shape hk with ⟨-, hw⟩ | ⟨p, h', q, blanks, -, hw, hp, hh, hq, hblanks, hnothing⟩
    · rw [hw]
      rfl
    · have hend : blanks = [] → charsOf res = [] := by
        rintro rfl
        -- a tag without a blank was the last token, and so it is now
        have hsrc : src = [] := by
          cases src with
          | nil => rfl
          | cons x src => exact absurd (append_eq_nil_iff.mp (hnothing rfl)).1 tail.text_ne_nil
        subst hsrc
        cases hrest with
        | keep meets rest =>
          cases meets with
          | done => rfl
        | drop mode next rest =>
          rw [inMode] at mode
          cases mode
        | new inert mode rest =>
          rw [inMode] at mode
          cases mode
      rw [hw]
      show (openTag? ('<' :: '?' :: p :: h' :: q :: (blanks ++ charsOf res))).isSome = true
      rw [openTag?_blanks hp hh hq hblanks hend]
      rfl

theorem softPrefix_lineComment {gap : List Char} (hsoft : ∀ x ∈ gap, isSoft x)
    (hrun : lineCommentRun 0 ρ = 0) : Starts isSoft (lineCommentRun 0 (gap ++ ρ)) (gap ++ ρ) := by
  induction gap with
  | nil =>
    rw [nil_append, hrun]
    exact .zero ρ
  | cons x gap ih =>
    rw [cons_append, lineCommentRun]
    split
    · exact .zero _
    · rw [lineCommentRun_add]
      exact (ih (forall_mem_cons.mp hsoft).2).cons (hsoft x mem_cons_self)

theorem nextMode_lineComment (h : t.isLineComment) : t.kind.nextMode = .php := by
  rw [Token.isLineComment, and_eq_true] at h
  rw [eq_of_beq h.1]
  rfl

theorem nextIs_of_lineCommentRun (h : lineCommentRun 0 ρ = 0) : nextIs (fun c => c == '>' || c == '[') ρ = false := by
  cases ρ with
  | nil => rfl
  | cons x ρ =>
    rw [lineCommentRun] at h
    split at h
    · rename_i hend
      simp only [or_eq_true, and_eq_true, beq_iff_eq] at hend
      rcases hend with (rfl | rfl) | ⟨rfl, -⟩ <;> rfl
    · rw [lineCommentRun_add] at h
      omega

theorem Lexical.ne_inlineHtml {next : Token} {rest : List Token}
    (h : Lexical t.kind.nextMode (next :: rest)) (hmode : next.kind.mode = .php) : t.kind ≠ .inlineHtml := by
  intro hk
  cases h with
  | cons inMode lexed tail =>
    rw [hmode, hk] at inMode
    cases inMode

theorem Token.Meets.clear {mode : Mode} {res : List Token} (h : t.Meets src res)
    (hlex : Lexical mode (t :: src)) (hrest : Spliced src res)
    (hstands : t.heredocStands (charsOf res)) : t.Clear (charsOf src) (charsOf res) := by
  have hnext : Lexical t.kind.nextMode src := by
    cases hlex with
    | cons inMode lexed tail => exact tail
  have hends : t.EndsBefore (charsOf src) := by
    cases hlex with
    | cons inMode lexed tail => exact lexed.ends
  rw [Token.heredocStands, and_eq_true, not_eq_true', not_eq_true'] at hstands
  have hshift : t = ⟨.operator, "<<"⟩ → opensHeredoc (charsOf res) = false := by
    rintro rfl
    simpa using hstands.2
  have hheredoc : t.kind = .heredoc → nextIs isNamePart (charsOf res) = false := by
    intro hk
    simpa [hk] using hstands.1
  have htag : ∀ {next : Token} {rest ρ : List Token}, src = next :: rest → t.kind = .openTag →
      t.text.toList.length = 5 → charsOf ρ = [] := by
    rintro next rest ρ rfl hk hlen
    exact absurd (append_eq_nil_iff.mp (hends.tag hk hlen)).1 hnext.text_ne_nil
  cases h with
  | done => exact ⟨hends.slash, hends.question, hends.less, hshift, hheredoc, fun _ => ⟨rfl, .zero []⟩,
      fun _ => ⟨fun _ => rfl, fun h => absurd rfl h⟩, fun _ _ => rfl⟩
  | same next src res =>
    have hne := hnext.text_ne_nil
    have hhead : ∀ p, nextIs p (charsOf (next :: res)) = nextIs p (charsOf (next :: src)) := by
      intro p
      rw [charsOf_cons, charsOf_cons, nextIs_append hne, nextIs_append hne]
    refine ⟨hhead _ ▸ hends.slash, hhead _ ▸ hends.question, hhead _ ▸ hends.less, hshift, hheredoc, ?_, ?_,
      htag rfl⟩
    · intro ht
      have hrun := lineCommentRun_of_next (nextMode_lineComment ht ▸ hnext) (hends.comment ht) (charsOf res)
      exact ⟨nextIs_of_lineCommentRun hrun, by rw [charsOf_cons, hrun]; exact .zero _⟩
    · intro hk
      refine ⟨fun hnil => absurd (append_eq_nil_iff.mp hnil).1 hne, fun _ => ?_⟩
      rw [hk] at hnext
      exact openTag?_of_next hnext (hends.markup hk fun hnil => hne (append_eq_nil_iff.mp hnil).1) hrest
  | new mode free code =>
    refine ⟨fun _ => nextIs_startsFree free ?_, fun _ => nextIs_startsFree free ?_,
      fun _ => nextIs_startsFree free ?_, hshift, hheredoc, fun ht => ?_, fun hk => ?_, htag rfl⟩
    · simp [joiners]
    · simp [joiners]
    · simp [joiners]
    · rw [code] at ht
      cases ht
    · exact absurd hk (hnext.ne_inlineHtml mode)
  | @soft next src res gap mode free soft =>
    refine ⟨fun _ => nextIs_startsFree free ?_, fun _ => nextIs_startsFree free ?_,
      fun _ => nextIs_startsFree free ?_, hshift, hheredoc, fun ht => ⟨nextIs_startsFree free ?_, ?_⟩,
      fun hk => ?_, htag rfl⟩
    · simp [joiners]
    · simp [joiners]
    · simp [joiners]
    · simp [joiners]
    · have hrun := lineCommentRun_of_next (nextMode_lineComment ht ▸ hnext) (hends.comment ht) (charsOf res)
      rw [charsOf_append]
      exact softPrefix_lineComment soft hrun
    · exact absurd hk (hnext.ne_inlineHtml mode)

/-- **The outline of spliced tokens is the list of their brackets.** -/
theorem outline_of_spliced {res : List Token} (h : Spliced src res) :
    ∀ {mode : Mode}, Lexical mode src → heredocsStand res → outline mode (charsOf res) = some (marksOf res) := by
  induction h with
  | done =>
    intro mode _ _
    exact outline_nil mode
  | keep meets rest ih =>
    intro mode hlex hstand
    rw [heredocsStand, and_eq_true] at hstand
    cases hlex with
    | cons inMode lexed tail =>
      have hreads := Token.reads_of_clear lexed (meets.clear (.cons inMode lexed tail) rest hstand.1)
      rw [← inMode, charsOf_cons, hreads, ih tail hstand.2]
      rfl
  | drop mode next rest ih =>
    intro _ hlex hstand
    cases hlex with
    | cons inMode lexed tail =>
      rw [← inMode, mode, ← next]
      exact ih tail hstand
  | @new t g src res inert mode rest ih =>
    intro _ hlex hstand
    rw [heredocsStand, and_eq_true] at hstand
    have hmode := hlex
    cases hmode with
    | cons inMode lexed tail =>
      have hrest := ih hlex hstand.2
      have hreads := inert.reads (charsOf res)
      rw [← inMode, mode] at hrest ⊢
      rw [Token.Reads, inert.mode, inert.next, hrest] at hreads
      rw [charsOf_cons, hreads]
      rfl

end MageUplift.Php
