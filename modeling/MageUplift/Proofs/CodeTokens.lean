import MageUplift.Proofs.WovenStreams

/-!
# The significant tokens of code

What a piece of code means to the rest of the library are its significant tokens. Unlike all its tokens, they
can be computed from its text piece by piece: blanks and comments can be left out wherever they stand, and a token
that begins with a soft character ends before the next delimiter, whatever follows (`phpLexeme_inner`).
-/

namespace MageUplift.Php

open List

variable {last : Option Kind} {c d : Char} {w cs x rest bs : List Char} {k : Kind} {ks : List Kind}

/-! ## §1. Significant tokens. -/

def significant (tokens : List Token) : List Token := tokens.filter (!·.isTrivia)

/-- The significant tokens of code that is read behind a token of kind `last`. -/
def codeTokens (last : Option Kind) (cs : List Char) : List Token :=
  significant ((steps .php last 0 cs).map LexStep.token)

theorem significant_append (a b : List Token) : significant (a ++ b) = significant a ++ significant b :=
  filter_append ..

theorem significant_cons (t : Token) (ts : List Token) :
    significant (t :: ts) = if t.isTrivia then significant ts else t :: significant ts := by
  cases h : t.isTrivia <;> simp [significant, h]

theorem getLast?_significant {tokens : List Token} {q : Nat} {t : Token} (hq : tokens[q]? = some t)
    (hsig : t.isTrivia = false) (hlast : ∀ m u, q < m → tokens[m]? = some u → u.isTrivia) :
    (significant tokens).getLast? = some t := by
  have hlt := (List.getElem?_eq_some_iff.mp hq).1
  have htoken : tokens[q] = t := by simpa [hlt] using hq
  have hsplit : tokens = tokens.take q ++ t :: tokens.drop (q + 1) := by
    rw [← htoken, getElem_cons_drop, take_append_drop]
  have hnone : significant (tokens.drop (q + 1)) = [] := by
    rw [significant, filter_eq_nil_iff]
    intro u hu
    obtain ⟨m, hm⟩ := mem_iff_getElem?.mp hu
    rw [getElem?_drop] at hm
    rw [hlast (q + 1 + m) u (by omega) hm]
    decide
  rw [hsplit, significant_append, significant_cons, if_neg (by rw [hsig]; decide), hnone, getLast?_concat]

theorem tokens_steps_offset (mode : Mode) (last : Option Kind) (offset offset' : Nat) (cs : List Char) :
    (steps mode last offset cs).map LexStep.token = (steps mode last offset' cs).map LexStep.token := by
  fun_induction steps mode last offset cs generalizing offset' with
  | case1 => rw [steps_nil]
  | case2 mode last offset c cs l chars seen ih =>
    rw [steps, map_cons, map_cons]
    exact congrArg _ (ih _)

theorem tokens_steps_cons (mode : Mode) (last : Option Kind) (offset : Nat) (c : Char) (cs : List Char) :
    (steps mode last offset (c :: cs)).map LexStep.token
      = ⟨(lexeme mode last c cs).kind, .ofList ((c :: cs).take (lexeme mode last c cs).length)⟩
        :: (steps (lexeme mode last c cs).next
              (if (lexeme mode last c cs).kind.isTrivia then last else some (lexeme mode last c cs).kind) 0
              ((c :: cs).drop (lexeme mode last c cs).length)).map LexStep.token := by
  rw [steps, map_cons]
  exact congrArg _ (tokens_steps_offset _ _ _ _ _)

theorem lexFragment_code (code : String) : significant (lexFragment code) = codeTokens none code.toList := rfl

@[simp] theorem codeTokens_nil (last : Option Kind) : codeTokens last [] = [] := by
  rw [codeTokens, steps_nil]
  rfl

theorem codeTokens_cons (hnext : (phpLexeme last c cs).next = .php) :
    codeTokens last (c :: cs) = if (phpLexeme last c cs).kind.isTrivia
      then codeTokens last ((c :: cs).drop (phpLexeme last c cs).length)
      else ⟨(phpLexeme last c cs).kind, .ofList ((c :: cs).take (phpLexeme last c cs).length)⟩
        :: codeTokens (some (phpLexeme last c cs).kind) ((c :: cs).drop (phpLexeme last c cs).length) := by
  have hlex : lexeme .php last c cs = phpLexeme last c cs := rfl
  unfold codeTokens
  rw [tokens_steps_cons, hlex, hnext, significant_cons]
  show (if (phpLexeme last c cs).kind.isTrivia then _ else _) = _
  by_cases htriv : (phpLexeme last c cs).kind.isTrivia
  · rw [if_pos htriv, if_pos htriv, if_pos htriv]
  · rw [if_neg htriv, if_neg htriv, if_neg htriv]

theorem codeTokens_code {rest : List Char} {k : Kind}
    (h : phpLexeme last c (w ++ rest) = .code k w.length []) (hk : k.isTrivia = false) :
    codeTokens last (c :: (w ++ rest)) = ⟨k, .ofList (c :: w)⟩ :: codeTokens (some k) rest := by
  have hlen : (Lexeme.code k w.length []).length = w.length + 1 := Nat.add_comm 1 w.length
  rw [codeTokens_cons (by rw [h]; rfl), h, hlen, take_succ_cons, drop_succ_cons, take_left, drop_left]
  show (if k.isTrivia then _ else _) = _
  rw [hk]
  rfl

theorem codeTokens_trivia (h : phpLexeme last c (w ++ rest) = .code k w.length []) (hk : k.isTrivia) :
    codeTokens last (c :: (w ++ rest)) = codeTokens last rest := by
  have hlen : (Lexeme.code k w.length []).length = w.length + 1 := Nat.add_comm 1 w.length
  rw [codeTokens_cons (by rw [h]; rfl), h, hlen, drop_succ_cons, drop_left]
  show (if k.isTrivia then _ else _) = _
  rw [hk]
  rfl

/-! ## §2. Blanks and comments. -/

theorem phpLexeme_blank (h : isBlank c) (last : Option Kind) (cs : List Char) :
    phpLexeme last c cs = .code .whitespace (run isBlank cs) [] := by
  simp [phpLexeme, phpRules, whitespaceRule, h]

theorem codeTokens_dropBlanks (last : Option Kind) (cs : List Char) :
    codeTokens last (cs.dropWhile isBlank) = codeTokens last cs := by
  cases cs with
  | nil => rfl
  | cons c cs =>
    by_cases hc : isBlank c
    · rw [dropWhile_cons_of_pos hc]
      have hsplit : cs.takeWhile isBlank ++ cs.dropWhile isBlank = cs := takeWhile_append_dropWhile
      have htriv : codeTokens last (c :: (cs.takeWhile isBlank ++ cs.dropWhile isBlank))
          = codeTokens last (cs.dropWhile isBlank) := by
        refine codeTokens_trivia (k := .whitespace) ?_ rfl
        rw [hsplit, phpLexeme_blank hc]
        rfl
      rw [← htriv, hsplit]
    · rw [dropWhile_cons_of_neg hc]

theorem codeTokens_blank {b : Char} (hb : isBlank b) (last : Option Kind) (cs : List Char) :
    codeTokens last (b :: cs) = codeTokens last cs := by
  rw [← codeTokens_dropBlanks last (b :: cs), dropWhile_cons_of_pos hb, codeTokens_dropBlanks]

theorem codeTokens_blanks (hb : ∀ b ∈ bs, isBlank b) (last : Option Kind) (cs : List Char) :
    codeTokens last (bs ++ cs) = codeTokens last cs := by
  induction bs with
  | nil => rfl
  | cons b bs ih =>
    rw [cons_append, codeTokens_blank (hb b mem_cons_self), ih (forall_mem_cons.mp hb).2]

theorem codeTokens_comment {body : List Char} (h : commentEnd? 1 body = some (1 + body.length)) (last : Option Kind)
    (rest : List Char) : codeTokens last ('/' :: '*' :: (body ++ rest)) = codeTokens last rest := by
  obtain ⟨k, hk, hlex⟩ := phpLexeme_comment h last rest
  refine codeTokens_trivia (w := '*' :: body) (k := k) ?_ (by rcases hk with rfl | rfl <;> rfl)
  rw [cons_append, hlex, length_cons, Nat.add_comm]

/-! ## §3. Names and variables. -/

theorem nameRun_of_all (hw : ∀ x ∈ w, isNamePart x) (hrest : nameRun rest = 0) : nameRun (w ++ rest) = w.length := by
  induction w with
  | nil => exact hrest
  | cons c w ih =>
    rw [cons_append, nameRun, if_pos (by rw [hw c mem_cons_self]; rfl),
      ih (forall_mem_cons.mp hw).2, length_cons]

theorem phpLexeme_nameStart (hc : isNameStart c) (last : Option Kind) (cs : List Char) :
    phpLexeme last c cs = .code (if (c :: cs.take (nameRun cs)).contains '\\' then .qualifiedName
      else wordKind last (.ofList (c :: cs.take (nameRun cs)))) (nameRun cs) [] :=
  phpLexeme_rule (show nameRule ∈ wordRules by simp [wordRules]) (by simp [nameRule, hc])

theorem not_mem_backslash (hw : ∀ x ∈ w, isNamePart x) : '\\' ∉ w := fun hmem =>
  absurd (hw '\\' hmem) (by decide)

/-- **A word** is read up to where it ends, and the last kind decides whether it is reserved. -/
theorem codeTokens_word {rest : List Char} (hc : isNameStart c)
    (hw : ∀ x ∈ w, isNamePart x) (hrest : nameRun rest = 0) :
    codeTokens last (c :: (w ++ rest)) = ⟨wordKind last (.ofList (c :: w)), .ofList (c :: w)⟩
      :: codeTokens (some (wordKind last (.ofList (c :: w)))) rest := by
  have hslash : (c :: w).contains '\\' = false := by
    rw [contains_eq_mem, decide_eq_false_iff_not]
    refine not_mem_backslash fun x hx => ?_
    rcases mem_cons.mp hx with rfl | hx
    · exact namePart_of_start hc
    · exact hw x hx
  refine codeTokens_code ?_ ?_
  · rw [phpLexeme_nameStart hc, nameRun_of_all hw hrest, take_left, hslash]
    rfl
  · rcases wordKind_cases last (.ofList (c :: w)) with hk | ⟨k, hk⟩ <;> rw [hk] <;> rfl

theorem codeTokens_identifier {name : String} {rest : List Char} (hname : isIdentifier name.toList)
    (hrest : nameRun rest = 0) (last : Option Kind) : codeTokens last (name.toList ++ rest)
      = ⟨wordKind last name, name⟩ :: codeTokens (some (wordKind last name)) rest := by
  obtain ⟨hstart, hall⟩ := isIdentifier_iff.mp hname
  obtain ⟨c, w, hcw, hc⟩ := cons_of_nextIs hstart
  rw [← String.ofList_toList (s := name), hcw, String.toList_ofList]
  exact codeTokens_word hc (fun x hx => hall x (by rw [hcw]; exact mem_cons_of_mem c hx)) hrest

theorem codeTokens_variable {name rest : List Char} (hname : isIdentifier name)
    (hrest : nextIs isNamePart rest = false) :
    codeTokens last ('$' :: (name ++ rest)) = ⟨.variableName, .ofList ('$' :: name)⟩
      :: codeTokens (some .variableName) rest := by
  obtain ⟨hstart, hall⟩ := isIdentifier_iff.mp hname
  have hnext : nextIs isNameStart (name ++ rest) := by
    obtain ⟨c, w, rfl, hc⟩ := cons_of_nextIs hstart
    exact hc
  refine codeTokens_code (phpLexeme_rule (show dollarRule ∈ wordRules by simp [wordRules]) ?_) rfl
  simp [dollarRule, hnext, run_of_all hall hrest]

theorem codeTokens_arrow (last : Option Kind) (rest : List Char) :
    codeTokens last ('-' :: '>' :: rest) = ⟨.arrow, "->"⟩ :: codeTokens (some .arrow) rest :=
  codeTokens_code (w := ['>']) (k := .arrow) (by rfl) rfl

/-- The marks that stand for themselves, whatever follows. -/
def soleMark? : Char → Option Kind
  | ',' => some .comma
  | ';' => some .semicolon
  | '(' => some .leftParen
  | ')' => some .rightParen
  | '\x7b' => some .leftBrace
  | '\x7d' => some .rightBrace
  | _ => none

theorem codeTokens_mark (h : soleMark? c = some k) (last : Option Kind) (rest : List Char) :
    codeTokens last (c :: rest) = ⟨k, .ofList [c]⟩ :: codeTokens (some k) rest := by
  unfold soleMark? at h
  split at h
  case h_7 => cases h
  all_goals
    cases h
    exact codeTokens_code (w := []) (by rfl) rfl

theorem phpLexeme_separator (last : Option Kind) (h : nextIs isNameStart cs) :
    phpLexeme last '\\' cs = .code .qualifiedName (nameRun cs) [] :=
  phpLexeme_rule (show nameRule ∈ wordRules by simp [wordRules]) (by simp [nameRule, h])

theorem phpLexeme_loneSeparator (last : Option Kind) (h : nextIs isNameStart cs = false) :
    phpLexeme last '\\' cs = .code .operator 0 [] := by
  rw [phpLexeme_not_word (by simp [beginsWord, isBlank, isNameStart, openingFrame?, h])]
  rfl

theorem codeTokens_separator (last : Option Kind) (cs : List Char) : ∃ k text rest,
    codeTokens last ('\\' :: cs) = ⟨k, text⟩ :: rest ∧ (k = .qualifiedName ∨ k = .operator) := by
  have hsoft := phpLexeme_soft last cs (c := '\\') (by decide)
  have hkind : (phpLexeme last '\\' cs).kind = .qualifiedName ∨ (phpLexeme last '\\' cs).kind = .operator := by
    cases hnext : nextIs isNameStart cs with
    | true => exact .inl (by rw [phpLexeme_separator last hnext]; rfl)
    | false => exact .inr (by rw [phpLexeme_loneSeparator last hnext]; rfl)
  rw [codeTokens_cons hsoft.stays, if_neg]
  · exact ⟨_, _, _, rfl, hkind⟩
  · rcases hkind with hkind | hkind <;> rw [hkind] <;> decide

/-! ## §4. Inner characters and delimiters. -/

theorem Starts.le_of_delimiter {n : Nat} {y : List Char} (h : Starts isInner n (x ++ d :: y))
    (hd : isInner d = false) : n ≤ x.length := by
  by_contra hlt
  have hmem : d ∈ (x ++ d :: y).take n := by
    rw [take_append, show n - x.length = (n - x.length - 1) + 1 by omega, take_succ_cons]
    exact mem_append_right _ mem_cons_self
  rw [h d hmem] at hd
  cases hd

/-! ## §5. Reading up to a delimiter. -/

theorem InertText.rest_of_soft {x y : List Char} {ks : List Kind} {d : Char} {last : Option Kind}
    (hx : InertText (c :: x) ks) (hc : isSoft c) (hblank : isBlank c = false) (hd : isInner d = false) :
    ∃ w x', c :: x = c :: (w ++ x') ∧ InertText x' ks
      ∧ (phpLexeme last c (x ++ d :: y)).length = w.length + 1 := by
  have hinner := @phpLexeme_inner last _ (x ++ d :: y) hc hblank
  have hle := hinner.le_of_delimiter hd
  have hpos := (phpLexeme last c (x ++ d :: y)).length_pos
  refine ⟨x.take ((phpLexeme last c (x ++ d :: y)).length - 1), x.drop ((phpLexeme last c (x ++ d :: y)).length - 1),
    by rw [take_append_drop], ?_, ?_⟩
  · -- what the token takes is soft, so inert text is left
    have hsoft := (phpLexeme_soft last (x ++ d :: y) hc).soft
    have hpre : Starts isSoft (phpLexeme last c (x ++ d :: y)).length (c :: x) := by
      intro z hz
      refine hsoft z ?_
      rw [← cons_append, take_append_of_le_length]
      · exact hz
      · rw [length_cons]
        omega
    have hdrop := hx.drop_soft hpre
    rwa [show (phpLexeme last c (x ++ d :: y)).length = (phpLexeme last c (x ++ d :: y)).length - 1 + 1 by omega,
      drop_succ_cons] at hdrop
  · rw [length_take]
    omega

/-- **Inert text is read up to a delimiter without looking behind it**: its tokens come first. -/
theorem codeTokens_split (hx : InertText x ks) (last : Option Kind) (hd : isInner d = false) (y : List Char) :
    ∃ ts last', codeTokens last (x ++ d :: y) = ts ++ codeTokens last' (d :: y) := by
  induction hn : x.length using Nat.strongRecOn generalizing x ks last with
  | ind n ih =>
    cases hx with
    | nil => exact ⟨[], last, rfl⟩
    | @soft c cs ks hsoft rest =>
      by_cases hblank : isBlank c
      · rw [cons_append, codeTokens_blank hblank]
        exact ih cs.length (by rw [← hn, length_cons]; omega) rest last rfl
      · rw [Bool.not_eq_true] at hblank
        obtain ⟨w, x', hsplit, hrest, hlen⟩ :=
          @InertText.rest_of_soft _ _ y _ _ last (InertText.soft hsoft rest) hsoft hblank hd
        obtain rfl : cs = w ++ x' := (cons.inj hsplit).2
        have hshort : x'.length < n := by
          rw [← hn, length_cons, length_append]
          omega
        have hstays := (phpLexeme_soft last ((w ++ x') ++ d :: y) hsoft).stays
        have hdrop : (c :: ((w ++ x') ++ d :: y)).drop (phpLexeme last c ((w ++ x') ++ d :: y)).length
          = x' ++ d :: y := by
          rw [hlen, drop_succ_cons, append_assoc, drop_left]
        rw [cons_append, codeTokens_cons hstays, hdrop]
        split
        · exact ih _ hshort hrest last rfl
        · obtain ⟨ts, last', hts⟩ := ih _ hshort hrest (some (phpLexeme last c ((w ++ x') ++ d :: y)).kind) rfl
          rw [hts]
          exact ⟨_ :: ts, last', rfl⟩
    | @bracket c k cs ks hbr rest =>
      obtain ⟨hlex, -, -⟩ := phpLexeme_bracket hbr last (cs ++ d :: y)
      have htriv : k.isTrivia = false := by
        rw [← Bool.not_eq_true]
        intro h
        have := marks_of_bracket? hbr
        rw [Kind.marks_of_isPlain (Kind.isPlain_trivia h)] at this
        cases this
      have hcode : codeTokens last (c :: (cs ++ d :: y)) = ⟨k, .ofList [c]⟩ :: codeTokens (some k) (cs ++ d :: y) :=
        codeTokens_code (w := []) hlex htriv
      obtain ⟨ts, last', hts⟩ := ih cs.length (by rw [← hn, length_cons]; omega) rest (some k) rfl
      rw [cons_append, hcode, hts]
      exact ⟨_ :: ts, last', rfl⟩
    | @comment body cs ks ends rest =>
      rw [cons_append, cons_append, append_assoc, codeTokens_comment ends]
      refine ih cs.length ?_ rest last rfl
      rw [← hn, length_cons, length_cons, length_append]
      omega

theorem codeTokens_last (hx : InertText x ks)
    (hd : soleMark? d = some k) (hbs : ∀ b ∈ bs, isBlank b) (last : Option Kind) :
    ∃ ts, codeTokens last (x ++ d :: bs) = ts ++ [⟨k, .ofList [d]⟩] := by
  have hinner : isInner d = false := by
    unfold soleMark? at hd
    split at hd
    case h_7 => cases hd
    all_goals decide
  obtain ⟨ts, last', hts⟩ := codeTokens_split hx last hinner bs
  have hnone : codeTokens (some k) bs = [] := by
    have := codeTokens_blanks hbs (some k) []
    rwa [append_nil, codeTokens_nil] at this
  rw [hts, codeTokens_mark hd, hnone]
  exact ⟨ts, rfl⟩

/-! ## §6. Double colons. -/

theorem phpLexeme_doubleColon (h : (phpLexeme last c cs).kind = .doubleColon) : c = ':' := by
  have hops : ∀ o ∈ operators, o.kind = .doubleColon → o.first = ':' := by decide
  have hspec := phpLexeme_spec last c cs
  generalize phpLexeme last c cs = l at hspec h
  cases hspec with
  | blockComment hkind | openComment hkind => rcases hkind with rfl | rfl <;> cases h
  | name hkind => cases hkind <;> cases h
  | operator ho hfst => exact hfst ▸ hops _ ho h
  | _ => cases h

theorem doubleColon_not_mem {code : String} (h : ':' ∉ code.toList) : ∀ t ∈ lexFragment code, t.kind ≠ .doubleColon := by
  have key : ∀ (mode : Mode) (last : Option Kind) (offset : Nat) (cs : List Char), ':' ∉ cs →
      ∀ st ∈ steps mode last offset cs, st.token.kind ≠ .doubleColon := by
    intro mode last offset cs
    fun_induction steps mode last offset cs with
    | case1 => exact fun _ st hst => by cases hst
    | case2 mode last offset c cs l chars seen ih =>
      intro hcolon st hst
      rcases mem_cons.mp hst with rfl | hst
      · intro hkind
        change l.kind = .doubleColon at hkind
        cases mode with
        | php => exact hcolon (phpLexeme_doubleColon hkind ▸ mem_cons_self)
        | html =>
          change (htmlLexeme c cs).kind = .doubleColon at hkind
          have hmode := (lexeme_inMode .html last c cs).1
          change (htmlLexeme c cs).kind.mode = .html at hmode
          rw [hkind] at hmode
          cases hmode
      · exact ih (fun hmem => hcolon (mem_of_mem_drop hmem)) st hst
  intro t ht
  obtain ⟨st, hst, rfl⟩ := List.mem_map.mp ht
  exact key .php none 0 code.toList h st hst

end MageUplift.Php
