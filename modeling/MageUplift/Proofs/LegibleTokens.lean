import MageUplift.Proofs.TokenRereading

/-!
# Legible tokens

Tokens are legible when reading their texts one after the other gives them back, up to blanks that run together.
A file is legible, and so is every piece of generated code. What a batch of edits makes of legible tokens is legible
if each piece of new code fits where it goes (`Fits`) and each token in front of one is free of it
(`Token.Frees`, `Seam`).
-/

namespace MageUplift.Php

open List Option

variable {code : String} {ks : List Kind} {mode : Mode} {t : Token} {last : Option Kind}
variable {ρ ρ₀ : List Char} {rest ts : List Token} {i : Nat} {u : Token}

/-! ## §1. Legible tokens. -/

def seenAfter (last : Option Kind) (t : Token) : Option Kind := if t.isTrivia then last else some t.kind

/-- A list goes on behind this kind. -/
def isListOpen (last : Option Kind) : Bool := last == some .leftParen || last == some .comma

/-- Every token is read in front of those behind it, in the mode and the context in which those in front leave the
reader. Blanks may run together. No close tag stands where a list goes on: new items go there. -/
inductive Legible : Mode → Option Kind → List Token → Prop where
  | nil (mode : Mode) (last : Option Kind) : Legible mode last []
  | blank {last : Option Kind} {t : Token} {rest : List Token} (kind : t.kind = .whitespace)
      (text : ∀ x ∈ t.text.toList, isBlank x = true) (tail : Legible .php last rest) : Legible .php last (t :: rest)
  | token {mode : Mode} {last : Option Kind} {t : Token} {rest : List Token} (kind : t.kind ≠ .whitespace)
      (inMode : t.kind.mode = mode) (read : t.ReadAfter last (charsOf rest))
      (settled : t.isSettled (charsOf rest) = true) (tag : t.kind = .closeTag → isListOpen last = false)
      (tail : Legible t.kind.nextMode (seenAfter last t) rest) : Legible mode last (t :: rest)

/-- What the text behind each token could change is settled, and no close tag stands where a list goes on. -/
def areSettled (last : Option Kind) : List Token → Bool
  | [] => true
  | t :: rest =>
    t.isSettled (charsOf rest) && !(t.kind == .closeTag && isListOpen last) && areSettled (seenAfter last t) rest

theorem Token.ReadAfter.tokens (h : t.ReadAfter last ρ) (offset : Nat) :
    (steps t.kind.mode last offset (t.text.toList ++ ρ)).map LexStep.token
      = t :: (steps t.kind.nextMode (seenAfter last t) 0 ρ).map LexStep.token := by
  obtain ⟨c, w, htext, hkind, hlen⟩ := h
  have hnext := (lexeme_inMode t.kind.mode last c (w ++ ρ)).2
  rw [htext, cons_append, tokens_steps_cons, hlen, take_succ_cons, drop_succ_cons, take_left,
    drop_left, hnext, hkind, ← htext, String.ofList_toList]
  rfl

theorem Token.ReadAfter.php (h : t.ReadAfter last ρ) (hmode : t.kind.mode = .php) :
    ∃ c w, t.text.toList = c :: w ∧ (phpLexeme last c (w ++ ρ)).kind = t.kind
      ∧ (phpLexeme last c (w ++ ρ)).length = w.length + 1 := by
  obtain ⟨c, w, htext, hkind, hlen⟩ := h
  rw [hmode] at hkind hlen
  exact ⟨c, w, htext, hkind, hlen⟩

theorem Legible.head_mode (h : Legible mode last (t :: rest)) :
    t.kind.mode = mode ∧ Legible t.kind.nextMode (seenAfter last t) rest := by
  cases h with
  | blank kind text tail =>
    rw [seenAfter, Token.isTrivia, kind]
    exact ⟨rfl, tail⟩
  | token kind inMode read settled tag tail => exact ⟨inMode, tail⟩

theorem Legible.lineCommentRun_eq_zero
    (h : Legible .php last (t :: rest)) (htext : t.text.toList ≠ []) (hrun : lineCommentRun 0 (charsOf (t :: rest)) = 0)
    (ρ : List Char) : lineCommentRun 0 (t.text.toList ++ ρ) = 0 := by
  rw [charsOf_cons] at hrun
  cases h with
  | blank kind text tail =>
    obtain ⟨c, w, hcw⟩ := exists_cons_of_ne_nil htext
    have hc : (c == '?') = false := by
      rw [beq_eq_false_iff_ne]
      rintro rfl
      have := text '?' (by rw [hcw]; exact mem_cons_self)
      cases this
    rw [hcw, cons_append, lineCommentRun, hc, Bool.false_and, Bool.or_false] at hrun ⊢
    split at hrun
    · rename_i hbreak
      rw [if_pos hbreak]
    · rw [lineCommentRun_add] at hrun
      omega
  | token kind inMode read settled tag tail =>
    obtain ⟨c, w, hcw, -, hlen⟩ := read
    rw [inMode] at hlen
    rw [hcw] at hrun ⊢
    exact lineCommentRun_of_lexeme hlen hrun ρ

/-- **Legible tokens are the significant tokens of their text.** -/
theorem Legible.significant_eq (h : Legible mode last ts) :
    significant ((steps mode last 0 (charsOf ts)).map LexStep.token) = significant ts := by
  induction h with
  | nil mode last => rw [charsOf_nil, steps_nil]; rfl
  | @blank last t rest kind text tail ih =>
    have hblanks := codeTokens_blanks text last (charsOf rest)
    unfold codeTokens at hblanks
    rw [charsOf_cons, hblanks, ih, significant_cons, if_pos (by rw [Token.isTrivia, kind]; rfl)]
  | @token mode last t rest kind inMode read settled tag tail ih =>
    rw [charsOf_cons, ← inMode, read.tokens, significant_cons, significant_cons, ih]

def markKinds : List Kind :=
  [.comma, .semicolon, .leftParen, .rightParen, .leftBrace, .rightBrace]

theorem phpLexeme_trivia {c : Char} {cs : List Char} (h : (phpLexeme last c cs).kind.isTrivia) :
    (isBlank c ∧ (phpLexeme last c cs).kind = .whitespace)
      ∨ ((c = '/' ∨ c = '#') ∧ (phpLexeme last c cs).kind ≠ .whitespace) := by
  have hops : ∀ o ∈ operators, o.kind.isTrivia ≠ true := by decide
  have hspec := phpLexeme_spec last c cs
  generalize phpLexeme last c cs = l at hspec h ⊢
  cases hspec with
  | blanks hblank => exact .inl ⟨hblank, rfl⟩
  | lineComment hc => exact .inr ⟨hc.imp (·.1) (·.1), nofun⟩
  | blockComment hkind hc | openComment hkind hc => exact .inr ⟨.inl hc, by rcases hkind with rfl | rfl <;> exact nofun⟩
  | name hkind => cases hkind <;> cases h
  | operator ho => exact absurd h (hops _ ho)
  | _ => cases h

theorem Token.ReadAfter.mark (h : t.ReadAfter last ρ)
    (hkind : t.kind ∈ markKinds) : ∃ c, t.text.toList = [c] ∧ soleMark? c = some t.kind := by
  have hmode : ∀ k ∈ markKinds, k.mode = .php := by decide
  obtain ⟨c, w, htext, hk, hlen⟩ := h.php (hmode t.kind hkind)
  rw [← hk] at hkind ⊢
  have hops : ∀ o ∈ operators, o.kind ∈ markKinds → o.others = [] ∧ soleMark? o.first = some o.kind := by decide
  have hspec := phpLexeme_spec last c (w ++ ρ)
  generalize phpLexeme last c (w ++ ρ) = l at hspec hkind hlen ⊢
  cases hspec with
  | @operator o ho hfst =>
    obtain ⟨hothers, hmark⟩ := hops o ho hkind
    change 1 + o.others.length = w.length + 1 at hlen
    rw [hothers] at hlen
    obtain rfl : w = [] := length_eq_zero_iff.mp (by simpa using hlen.symm)
    exact ⟨c, htext, hfst ▸ hmark⟩
  | blockComment hk | openComment hk => rcases hk with rfl | rfl <;> simp [Lexeme.code, markKinds] at hkind
  | name hk => cases hk <;> simp [Lexeme.code, markKinds] at hkind
  | _ => simp [Lexeme.code, stringLexeme, markKinds] at hkind

/-- **The tokens of a text are legible**, if they are settled. -/
theorem steps_legible {offset : Nat} {cs : List Char}
    (h : areSettled last ((steps mode last offset cs).map LexStep.token)) :
    Legible mode last ((steps mode last offset cs).map LexStep.token) := by
  fun_induction steps mode last offset cs with
  | case1 => exact .nil _ _
  | case2 mode last offset c cs l chars seen ih =>
    obtain ⟨hmode, hnext⟩ := lexeme_inMode mode last c cs
    rw [map_cons, areSettled, Bool.and_eq_true, Bool.and_eq_true, Bool.not_eq_true', Bool.and_eq_false_iff,
      beq_eq_false_iff_ne] at h
    have htail := ih h.2
    rw [map_cons]
    by_cases hblank : l.kind = .whitespace
    · -- blanks are read in code only
      obtain rfl : mode = .php := by
        rw [← show l.kind.mode = mode from hmode, hblank]
        rfl
      have hc : isBlank c := by
        rcases @phpLexeme_trivia last c cs (by rw [show (phpLexeme last c cs).kind = _ from hblank]; rfl) with h | h
        · exact h.1
        · exact absurd hblank h.2
      have hl : l = .code .whitespace (run isBlank cs) [] := phpLexeme_blank hc last cs
      refine .blank hblank (fun x hx => ?_) ?_
      · have hchars : x ∈ (c :: cs).take l.length := by rwa [String.toList_ofList] at hx
        have hlen : l.length = run isBlank cs + 1 := by
          rw [hl]
          exact Nat.add_comm _ _
        rw [hlen, take_succ_cons, mem_cons] at hchars
        rcases hchars with rfl | hmem
        · exact hc
        · rw [run, ← prefix_iff_eq_take.mp (List.takeWhile_prefix isBlank)] at hmem
          exact List.all_eq_true.mp all_takeWhile x hmem
      · have hseen : seen = last := by
          show (if l.kind.isTrivia then last else some l.kind) = last
          rw [hblank]
          rfl
        have hphp : l.next = .php := by
          rw [hl]
          rfl
        rw [hseen, hphp] at htail ⊢
        exact htail
    · obtain ⟨w, hw, hrest, hlen⟩ := exists_take_lexeme mode last c cs
      refine .token hblank hmode ⟨c, w, String.toList_ofList.trans hw, ?_⟩ h.1.1
        (fun hk => h.1.2.resolve_left fun hne => hne hk) ?_
      · rw [charsOf_steps, hrest]
        show (lexeme l.kind.mode last c cs).kind = l.kind ∧ (lexeme l.kind.mode last c cs).length = _
        rw [show l.kind.mode = mode from hmode]
        exact ⟨rfl, hlen⟩
      · show Legible l.kind.nextMode seen _
        rw [← show l.next = l.kind.nextMode from hnext]
        exact htail

/-! ## §2. Contexts. -/

def Token.isContextual (t : Token) : Bool := t.kind.isWord && (Keyword.ofWord? t.text).isSome

theorem wordKind_of_not_reserved {word : String} (h : Keyword.ofWord? word = none) (last : Option Kind) :
    wordKind last word = .identifier := by
  unfold wordKind
  rw [h]
  simp only [map_none, getD_none]
  split <;> first | rfl | (split <;> rfl)

theorem Token.ReadAfter.of_not_contextual (h : t.ReadAfter last ρ)
    (ht : t.isContextual = false) (last' : Option Kind) : t.ReadAfter last' ρ := by
  obtain ⟨c, w, htext, hkind, hlen⟩ := h
  suffices hlike : (lexeme t.kind.mode last c (w ++ ρ)).Like (lexeme t.kind.mode last' c (w ++ ρ)) from
    ⟨c, w, htext, hlike.1.trans hkind, hlike.2.trans hlen⟩
  cases hmode : t.kind.mode with
  | html => exact ⟨rfl, rfl⟩
  | php =>
    rw [hmode] at hkind hlen
    change (phpLexeme last c (w ++ ρ)).kind = t.kind at hkind
    change (phpLexeme last c (w ++ ρ)).length = w.length + 1 at hlen
    show (phpLexeme last c (w ++ ρ)).Like (phpLexeme last' c (w ++ ρ))
    by_cases hguard : (isNameStart c || (c == '\\' && nextIs isNameStart (w ++ ρ)))
    · -- a name: only a reserved word depends on the context
      have hrule : ∀ k, nameRule k c (w ++ ρ) = some (.code (if (c :: (w ++ ρ).take (nameRun (w ++ ρ))).contains '\\'
          then .qualifiedName else wordKind k (.ofList (c :: (w ++ ρ).take (nameRun (w ++ ρ))))) (nameRun (w ++ ρ)) []) :=
        fun k => if_pos hguard
      have hmem : nameRule ∈ wordRules := by simp [wordRules]
      rw [phpLexeme_rule hmem (hrule last)] at hkind hlen ⊢
      rw [phpLexeme_rule hmem (hrule last')]
      have hrun : nameRun (w ++ ρ) = w.length := by
        have : 1 + nameRun (w ++ ρ) = w.length + 1 := hlen
        omega
      rw [hrun, take_left, ← htext, String.ofList_toList] at hkind ⊢
      refine ⟨?_, rfl⟩
      show (if _ then _ else wordKind last' t.text) = if _ then _ else wordKind last t.text
      by_cases hslash : t.text.toList.contains '\\'
      · rw [if_pos hslash, if_pos hslash]
      · rw [if_neg hslash, if_neg hslash]
        have hword : t.kind.isWord := by
          rw [← hkind]
          show (if _ then _ else wordKind last t.text).isWord = true
          rw [if_neg hslash]
          rcases wordKind_cases last t.text with hk | ⟨k, hk⟩ <;> rw [hk] <;> rfl
        rw [Token.isContextual, hword, Bool.true_and, isSome_eq_false_iff, isNone_iff_eq_none] at ht
        rw [wordKind_of_not_reserved ht, wordKind_of_not_reserved ht]
    · have hname : ∀ k, nameRule k c (w ++ ρ) = none := fun k => if_neg hguard
      have hsame : phpLexeme last' c (w ++ ρ) = phpLexeme last c (w ++ ρ) := by
        unfold phpLexeme phpRules
        simp only [findSome?_cons, hname]
        rfl
      rw [hsame]
      exact ⟨rfl, rfl⟩

theorem Token.isContextual_of_isTrivia (h : t.isTrivia) : t.isContextual = false := by
  have hkinds : ∀ k : Kind, k.isTrivia → k.isWord = false := by
    intro k hk
    cases k <;> first | rfl | cases hk
  rw [Token.isContextual, hkinds t.kind h]
  rfl

theorem Legible.of_context {last' : Option Kind} (h : Legible mode last ts) (hctx : contextOf last' = contextOf last
      ∨ ∀ t, TokenStream.firstCode ts = some t → t.isContextual = false)
    (htags : ∀ t ∈ ts, t.kind ≠ .closeTag) : Legible mode last' ts := by
  induction h generalizing last' with
  | nil => exact .nil _ _
  | @blank last t rest kind text tail ih =>
    refine .blank kind text (ih (hctx.imp_right fun hfst u hu => hfst u ?_)
      (forall_mem_cons.mp htags).2)
    rw [TokenStream.firstCode, find?_cons_of_neg (by rw [Token.isTrivia, kind]; decide)]
    exact hu
  | @token mode last t rest kind inMode read settled tag tail ih =>
    have hread : t.ReadAfter last' (charsOf rest) := by
      rcases hctx with hsame | hfst
      · exact read.of_context hsame
      · by_cases htriv : t.isTrivia
        · exact read.of_not_contextual (Token.isContextual_of_isTrivia htriv) last'
        · refine read.of_not_contextual (hfst t ?_) last'
          exact find?_cons_of_pos (by simpa using htriv)
    refine .token kind inMode hread settled (fun hk => absurd hk (htags t mem_cons_self)) ?_
    unfold seenAfter at ih tail ⊢
    by_cases htriv : t.isTrivia
    · rw [if_pos htriv] at ih ⊢
      refine ih (hctx.imp_right fun hfst u hu => hfst u ?_) (forall_mem_cons.mp htags).2
      rw [TokenStream.firstCode, find?_cons_of_neg (by simpa using htriv)]
      exact hu
    · rw [if_neg htriv] at ih tail ⊢
      exact tail

theorem foldl_seenAfter (last : Option Kind) (ts : List Token) :
    ts.foldl seenAfter last = ((significant ts).getLast?.map Token.kind).or last := by
  induction ts generalizing last with
  | nil => rfl
  | cons t ts ih =>
    rw [foldl_cons, ih, significant_cons, seenAfter]
    by_cases htriv : t.isTrivia
    · rw [if_pos htriv, if_pos htriv]
    · rw [if_neg htriv, if_neg htriv, getLast?_cons]
      cases (significant ts).getLast? <;> rfl

theorem seen_of_between {items : List Token} {p : Nat} (hpi : p < i) (hp : items[p]? = some u)
    (hsig : u.isTrivia = false) (hbtw : ∀ m v, p < m → m < i → items[m]? = some v → v.isTrivia)
    (last : Option Kind) : (items.take i).foldl seenAfter last = some u.kind := by
  have hlast : (significant (items.take i)).getLast? = some u := by
    refine getLast?_significant (q := p) (by rwa [getElem?_take_of_lt hpi]) hsig fun m v hpm hv => ?_
    have hmi : m < i := by
      have := lt_getElem? hv
      rw [length_take] at this
      omega
    rw [getElem?_take_of_lt hmi] at hv
    exact hbtw m v hpm hmi hv
  rw [foldl_seenAfter, hlast]
  rfl

theorem Legible.at {items : List Token} (h : Legible mode last items) (ht : items[i]? = some t) :
    Legible t.kind.mode ((items.take i).foldl seenAfter last) (t :: items.drop (i + 1)) := by
  induction i generalizing mode last items with
  | zero =>
    cases items with
    | nil => cases ht
    | cons x rest =>
      cases ht
      rw [h.head_mode.1]
      exact h
  | succ i ih =>
    cases items with
    | nil => cases ht
    | cons x rest => exact ih h.head_mode.2 ht

theorem Legible.after_lineComment
    (h : Legible mode last (t :: u :: rest)) (ht : t.isLineComment) : u.kind = .whitespace ∨ u.kind = .closeTag := by
  have htail := h.head_mode.2
  rw [nextMode_lineComment ht] at htail
  cases h with
  | blank kind text tail =>
    rw [Token.isLineComment, kind] at ht
    cases ht
  | token kind inMode read settled tag tail =>
    obtain ⟨c, w, htext, hkind, hlen⟩ := read
    have hrun := (Token.endsBefore_of_lexeme htext hkind hlen).comment ht
    cases htail with
    | blank kind text tail => exact .inl kind
    | token kind' inMode' read' =>
      obtain ⟨d, v, htext', hkind', -⟩ := read'.php inMode'
      rw [charsOf_cons, htext', cons_append] at hrun
      rw [← hkind']
      exact phpLexeme_of_lineCommentRun hrun _

/-! ## §3. Generated code. -/

/-- The tokens `g`, behind a token of kind `last`, can be put in front of the text `ρ`: they are read as they are, and
what follows is not read as the name of a member. -/
def Fits (last : Option Kind) (g : List Token) (ρ : List Char) : Prop :=
  ∀ last', contextOf last' = contextOf last ∨ contextOf last' = none →
    contextOf (g.foldl seenAfter last') = none
      ∧ ∀ rest, charsOf rest = ρ → Legible .php (g.foldl seenAfter last') rest → Legible .php last' (g ++ rest)

inductive Token.Form (t : Token) : Prop where
  | soft {c : Char} {w : List Char} (text : t.text.toList = c :: w) (soft : isSoft c = true)
      (trivia : t.isTrivia = true → t.kind = .whitespace)
  | bracket {c : Char} (text : t.text.toList = [c]) (bracket : bracket? c = some t.kind)
  | comment {body : List Char} (text : t.text.toList = '/' :: '*' :: body) (ends : body.getLast? = some '/')

theorem InertText.first_form {c : Char} {cs : List Char} {ks : List Kind} (h : InertText (c :: cs) ks)
    (last : Option Kind) :
    (⟨(phpLexeme last c cs).kind, .ofList ((c :: cs).take (phpLexeme last c cs).length)⟩ : Token).Form := by
  cases h with
  | soft hsoft rest =>
    obtain ⟨w, hw, -⟩ := exists_take_lexeme .php last c cs
    refine .soft (String.toList_ofList.trans hw) hsoft fun htriv => ?_
    rcases phpLexeme_trivia htriv with ⟨-, hk⟩ | ⟨hmark, -⟩
    · exact hk
    · rcases hmark with rfl | rfl <;> cases hsoft
  | @bracket _ k _ ks hbr rest =>
    obtain ⟨hlex, -, -⟩ := phpLexeme_bracket hbr last cs
    rw [hlex]
    exact .bracket String.toList_ofList hbr
  | @comment body rest _ ends htail =>
    obtain ⟨k, -, hlex⟩ := phpLexeme_comment ends last rest
    have htake : ('/' :: '*' :: (body ++ rest)).take (1 + (1 + body.length)) = '/' :: '*' :: body := by
      rw [Nat.add_comm, take_succ_cons, Nat.add_comm, take_succ_cons, take_left]
    rw [hlex]
    exact .comment ((String.toList_ofList).trans htake) (InertText.getLast?_of_commentEnd? ends)

theorem Token.Form.safe (h : t.Form) : t.text.toList ≠ ['<', '<'] ∧ t.isLineComment = false := by
  cases h with
  | @soft c w text soft trivia =>
    have hne : ∀ x ∈ ['<', '#', '/'], c ≠ x := by
      rintro x hx rfl
      have : ∀ x ∈ ['<', '#', '/'], isSoft x = false := by decide
      rw [this c hx] at soft
      cases soft
    simp only [mem_cons, not_mem_nil, or_false, forall_eq_or_imp, forall_eq] at hne
    refine ⟨fun heq => ?_, ?_⟩
    · rw [text] at heq
      exact hne.1 (cons.inj heq).1
    · unfold Token.isLineComment
      rw [text, Bool.and_eq_false_iff]
      right
      split
      · rename_i heq
        exact absurd (cons.inj heq).1 hne.2.1
      · rename_i heq
        exact absurd (cons.inj heq).1 hne.2.2
      · rfl
  | @bracket c text bracket =>
    refine ⟨by rw [text]; simp, ?_⟩
    unfold Token.isLineComment
    cases hk : t.kind <;> first | rfl | (rw [hk] at bracket; exact absurd (marks_of_bracket? bracket) (by decide))
  | @comment body text ends =>
    refine ⟨by rw [text]; simp, ?_⟩
    unfold Token.isLineComment
    rw [text, Bool.and_eq_false_iff]
    exact .inr rfl

theorem Token.Form.settled (h : t.Form) (hmode : t.kind.mode = .php) (ρ : List Char) : t.isSettled ρ := by
  have htag : t.kind ≠ .openTag := by
    intro hk
    rw [hk] at hmode
    cases hmode
  simp only [Token.isSettled, Token.takesFeed, Bool.and_eq_true, Bool.not_eq_true', Bool.and_eq_false_iff,
    beq_eq_false_iff_ne]
  exact ⟨.inl h.safe.1, .inl (.inl htag)⟩

theorem lexFragment_form (h : InertText code.toList ks) : ∀ t ∈ lexFragment code, t.Form := by
  intro t ht
  obtain ⟨st, hst, rfl⟩ := List.mem_map.mp ht
  exact (InertText.steps_forall (fun last h => h.first_form last) h none 0).1 st hst

theorem areSettled_of_forall (h : ∀ t ∈ ts, t.kind ≠ .closeTag ∧ ∀ ρ, t.isSettled ρ)
    (last : Option Kind) : areSettled last ts := by
  induction ts generalizing last with
  | nil => rfl
  | cons t ts ih =>
    obtain ⟨htag, hset⟩ := h t mem_cons_self
    rw [areSettled, hset, ih (forall_mem_cons.mp h).2, beq_eq_false_iff_ne.mpr htag]
    rfl

theorem lexFragment_no_tag (h : InertText code.toList ks) : ∀ t ∈ lexFragment code, t.kind ≠ .closeTag := by
  intro t ht hk
  have hnext := ((lexFragment_inert h).1 t ht).next
  rw [hk] at hnext
  cases hnext

theorem lexFragment_legible (h : InertText code.toList ks) : Legible .php none (lexFragment code) := by
  refine steps_legible (areSettled_of_forall (fun t ht => ⟨lexFragment_no_tag h t ht, fun ρ => ?_⟩) none)
  exact (lexFragment_form h t ht).settled ((lexFragment_inert h).1 t ht).mode ρ

theorem Legible.append {g : List Token} (h : Legible .php last g)
    (hmode : ∀ t ∈ g, t.kind.mode = .php ∧ t.kind.nextMode = .php)
    (hjoins : ∀ front t behind, g = front ++ t :: behind → t.kind ≠ .whitespace →
      t.Joins (charsOf behind) (charsOf behind ++ charsOf rest))
    (hrest : Legible .php (g.foldl seenAfter last) rest) : Legible .php last (g ++ rest) := by
  induction g generalizing last with
  | nil => exact hrest
  | cons t g ih =>
    have htail : Legible .php (seenAfter last t) g := by
      have := h.head_mode.2
      rwa [(hmode t mem_cons_self).2] at this
    have ih := ih htail (forall_mem_cons.mp hmode).2
      (fun front u behind hg => hjoins (t :: front) u behind (by rw [hg, cons_append])) hrest
    cases h with
    | blank kind text tail =>
      rw [seenAfter, Token.isTrivia, kind] at ih
      exact .blank kind text ih
    | token kind inMode read settled tag tail =>
      have hjoin := hjoins [] t g rfl kind
      rw [cons_append]
      refine .token kind inMode ?_ ?_ tag ?_
      · rw [charsOf_append]
        refine read.rejoin kind settled hjoin fun hk => ?_
        rw [hk] at inMode
        cases inMode
      · rw [charsOf_append]
        exact hjoin.isSettled settled
      · rw [(hmode t mem_cons_self).2]
        exact ih

theorem charsOf_ne_nil (hne : ts ≠ []) (htext : ∀ t ∈ ts, t.text.toList ≠ []) : charsOf ts ≠ [] := by
  obtain ⟨t, rest, rfl⟩ := exists_cons_of_ne_nil hne
  rw [charsOf_cons]
  exact fun hnil => htext t mem_cons_self (append_eq_nil_iff.mp hnil).1

/-- Only a name can go on behind tokens of the kind, or what they leave open. -/
def Kind.isClosed (k : Kind) : Bool :=
  decide (k ∉ signs) && decide (k ∉ [Kind.dollar, .number, .openTag]) && k.nextMode == .php

theorem Token.Frees.of_isClosed (hkind : t.kind.isClosed)
    (htext : t.text.toList ≠ ['\\'] ∧ t.text.toList ≠ ['<', '<']) (hline : t.isLineComment = false)
    (hencl : t.kind.isEnclosed → ρ₀ ≠ []) (hname : t.kind.isWord ∨ t.kind = .variableName ∨ t.kind = .heredoc →
      nextIs (fun c => isNamePart c || c == '\\') ρ = false) : t.Frees ρ₀ ρ := by
  simp only [Kind.isClosed, Bool.and_eq_true, decide_eq_true_eq, mem_cons, not_mem_nil, or_false, not_or,
    beq_iff_eq] at hkind
  obtain ⟨⟨hsign, hdollar, hnumber, htag⟩, hmode⟩ := hkind
  refine ⟨fun h => hname (.inl h), fun h => nextIs_false_of (fun c hc => by rw [hc]; rfl) (hname (.inr h)),
    fun h => (h.elim hdollar htext.1).elim, fun h => absurd h hnumber, fun h => (h.elim hsign htext.2).elim, fun h => ?_,
    fun h hnil => absurd hnil (hencl h), fun h => absurd h htag, fun h => absurd (kind_of_takesFeed h) htag, fun h => ?_⟩
  · rw [hline] at h
    cases h
  · rw [hmode] at h
    cases h

theorem Token.isLineComment_of_ne (h : t.kind ≠ .comment) : t.isLineComment = false := by
  rw [Token.isLineComment, beq_eq_false_iff_ne.mpr h]
  rfl

theorem Token.Frees.of_mark (hkind : t.kind ∈ markKinds) (htext : t.text.toList.length = 1)
    (hslash : t.text.toList ≠ ['\\']) (ρ₀ ρ : List Char) : t.Frees ρ₀ ρ := by
  have hall : ∀ k ∈ markKinds, k.isClosed ∧ k ≠ .comment ∧ ¬ k.isEnclosed
      ∧ ¬ (k.isWord ∨ k = .variableName ∨ k = .heredoc) := by decide
  obtain ⟨hclosed, hcom, hencl, hname⟩ := hall t.kind hkind
  refine .of_isClosed hclosed ⟨hslash, fun heq => ?_⟩ (isLineComment_of_ne hcom) (fun h => absurd h hencl)
    fun h => absurd h hname
  rw [heq] at htext
  cases htext

theorem Token.Frees.of_name (hkind : t.kind = .variableName ∨ t.kind = .identifier)
    (htext : t.text.toList ≠ ['\\'] ∧ t.text.toList ≠ ['<', '<'])
    (hρ : nextIs (fun c => isNamePart c || c == '\\') ρ = false) (ρ₀ : List Char) : t.Frees ρ₀ ρ := by
  have hall : ∀ k : Kind, k = .variableName ∨ k = .identifier → k.isClosed ∧ k ≠ .comment ∧ ¬ k.isEnclosed := by
    rintro k (rfl | rfl) <;> decide
  obtain ⟨hclosed, hcom, hencl⟩ := hall t.kind hkind
  exact .of_isClosed hclosed htext (isLineComment_of_ne hcom) (fun h => absurd h hencl) fun _ => hρ

theorem Legible.blank_text (h : Legible mode last ts)
    (ht : t ∈ ts) (hk : t.kind = .whitespace) : ∀ x ∈ t.text.toList, isBlank x := by
  induction h with
  | nil => cases ht
  | blank kind text tail ih =>
    rcases mem_cons.mp ht with rfl | ht
    · exact text
    · exact ih ht
  | token kind inMode read settled tag tail ih =>
    rcases mem_cons.mp ht with rfl | ht
    · exact absurd hk kind
    · exact ih ht

theorem Token.Form.of_isTrivia (h : t.Form) (htriv : t.isTrivia) :
    t.kind = .whitespace ∨ t.text.toList.getLast? = some '/' := by
  cases h with
  | soft text soft trivia => exact .inl (trivia htriv)
  | bracket text bracket =>
    have hplain := Kind.marks_of_isPlain (Kind.isPlain_trivia htriv)
    rw [marks_of_bracket? bracket] at hplain
    cases hplain
  | @comment body text ends =>
    cases body with
    | nil => cases ends
    | cons b body => exact .inr (by rw [text, getLast?_cons_cons, getLast?_cons_cons, ends])

theorem lexFragment_snoc {front : List Token} (hinert : InertText code.toList ks)
    (hlast : codeTokens none code.toList = ts ++ [t]) (hslash : code.toList.getLast? ≠ some '/')
    (hg : lexFragment code = front ++ [u]) (hblank : u.kind ≠ .whitespace) : u = t := by
  have hmem : u ∈ lexFragment code := by
    rw [hg]
    exact mem_append_right _ mem_cons_self
  have hsig : u.isTrivia = false := by
    rw [← Bool.not_eq_true]
    intro htriv
    refine hslash ?_
    rw [← chars_fragment, hg, charsOf_append, charsOf_cons, charsOf_nil, append_nil, getLast?_append,
      ((lexFragment_form hinert u hmem).of_isTrivia htriv).resolve_left hblank]
    rfl
  have hsignificant := (lexFragment_code code).trans hlast
  rw [hg, significant_append, significant_cons, hsig] at hsignificant
  exact (cons.inj (append_inj_right' hsignificant rfl)).1

theorem lexFragment_last (hinert : InertText code.toList ks) (hlast : codeTokens none code.toList = ts ++ [t])
    (hends : ∀ c, code.toList.getLast? = some c → isBlank c = false ∧ c ≠ '/') :
    ∃ front, lexFragment code = front ++ [t] := by
  have hsig : significant (lexFragment code) = ts ++ [t] := (lexFragment_code code).trans hlast
  have hne : lexFragment code ≠ [] := by
    intro hnil
    rw [hnil] at hsig
    exact append_ne_nil_of_right_ne_nil ts (cons_ne_nil t []) hsig.symm
  obtain ⟨front, u, hg⟩ := (eq_nil_or_concat (lexFragment code)).resolve_left hne
  rw [concat_eq_append] at hg
  have hmem : u ∈ lexFragment code := by
    rw [hg]
    exact mem_append_right _ mem_cons_self
  have hblank : u.kind ≠ .whitespace := by
    intro hkind
    obtain ⟨x, hx⟩ := isSome_iff_exists.mp (show u.text.toList.getLast?.isSome = true by
      simpa using steps_text_ne_nil _ _ _ _ u hmem)
    have hlastChar : code.toList.getLast? = some x := by
      rw [← chars_fragment, hg, charsOf_append, charsOf_cons, charsOf_nil, append_nil, getLast?_append, hx]
      rfl
    have hblank := (lexFragment_legible hinert).blank_text hmem hkind x (mem_of_getLast? hx)
    rw [(hends x hlastChar).1] at hblank
    cases hblank
  exact ⟨front, by rw [hg, lexFragment_snoc hinert hlast (fun heq => (hends '/' heq).2 rfl) hg hblank]⟩

/-- The two texts differ from here on, and neither begins with something that a token in front of `u` looks at. -/
structure Stops (u ρ₀ ρ : List Char) : Prop where
  before : nextIs binds ρ₀ = false
  behind : nextIs binds ρ = false
  separator : u = ['\\'] → nextIs isNameStart ρ = false

/-- What tokens in front of `u` look at is the same, whether `ρ₀` or `ρ` stands behind `u`. -/
def Seam (u ρ₀ ρ : List Char) : Prop := (∃ h ∈ u, isHard h = true) ∨ Stops u ρ₀ ρ

theorem Seam.append_left {u : List Char} (h : Seam u ρ₀ ρ) (hne : u ≠ []) (v : List Char) : Seam (v ++ u) ρ₀ ρ := by
  rcases h with ⟨x, hmem, hard⟩ | ⟨before, behind, separator⟩
  · exact .inl ⟨x, mem_append_right v hmem, hard⟩
  · refine .inr ⟨before, behind, fun heq => separator ?_⟩
    rcases append_eq_singleton_iff.mp heq with ⟨-, hu⟩ | ⟨-, hu⟩
    · exact hu
    · exact absurd hu hne

theorem Seam.sees {u : List Char} (h : Seam u ρ₀ ρ)
    (hline : t.isLineComment → lineCommentRun 0 (u ++ ρ₀) = 0 → lineCommentRun 0 (u ++ ρ) = 0) : t.Sees u ρ₀ ρ := by
  rcases h with ⟨x, hmem, hard⟩ | ⟨before, behind, separator⟩
  · refine ⟨fun _ => .inl ⟨x, hmem, hard⟩, fun _ => .inl ⟨x, hmem, ?_⟩, fun heq => ?_, hline⟩
    · simp only [isHard, Bool.and_eq_true, Bool.not_eq_true'] at hard
      exact hard.1.1
    · rw [heq, mem_singleton] at hmem
      subst hmem
      cases hard
  · exact ⟨fun _ => .inr ⟨before, behind⟩, fun _ => .inr behind, separator, hline⟩

/-- **Generated code fits** in front of a text that its last significant token `t` is free of, if it ends with a hard
character, or the text begins with nothing that binds, or it ends with `t` and holds no number. -/
theorem lexFragment_fits (hinert : InertText code.toList ks) (hlast : codeTokens none code.toList = ts ++ [t])
    (hslash : code.toList.getLast? ≠ some '/') (hfrees : t.Frees [] ρ) (hnaming : t.kind.isNaming = false)
    (hends : (∃ h, code.toList.getLast? = some h ∧ isHard h)
      ∨ nextIs (fun c => binds c || isNameStart c) ρ = false
      ∨ (∃ front, lexFragment code = front ++ [t] ∧ ∀ u ∈ front, u.kind ≠ .number)
        ∧ ∃ h ∈ t.text.toList, binds h = false ∧ h ≠ '\\') (hfst : contextOf last = none
      ∨ ∀ u, TokenStream.firstCode (lexFragment code) = some u → u.isContextual = false) :
    Fits last (lexFragment code) ρ := by
  have hsig : significant (lexFragment code) = ts ++ [t] := (lexFragment_code code).trans hlast
  have hseen : ∀ last', (lexFragment code).foldl seenAfter last' = some t.kind := by
    intro last'
    rw [foldl_seenAfter, hsig, getLast?_concat]
    rfl
  intro last' hlast'
  rw [hseen]
  refine ⟨contextOf_eq_none fun k hk => by cases hk; exact hnaming, fun rest hrest hleg => ?_⟩
  have hself : Legible .php last' (lexFragment code) := by
    refine (lexFragment_legible hinert).of_context ?_ (lexFragment_no_tag hinert)
    rcases hfst with hnone | hfst
    · exact .inl (hlast'.elim (·.trans hnone) id)
    · exact .inr hfst
  refine hself.append (fun u hu => ⟨((lexFragment_inert hinert).1 u hu).mode, ((lexFragment_inert hinert).1 u hu).next⟩)
    (fun front u behind hg hblank => ?_) (by rwa [hseen])
  rw [hrest]
  have hmem : u ∈ lexFragment code := by
    rw [hg]
    exact mem_append_right _ mem_cons_self
  have hchars : code.toList = charsOf front ++ (u.text.toList ++ charsOf behind) := by
    rw [← chars_fragment, hg, charsOf_append, charsOf_cons]
  by_cases hbehind : behind = []
  · subst hbehind
    rw [lexFragment_snoc hinert hlast hslash hg hblank]
    exact .apart hfrees
  · obtain ⟨c, a, hca⟩ := exists_cons_of_ne_nil (charsOf_ne_nil hbehind fun x hx => steps_text_ne_nil _ _ _ _ x (by
      show x ∈ lexFragment code
      rw [hg]
      exact mem_append_right _ (mem_cons_of_mem u hx)))
    have hlastChar : code.toList.getLast? = (c :: a).getLast? := by
      rw [hchars, hca, ← append_assoc, getLast?_append]
      exact or_of_isSome (by simp)
    have hline : u.isLineComment → lineCommentRun 0 (c :: a ++ []) = 0 → lineCommentRun 0 (c :: a ++ ρ) = 0 := by
      intro hline
      rw [(lexFragment_form hinert u hmem).safe.2] at hline
      cases hline
    have hsees : u.Sees (c :: a) [] ρ := by
      rcases hends with ⟨h, hmax, hard⟩ | hstop | ⟨⟨front', hg', hnumber⟩, h, hin, hbinds, hslash⟩
      · exact Seam.sees (.inl ⟨h, mem_of_getLast? (hlastChar ▸ hmax), hard⟩) hline
      · refine Seam.sees (.inr ⟨rfl, ?_, fun _ => ?_⟩) hline
        · exact nextIs_false_of (fun x hx => by rw [hx]; rfl) hstop
        · exact nextIs_false_of (fun x hx => by rw [hx, Bool.or_true]) hstop
      · -- the last token stops what looks ahead
        obtain ⟨behind', x, rfl⟩ := (eq_nil_or_concat behind).resolve_left hbehind
        rw [concat_eq_append] at hg hca
        rw [hg, ← cons_append, ← append_assoc] at hg'
        obtain ⟨rfl, hx⟩ := append_inj' hg' rfl
        obtain rfl := (cons.inj hx).1
        have hmem' : h ∈ c :: a := by
          rw [← hca, charsOf_append, charsOf_cons, charsOf_nil, append_nil]
          exact mem_append_right _ hin
        refine ⟨fun hk => absurd hk (hnumber u ?_), fun _ => .inl ⟨h, hmem', hbinds⟩, fun heq => ?_, hline⟩
        · exact mem_append_right _ mem_cons_self
        · rw [heq, mem_singleton] at hmem'
          exact absurd hmem' hslash
    have := Token.Joins.along hsees
    rwa [append_nil, ← cons_append, ← hca] at this

/-! ## §4. Batches of edits. -/

open Edit

section

variable {items : List Token} {edits : List (Edit Token)}

/-- The tokens of the weave from item `i` on. -/
def wovenFrom (items : List Token) (edits : List (Edit Token)) (i : Nat) : List Token := weaveFrom edits i (items.drop i)

/-- The tokens of the weave behind the new code in front of item `i`. -/
def behindCode (items : List Token) (edits : List (Edit Token)) (i : Nat) : List Token :=
  (if covers edits i then [] else items[i]?.toList) ++ wovenFrom items edits (i + 1)

theorem wovenFrom_eq (hi : i < items.length) :
    wovenFrom items edits i = generatedAt edits i ++ behindCode items edits i := by
  rw [wovenFrom, behindCode, drop_eq_getElem_cons hi, weaveFrom, pieceAt, append_assoc,
    getElem?_eq_getElem hi]
  rfl

/-- What a token makes of the kind in front of it is the same, when `last` is in front of item `i` and only trivia and
dropped items stand between `i` and the token, but no new code. -/
def Pending (items : List Token) (edits : List (Edit Token)) (i : Nat) (last : Option Kind) : Prop :=
  ∀ j t, i ≤ j → (∀ m, i ≤ m → m < j →
      (covers edits m = true ∨ ∃ u, items[m]? = some u ∧ u.isTrivia = true) ∧ generatedAt edits (m + 1) = []) →
    covers edits j = false → items[j]? = some t → t.isTrivia = false →
    (t.isContextual = true → contextOf ((items.take j).foldl seenAfter none) = none)
      ∧ (t.kind = .closeTag → isListOpen last = true → isListOpen ((items.take j).foldl seenAfter none) = true)

/-- **A batch whose new code joins the tokens around it.** -/
structure Joinable (items : List Token) (edits : List (Edit Token)) : Prop where
  /-- Dropped tokens stand behind new code. -/
  starts : ∀ i, covers edits i = true → generatedAt edits i ≠ [] ∨ ∃ q, i = q + 1 ∧ covers edits q = true
  dropped : ∀ i t, items[i]? = some t → covers edits i = true → t.kind.mode = .php ∧ t.kind.nextMode = .php
  place : ∀ i, generatedAt edits i ≠ [] → ∃ t, items[i]? = some t ∧ t.kind.mode = .php
  code : ∀ i, generatedAt edits i ≠ [] →
    Fits ((items.take i).foldl seenAfter none) (generatedAt edits i) (charsOf (behindCode items edits i))
  /-- The token in front of new code is free of it, and the tokens in front of that one do not look so far. -/
  front : ∀ i t, items[i]? = some t → covers edits i = false → generatedAt edits (i + 1) ≠ [] →
    (t.kind ≠ .whitespace → t.Frees (charsOf (items.drop (i + 1))) (charsOf (wovenFrom items edits (i + 1))))
      ∧ Seam t.text.toList (charsOf (items.drop (i + 1))) (charsOf (wovenFrom items edits (i + 1)))
  context : ∀ i, generatedAt edits i ≠ [] → ∀ last, Pending items edits i ((generatedAt edits i).foldl seenAfter last)

namespace Joinable

theorem nothing_at_end (h : Joinable items edits) : generatedAt edits items.length = [] := by
  by_contra hne
  obtain ⟨t, ht, -⟩ := h.place _ hne
  rw [getElem?_eq_none le_rfl] at ht
  cases ht

theorem wovenFrom_end (h : Joinable items edits) : wovenFrom items edits items.length = [] := by
  rw [wovenFrom, drop_length, weaveFrom, pieceAt, h.nothing_at_end]
  simp

theorem kept_next (h : Joinable items edits) (hkept : covers edits i = false)
    (hnone : generatedAt edits (i + 1) = []) : covers edits (i + 1) = false := by
  rw [← Bool.not_eq_true]
  intro hcov
  rcases h.starts (i + 1) hcov with hne | ⟨q, hq, hcov⟩
  · exact hne hnone
  · obtain rfl : i = q := Nat.succ.inj hq
    rw [hkept] at hcov
    cases hcov

theorem wovenFrom_next (h : Joinable items edits) {y : Token} (hkept : covers edits i = false)
    (hnone : generatedAt edits (i + 1) = []) (hy : items[i + 1]? = some y) :
    wovenFrom items edits (i + 1) = y :: wovenFrom items edits (i + 1 + 1) := by
  rw [wovenFrom_eq (lt_getElem? hy), hnone, behindCode, h.kept_next hkept hnone,
    if_neg Bool.false_ne_true, hy]
  rfl

theorem end_or_next (hi : i < items.length) : i + 1 = items.length
    ∨ ∃ y, items[i + 1]? = some y ∧ y ∈ items ∧ items.drop (i + 1) = y :: items.drop (i + 1 + 1) := by
  rcases Nat.lt_or_eq_of_le (Nat.succ_le_of_lt hi) with hlt | hend
  · exact .inr ⟨_, getElem?_eq_getElem hlt, getElem_mem hlt, drop_eq_getElem_cons hlt⟩
  · exact .inl hend

theorem seam (h : Joinable items edits) (ht : items[i]? = some t) (hkept : covers edits i = false)
    (htext : ∀ u ∈ items, u.text.toList ≠ []) : charsOf (wovenFrom items edits (i + 1)) = charsOf (items.drop (i + 1))
      ∨ ∃ u ρ₀ ρ, charsOf (items.drop (i + 1)) = u ++ ρ₀ ∧ charsOf (wovenFrom items edits (i + 1)) = u ++ ρ
        ∧ Seam (t.text.toList ++ u) ρ₀ ρ := by
  -- induction on the number of tokens behind the kept one
  induction hn : items.length - i generalizing i t with
  | zero =>
    have := lt_getElem? ht
    omega
  | succ n ih =>
    have hi := lt_getElem? ht
    by_cases hnone : generatedAt edits (i + 1) = []
    · rcases end_or_next hi with hend | ⟨y, hy, hmem, hdrop⟩
      · left
        rw [hend, h.wovenFrom_end, drop_length]
      · rw [h.wovenFrom_next hkept hnone hy, hdrop, charsOf_cons, charsOf_cons]
        rcases ih hy (h.kept_next hkept hnone) (by omega) with hsame | ⟨u, ρ₀, ρ, h₀, hρ, hseam⟩
        · exact .inl (by rw [hsame])
        · refine .inr ⟨y.text.toList ++ u, ρ₀, ρ, by rw [h₀, append_assoc], by rw [hρ, append_assoc], ?_⟩
          exact hseam.append_left (fun hnil => htext y hmem (append_eq_nil_iff.mp hnil).1) _
    · refine .inr ⟨[], _, _, rfl, rfl, ?_⟩
      rw [append_nil]
      exact (h.front i t ht hkept hnone).2

theorem joins (h : Joinable items edits) (ht : items[i]? = some t) (hkept : covers edits i = false)
    (hblank : t.kind ≠ .whitespace) (htext : ∀ u ∈ items, u.text.toList ≠ [])
    (htail : Legible t.kind.nextMode last (items.drop (i + 1))) :
    t.Joins (charsOf (items.drop (i + 1))) (charsOf (wovenFrom items edits (i + 1))) := by
  have hi := lt_getElem? ht
  by_cases hnone : generatedAt edits (i + 1) = []
  · rcases end_or_next hi with hend | ⟨y, hy, hmem, hdrop⟩
    · rw [hend, h.wovenFrom_end, drop_length]
      exact .refl _
    · -- the next token is kept, and the texts agree as far as anything looks
      rw [hdrop] at htail
      rw [h.wovenFrom_next hkept hnone hy, hdrop, charsOf_cons, charsOf_cons]
      rcases h.seam hy (h.kept_next hkept hnone) htext with hsame | ⟨u, ρ₀, ρ, h₀, hρ, hseam⟩
      · rw [hsame]
        exact .refl _
      · have hline : t.isLineComment → lineCommentRun 0 (y.text.toList ++ u ++ ρ₀) = 0 →
            lineCommentRun 0 (y.text.toList ++ u ++ ρ) = 0 := by
          intro hline hrun
          rw [nextMode_lineComment hline] at htail
          rw [append_assoc, ← h₀, ← charsOf_cons] at hrun
          rw [append_assoc]
          exact htail.lineCommentRun_eq_zero (htext y hmem) hrun (u ++ ρ)
        have hsees := hseam.sees hline
        rw [h₀, hρ, ← append_assoc, ← append_assoc]
        obtain ⟨c, a, hca⟩ := exists_cons_of_ne_nil (htext y hmem)
        rw [hca] at hsees ⊢
        exact .along hsees
  · exact .apart ((h.front i t ht hkept hnone).1 hblank)

/-- The kind that the weave has in front of item `i`: it is that of the items, or it does not matter any more. -/
def Agrees (items : List Token) (edits : List (Edit Token)) (i : Nat) (last : Option Kind) : Prop :=
  (last = (items.take i).foldl seenAfter none ∧ ∀ q, i = q + 1 → covers edits q = false)
    ∨ (contextOf last = none ∧ (generatedAt edits i = [] → Pending items edits i last))

theorem pending_succ (h : Pending items edits i last)
    (hi : covers edits i ∨ ∃ u, items[i]? = some u ∧ u.isTrivia) (hnone : generatedAt edits (i + 1) = []) :
    Pending items edits (i + 1) last := by
  intro j t hij hbtw
  refine h j t (by omega) fun m him hmj => ?_
  by_cases hm : m = i
  · rw [hm]
    exact ⟨hi, hnone⟩
  · exact hbtw m (by omega) hmj

theorem openTag?_of_readAfter (h : t.ReadAfter last ρ)
    (hmode : t.kind.mode = .html) : (openTag? (t.text.toList ++ ρ)).isSome ↔ t.kind ≠ .inlineHtml := by
  obtain ⟨c, w, htext, hkind, hlen⟩ := h
  rw [hmode] at hkind hlen
  rw [htext, cons_append]
  rcases htmlLexeme_cases hkind hlen with htag | ⟨hk, hnone, -⟩
  · rw [htag]
    rcases openTag?_shape htag with ⟨hk, -⟩ | ⟨_, _, _, _, hk, -⟩ <;> simp [hk]
  · simp [hk, hnone]

theorem markup (h : Joinable items edits) {last' : Option Kind} (ht : items[i]? = some t)
    (hkept : covers edits i = false) (hk : t.kind = .inlineHtml) (hread : t.ReadAfter last (charsOf (items.drop (i + 1))))
    (htail : Legible .html (seenAfter last t) (items.drop (i + 1)))
    (hwoven : Legible .html last' (wovenFrom items edits (i + 1))) :
    (charsOf (wovenFrom items edits (i + 1)) = [] → charsOf (items.drop (i + 1)) = [])
      ∧ (charsOf (wovenFrom items edits (i + 1)) ≠ [] → (openTag? (charsOf (wovenFrom items edits (i + 1)))).isSome) := by
  have hi := lt_getElem? ht
  rcases end_or_next hi with hend | ⟨y, hy, -, hdrop⟩
  · rw [hend, h.wovenFrom_end, drop_length]
    exact ⟨fun _ => rfl, fun hne => absurd rfl hne⟩
  · rw [hdrop] at htail hread
    have hmode := htail.head_mode.1
    -- neither new code nor a gap stands between markup and its open tag
    have hnone : generatedAt edits (i + 1) = [] := by
      by_contra hne
      obtain ⟨u, hu, hphp⟩ := h.place _ hne
      rw [hy] at hu
      cases hu
      rw [hmode] at hphp
      cases hphp
    rw [h.wovenFrom_next hkept hnone hy] at hwoven ⊢
    rw [hdrop]
    cases htail with
    | token kind inMode read settled tag tail =>
      cases hwoven with
      | token kind' inMode' read' settled' tag' tail' =>
        have hy : y.kind ≠ .inlineHtml := by
          rw [← openTag?_of_readAfter read hmode]
          obtain ⟨c, w, htext, hkind, hlen⟩ := hread
          refine (Token.endsBefore_of_lexeme htext hkind hlen).markup hk ?_
          obtain ⟨c', w', htext', -⟩ := read
          rw [charsOf_cons, htext']
          exact cons_ne_nil _ _
        have htag := (openTag?_of_readAfter read' hmode).mpr hy
        refine ⟨fun hnil => ?_, fun _ => htag⟩
        obtain ⟨c', w', htext', -⟩ := read'
        rw [charsOf_cons, htext'] at hnil
        cases hnil

theorem legible_from (h : Joinable items edits) (htext : ∀ u ∈ items, u.text.toList ≠ []) (hi : i ≤ items.length)
    {mode : Mode} (hleg : Legible mode ((items.take i).foldl seenAfter none) (items.drop i))
    (hagrees : Agrees items edits i last) : Legible mode last (wovenFrom items edits i) := by
  -- induction on what is left of the items
  induction hn : items.length - i generalizing i mode last with
  | zero =>
    obtain rfl : i = items.length := by omega
    rw [h.wovenFrom_end]
    exact .nil _ _
  | succ n ih =>
    have hlt : i < items.length := by omega
    have hx : items[i]? = some items[i] := getElem?_eq_getElem hlt
    have hseen : (items.take (i + 1)).foldl seenAfter none
      = seenAfter ((items.take i).foldl seenAfter none) items[i] := by
      rw [take_succ_eq_append_getElem hlt, foldl_append]
      rfl
    rw [drop_eq_getElem_cons hlt] at hleg
    obtain ⟨hmode, htail⟩ := hleg.head_mode
    generalize hctx : (items.take i).foldl seenAfter none = last₀ at hleg htail hseen hagrees
    generalize items[i] = x at hx hseen hleg hmode htail
    -- first what stands behind the new code
    have hbehind : ∀ last', (covers edits i → contextOf last' = none ∧ Pending items edits i last') →
        (covers edits i = false → last' = last₀ ∨ (contextOf last' = none ∧ Pending items edits i last')) →
        Legible mode last' (behindCode items edits i) := by
      intro last' hcovered huncovered
      rw [behindCode]
      cases hcov : covers edits i with
      | true =>
        rw [if_pos rfl, nil_append]
        obtain ⟨hphp, hnext⟩ := h.dropped i x hx hcov
        obtain ⟨hnone, hpending⟩ := hcovered hcov
        rw [← hmode, hphp, ← hnext]
        refine ih (by omega) (by rwa [hseen]) (.inr ⟨hnone, pending_succ hpending (.inl hcov)⟩) (by omega)
      | false =>
        rw [if_neg Bool.false_ne_true, hx]
        show Legible mode last' (x :: wovenFrom items edits (i + 1))
        have hagree := huncovered hcov
        have hnext : Legible x.kind.nextMode (seenAfter last' x) (wovenFrom items edits (i + 1)) := by
          refine ih (by omega) (by rwa [hseen]) ?_ (by omega)
          have hq : ∀ q, i + 1 = q + 1 → covers edits q = false := by
            intro q hq
            obtain rfl : i = q := Nat.succ.inj hq
            exact hcov
          by_cases htriv : x.isTrivia
          · rw [Agrees, hseen, seenAfter, seenAfter, if_pos htriv, if_pos htriv]
            rcases hagree with hsame | ⟨hnone, hpending⟩
            · exact .inl ⟨hsame, hq⟩
            · exact .inr ⟨hnone, pending_succ hpending (.inr ⟨x, hx, htriv⟩)⟩
          · rw [Agrees, hseen, seenAfter, seenAfter, if_neg htriv, if_neg htriv]
            exact .inl ⟨rfl, hq⟩
        cases hleg with
        | blank kind text tail =>
          rw [seenAfter, Token.isTrivia, kind] at hnext
          exact .blank kind text hnext
        | token kind inMode read settled tag tail =>
          have hjoins := h.joins hx hcov kind htext htail
          -- what the kind in front decides, behind new code
          have hfront : ∀ hpending : Pending items edits i last', x.isTrivia = false →
              (x.isContextual → contextOf last₀ = none)
                ∧ (x.kind = .closeTag → isListOpen last' → isListOpen last₀) := by
            intro hpending hsig
            have := hpending i x le_rfl (fun m h₁ h₂ => by omega) hcov hx hsig
            rwa [hctx] at this
          have hread : x.ReadAfter last' (charsOf (items.drop (i + 1))) := by
            rcases hagree with rfl | ⟨hnone, hpending⟩
            · exact read
            · by_cases hword : x.isContextual
              · -- a reserved word: its own context did not matter either
                have hsig : x.isTrivia = false := by
                  rw [← Bool.not_eq_true]
                  intro htriv
                  rw [Token.isContextual_of_isTrivia htriv] at hword
                  cases hword
                exact read.of_context (hnone.trans ((hfront hpending hsig).1 hword).symm)
              · exact read.of_not_contextual (Bool.not_eq_true _ ▸ hword) last'
          have htag : x.kind = .closeTag → isListOpen last' = false := by
            intro hk
            rcases hagree with rfl | ⟨-, hpending⟩
            · exact tag hk
            · rw [← Bool.not_eq_true]
              intro hopen
              have := (hfront hpending (by rw [Token.isTrivia, hk]; rfl)).2 hk hopen
              rw [tag hk] at this
              cases this
          refine .token kind inMode (hread.rejoin kind settled hjoins fun hk => ?_) (hjoins.isSettled settled) htag hnext
          rw [hk] at hnext htail
          exact h.markup hx hcov hk read htail hnext
    rw [wovenFrom_eq hlt]
    by_cases hnone : generatedAt edits i = []
    · rw [hnone, nil_append]
      refine hbehind last (fun hcov => ?_) fun _ => ?_
      · -- without new code the drop began before
        rcases hagrees with ⟨-, hq⟩ | hpending
        · rcases h.starts i hcov with hne | ⟨q, rfl, hcovered⟩
          · exact absurd hnone hne
          · rw [hq q rfl] at hcovered
            cases hcovered
        · exact hpending.imp_right fun h => h hnone
      · rw [← hctx] at *
        exact hagrees.imp (·.1) fun h => h.imp_right fun h => h hnone
    · obtain ⟨u, hu, hphp⟩ := h.place i hnone
      rw [hx] at hu
      cases hu
      have hfits := h.code i hnone
      rw [hctx] at hfits
      obtain ⟨hafter, hcode⟩ := hfits last (by
        rcases hagrees with ⟨rfl, -⟩ | ⟨hnone, -⟩
        · rw [hctx]
          exact .inl rfl
        · exact .inr hnone)
      rw [← hmode, hphp]
      refine hcode _ rfl ?_
      rw [← hphp, hmode]
      exact hbehind _ (fun _ => ⟨hafter, h.context i hnone last⟩) fun _ => .inr ⟨hafter, h.context i hnone last⟩

end Joinable

/-- **Batches whose code joins the tokens around it keep tokens legible.** -/
theorem weave_legible (h : Joinable items edits) (hleg : Legible .html none items)
    (htext : ∀ u ∈ items, u.text.toList ≠ []) :
    Legible .html none (weave items edits) :=
  h.legible_from htext (i := 0) (Nat.zero_le _) hleg (.inl ⟨rfl, fun q hq => by cases hq⟩)

end

end MageUplift.Php
