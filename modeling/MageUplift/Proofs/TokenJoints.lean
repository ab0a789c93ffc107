import MageUplift.Proofs.CodeTokens

/-!
# Tokens that stay what they are

A token was read in front of one text; when is it read again, the same token, in front of another? An outline only
asks for brackets (`Token.reads_of_clear`), here every kind and every length counts.

What decides is the place where the two texts begin to differ. If that is right behind the token, a name must not
go on there, a number must find no digit, and an operator nothing that makes it longer (`Token.Frees`). If it is
further on, only the little matters that a token looks at: an operator does not look past a character that makes no
operator longer, and a number not past a blank or a bracket (`Token.Sees`).

That every token that joins its text so is read again is shown rule by rule in `TokenRereading`. Here is what those
proofs share, and the only rule that looks far ahead, the one for numbers.
-/

namespace MageUplift.Php

open List Bool

variable {p : Char → Bool} {c : Char} {last : Option Kind} {y b : List Char}

/-! ## §1. Reading a token again. -/

/-- The kind decides whether a word behind it is reserved. -/
def Kind.isNaming : Kind → Bool
  | .arrow | .nullsafeArrow | .doubleColon | .keyword .functionKw | .keyword .constKw => true
  | _ => false

/-- The part of the last kind that matters to a word. -/
def contextOf (last : Option Kind) : Option Kind := last.filter Kind.isNaming

/-- An open tag that would take along a line feed. -/
def Token.takesFeed (t : Token) : Bool := t.kind == .openTag && t.text.toList.getLast? == some '\r'

theorem Token.kind_of_takesFeed {t : Token} (h : t.takesFeed) : t.kind = .openTag := by
  rw [Token.takesFeed, Bool.and_eq_true, beq_iff_eq] at h
  exact h.1

/-- Here a body may end. -/
def mayEnd (ρ : List Char) : Bool := nextIs (fun c => isBlank c || c == '\x7d') ρ

/-- What does not depend on the text behind a token is settled: no shift could open a heredoc, and no open tag could
take along the line feed of a line at the end of a body. -/
def Token.isSettled (t : Token) (ρ : List Char) : Bool :=
  !(t.text.toList == ['<', '<'] && nextIs (· == '<') ρ) && !(t.takesFeed && mayEnd ρ)

/-- Behind a token of kind `last`, the text of the token is read as the token when `ρ` follows. -/
def Token.ReadAfter (t : Token) (last : Option Kind) (ρ : List Char) : Prop :=
  ∃ c w, t.text.toList = c :: w ∧ (lexeme t.kind.mode last c (w ++ ρ)).kind = t.kind
    ∧ (lexeme t.kind.mode last c (w ++ ρ)).length = w.length + 1

def binds (c : Char) : Bool :=
  c.isDigit || ['*', '?', '>', '<', '[', '-', '.', '=', '+', '&', '|', ':'].contains c

/-- The character can go on with a number. -/
def isNumeral (c : Char) : Bool := isBaseDigitPart c || ['x', 'X', 'o', 'O', '.'].contains c

/-- Nothing but a string, a comment or a heredoc looks past the character. -/
def isHard (c : Char) : Bool := !binds c && !isNumeral c && c != '\\'

/-- The kinds of signs that may be the beginning of a longer one. -/
def signs : List Kind :=
  [.operator, .equals, .doubleColon, .arrow, .nullsafeArrow, .fatArrow, .ellipsis, .question, .colon, .dot, .ampersand]

def Kind.isWord : Kind → Bool
  | .identifier | .qualifiedName | .keyword _ => true
  | _ => false

/-- The kinds of literals and comments, which can be left open at the end of a text. -/
def Kind.isEnclosed : Kind → Bool
  | .comment | .docComment | .stringLiteral | .heredoc => true
  | _ => false

/-- The token ends where `ρ` begins; it stood in front of `ρ₀` before. -/
structure Token.Frees (t : Token) (ρ₀ ρ : List Char) : Prop where
  word : t.kind.isWord = true → nextIs (fun c => isNamePart c || c == '\\') ρ = false
  label : t.kind = .variableName ∨ t.kind = .heredoc → nextIs isNamePart ρ = false
  dollar : t.kind = .dollar ∨ t.text.toList = ['\\'] → nextIs isNameStart ρ = false
  number : t.kind = .number → nextIs (fun c => isNumeral c || binds c) ρ₀ = false
    ∧ nextIs (fun c => isNumeral c || binds c) ρ = false
  sign : t.kind ∈ signs ∨ t.text.toList = ['<', '<'] → nextIs (fun c => binds c || c == '/') ρ = false
  comment : t.isLineComment = true → lineCommentRun 0 ρ = 0
  /-- What is left open goes on to the end. -/
  enclosed : t.kind.isEnclosed = true → ρ₀ = [] → ρ = []
  /-- An open tag without its blank stands at the end. -/
  tag : t.kind = .openTag → t.text.toList.length = 5 → ρ = []
  feed : t.takesFeed = true → mayEnd ρ = false
  markup : t.kind.nextMode = .html → ρ₀ = [] ∧ ρ = []

/-- What the token looks at in `u`, which follows it, is the same whether `ρ₀` or `ρ` stands behind `u`. -/
structure Token.Sees (t : Token) (u ρ₀ ρ : List Char) : Prop where
  number : t.kind = .number → (∃ h ∈ u, isHard h = true) ∨ (nextIs binds ρ₀ = false ∧ nextIs binds ρ = false)
  sign : t.kind ∈ signs → (∃ h ∈ u, binds h = false) ∨ nextIs binds ρ = false
  separator : u = ['\\'] → nextIs isNameStart ρ = false
  comment : t.isLineComment = true → lineCommentRun 0 (u ++ ρ₀) = 0 → lineCommentRun 0 (u ++ ρ) = 0

/-- How the token, which stood in front of `ρ₀`, may stand in front of `ρ`. -/
inductive Token.Joins (t : Token) : List Char → List Char → Prop where
  | refl (ρ : List Char) : t.Joins ρ ρ
  | apart {ρ₀ ρ : List Char} (frees : t.Frees ρ₀ ρ) : t.Joins ρ₀ ρ
  | along {c : Char} {a ρ₀ ρ : List Char} (sees : t.Sees (c :: a) ρ₀ ρ) : t.Joins (c :: (a ++ ρ₀)) (c :: (a ++ ρ))

/-! ## §2. Characters that bind, and hard ones. -/

theorem nextIs_false_of {q : Char → Bool} {cs : List Char} (hpq : ∀ c, p c → q c)
    (h : nextIs q cs = false) : nextIs p cs = false := by
  cases cs with
  | nil => rfl
  | cons c cs =>
    show p c = false
    rw [← not_eq_true]
    intro hp
    have hq : q c = false := h
    rw [hpq c hp] at hq
    cases hq

theorem binds_of_isDigit (h : c.isDigit) : binds c := by
  simp [binds, h]

theorem binds_of_mem {x : Char} (hx : binds x) (h : (c == x)) : binds c := by
  rw [beq_iff_eq] at h
  exact h ▸ hx

theorem binds_of_plusMinus (c : Char) (h : (c == '+' || c == '-')) : binds c := by
  rw [or_eq_true, beq_iff_eq, beq_iff_eq] at h
  rcases h with rfl | rfl <;> decide

theorem operators_bind : ∀ o ∈ operators, ∀ x ∈ o.others, binds x := by decide

theorem prefix_of_not_binds {others u ρ : List Char} (hothers : ∀ x ∈ others, binds x)
    (hρ : nextIs binds ρ = false) (h : others <+: u ++ ρ) (ρ₀ : List Char) : others <+: u ++ ρ₀ := by
  have hlen : others.length ≤ u.length := by
    by_contra hlt
    -- else the sign takes along the first character of `ρ`
    obtain ⟨rest, hrest⟩ := h
    cases ρ with
    | nil =>
      have := congrArg List.length hrest
      rw [length_append, length_append, length_nil] at this
      omega
    | cons x ρ =>
      have hx : others[u.length]? = some x := by
        have := congrArg (·[u.length]?) hrest
        rw [getElem?_append_left (by omega), getElem?_append_right le_rfl, Nat.sub_self] at this
        exact this
      have hbinds : binds x = false := hρ
      rw [hothers x (mem_of_getElem? hx)] at hbinds
      cases hbinds
  exact (prefix_of_prefix_length_le h (prefix_append u ρ) hlen).trans (prefix_append u ρ₀)

theorem contextOf_eq_none (h : ∀ k, last = some k → k.isNaming = false) : contextOf last = none := by
  cases last with
  | none => rfl
  | some k => rw [contextOf, Option.filter_some, h k rfl]; rfl

theorem wordKind_contextOf (last : Option Kind) (word : String) :
    wordKind (contextOf last) word = wordKind last word := by
  cases last with
  | none => rfl
  | some k => cases k <;> first | rfl | (rename_i kw; cases kw <;> rfl)

theorem phpLexeme_contextOf (last : Option Kind) (c : Char) (cs : List Char) :
    phpLexeme (contextOf last) c cs = phpLexeme last c cs := by
  have hname : nameRule (contextOf last) c cs = nameRule last c cs := by
    unfold nameRule
    dsimp only
    rw [wordKind_contextOf]
  unfold phpLexeme phpRules
  simp only [findSome?_cons, hname]
  rfl

theorem lexeme_contextOf (mode : Mode) (last : Option Kind) (c : Char) (cs : List Char) :
    lexeme mode (contextOf last) c cs = lexeme mode last c cs := by
  cases mode with
  | html => rfl
  | php => exact phpLexeme_contextOf last c cs

theorem Token.ReadAfter.of_context {t : Token} {last' : Option Kind} {ρ : List Char} (h : t.ReadAfter last ρ)
    (hctx : contextOf last' = contextOf last) : t.ReadAfter last' ρ := by
  obtain ⟨c, w, htext, hkind, hlen⟩ := h
  rw [← lexeme_contextOf, ← hctx, lexeme_contextOf] at hkind hlen
  exact ⟨c, w, htext, hkind, hlen⟩

namespace Token.Joins

variable {t : Token} {ρ₀ ρ : List Char}

theorem head (h : t.Joins ρ₀ ρ) : t.Frees ρ₀ ρ ∨ ρ = ρ₀ ∨ ∃ d σ₀ σ, ρ₀ = d :: σ₀ ∧ ρ = d :: σ := by
  cases h with
  | refl => exact .inr (.inl rfl)
  | apart frees => exact .inl frees
  | along sees => exact .inr (.inr ⟨_, _, _, rfl, rfl⟩)

theorem nextIs_eq (h : t.Joins ρ₀ ρ) (hfree : t.Frees ρ₀ ρ → nextIs p ρ = false)
    (h₀ : nextIs p ρ₀ = false) : nextIs p ρ = false := by
  rcases h.head with frees | rfl | ⟨d, σ₀, σ, rfl, rfl⟩
  · exact hfree frees
  · exact h₀
  · exact h₀

theorem eq_nil (h : t.Joins ρ₀ ρ) (hkind : t.kind.isEnclosed) (h₀ : ρ₀ = []) : ρ = [] := by
  cases h with
  | refl => exact h₀
  | apart frees => exact frees.enclosed hkind h₀
  | along sees => cases h₀

theorem nameRun_eq_zero (h : t.Joins ρ₀ ρ) (hword : t.kind.isWord) (h₀ : nameRun ρ₀ = 0) : nameRun ρ = 0 := by
  cases h with
  | refl => exact h₀
  | apart frees =>
    have hnext := frees.word hword
    cases ρ with
    | nil => rfl
    | cons c cs =>
      have hc : (isNamePart c || c == '\\') = false := hnext
      rw [or_eq_false_iff] at hc
      rw [nameRun, hc.1, hc.2]
      rfl
  | @along c a σ₀ σ sees =>
    have hno : ∀ cs : List Char, nameRun (c :: cs) = 0
      ↔ (isNamePart c || (c == '\\' && nextIs isNameStart cs)) = false := by
      intro cs
      rw [nameRun]
      split
      · rename_i hyes
        rw [hyes]
        exact ⟨fun h => absurd h (Nat.succ_ne_zero _), fun h => by cases h⟩
      · rename_i hyes
        rw [not_eq_true] at hyes
        exact ⟨fun _ => hyes, fun _ => rfl⟩
    rw [hno, or_eq_false_iff] at h₀ ⊢
    refine ⟨h₀.1, ?_⟩
    -- a separator ends the name as long as no segment follows it
    cases a with
    | nil =>
      rw [and_eq_false_iff]
      by_cases hc : c = '\\'
      · exact .inr (sees.separator (by rw [hc]))
      · exact .inl (beq_eq_false_iff_ne.mpr hc)
    | cons d a => exact h₀.2

theorem prefix_of_others (h : t.Joins ρ₀ ρ) {o : Operator} (ho : o ∈ operators)
    (hsign : o.others ≠ [] → t.kind ∈ signs) {w : List Char} (hpre : o.others <+: w ++ ρ) : o.others <+: w ++ ρ₀ := by
  have hbinds := operators_bind o ho
  by_cases hnil : o.others = []
  · rw [hnil]
    exact nil_prefix
  cases h with
  | refl => exact hpre
  | apart frees =>
    refine prefix_of_not_binds hbinds (nextIs_false_of (fun c hc => ?_) (frees.sign (.inl (hsign hnil)))) hpre _
    rw [hc]
    rfl
  | @along c a σ₀ σ sees =>
    rcases sees.sign (hsign hnil) with ⟨h, hmem, hstop⟩ | hstop
    · -- cut at the character that does not bind
      obtain ⟨u, v, huv⟩ := append_of_mem hmem
      rw [← cons_append, huv, append_assoc, ← append_assoc] at hpre ⊢
      exact prefix_of_not_binds hbinds (ρ := h :: v ++ σ) hstop hpre _
    · rw [← cons_append, ← append_assoc] at hpre ⊢
      exact prefix_of_not_binds hbinds hstop hpre _

end Token.Joins

/-! ## §3. Numbers. -/

theorem run_congr {b₀ : List Char}
    (h : (nextIs p b₀ = false ∧ nextIs p b = false) ∨ run p (y ++ b₀) < y.length) : run p (y ++ b) = run p (y ++ b₀) := by
  rcases h with ⟨h₀, h⟩ | hlt
  · have hnone : ∀ {cs : List Char}, nextIs p cs = false → cs.takeWhile p = [] := by
      intro cs hcs
      cases cs with
      | nil => rfl
      | cons c cs => exact takeWhile_cons_of_neg (by simpa [nextIs] using hcs)
    unfold run
    rw [takeWhile_append, takeWhile_append, hnone h₀, hnone h]
  · exact run_append hlt b

theorem run_le_of_not_next (h : nextIs p b = false) : run p (y ++ b) ≤ y.length := by
  induction y with
  | nil =>
    cases b with
    | nil => exact le_rfl
    | cons c b =>
      exact Nat.le_of_eq (by rw [run, nil_append, takeWhile_cons_of_neg (by simpa [nextIs] using h)])
  | cons c y ih =>
    unfold run at ih ⊢
    rw [cons_append, takeWhile_cons]
    split
    · rw [length_cons, length_cons]
      omega
    · exact Nat.zero_le _

theorem nextIs_congr {b₀ : List Char} (h : y ≠ [] ∨ (nextIs p b₀ = false ∧ nextIs p b = false)) :
    nextIs p (y ++ b) = nextIs p (y ++ b₀) := by
  cases y with
  | nil =>
    obtain ⟨h₀, h⟩ := h.resolve_left fun hne => hne rfl
    rw [nil_append, nil_append, h₀, h]
  | cons c y => rfl

theorem isNumeral_digit (h : isDigitPart c) : isNumeral c := by
  rw [isDigitPart, or_eq_true] at h
  rcases h with h | h <;> simp [isNumeral, isBaseDigitPart, h]

/-- The texts `b₀` and `b`, one of which stands behind `y`, where a number ended after `n` characters of it. -/
structure NumberEnd (n : Nat) (y b₀ b : List Char) : Prop where
  before : nextIs binds b₀ = false
  behind : nextIs binds b = false
  ends : (nextIs isNumeral b₀ = false ∧ nextIs isNumeral b = false) ∨ n < y.length

namespace NumberEnd

variable {n : Nat} {y b₀ b : List Char}

variable (h : NumberEnd n y b₀ b)

include h

theorem digit (u : List Char) : nextIs Char.isDigit (u ++ b) = nextIs Char.isDigit (u ++ b₀) :=
  nextIs_congr (.inr ⟨nextIs_false_of (fun _ => binds_of_isDigit) h.before,
    nextIs_false_of (fun _ => binds_of_isDigit) h.behind⟩)

theorem sign {x : Char} (hx : binds x) (u : List Char) : nextIs (· == x) (u ++ b) = nextIs (· == x) (u ++ b₀) :=
  nextIs_congr (.inr ⟨nextIs_false_of (fun _ => binds_of_mem hx) h.before,
    nextIs_false_of (fun _ => binds_of_mem hx) h.behind⟩)

theorem plusMinus (u : List Char) :
    nextIs (fun c => c == '+' || c == '-') (u ++ b) = nextIs (fun c => c == '+' || c == '-') (u ++ b₀) :=
  nextIs_congr (.inr ⟨nextIs_false_of binds_of_plusMinus h.before,
    nextIs_false_of binds_of_plusMinus h.behind⟩)

theorem run_eq (hp : ∀ c, p c → isNumeral c) (hn : run p (y ++ b₀) ≤ n) : run p (y ++ b) = run p (y ++ b₀) := by
  refine run_congr ?_
  rcases h.ends with ⟨h₀, h⟩ | hlt
  · exact .inl ⟨nextIs_false_of hp h₀, nextIs_false_of hp h⟩
  · exact .inr (by omega)

theorem run_le (hp : ∀ c, p c → isNumeral c) (hn : run p (y ++ b₀) ≤ n) : run p (y ++ b₀) ≤ y.length := by
  rcases h.ends with ⟨h₀, -⟩ | hlt
  · exact run_le_of_not_next (nextIs_false_of hp h₀)
  · omega

theorem drop {k m : Nat} (hk : k ≤ y.length) (hm : k + m ≤ n) : NumberEnd m (y.drop k) b₀ b :=
  ⟨h.before, h.behind, h.ends.imp_right fun hlt => by rw [length_drop]; omega⟩

theorem fraction (hn : fractionLength (y ++ b₀) ≤ n) :
    fractionLength (y ++ b) = fractionLength (y ++ b₀) ∧ fractionLength (y ++ b₀) ≤ y.length := by
  cases y with
  | nil =>
    have hzero : ∀ {cs : List Char}, nextIs binds cs = false → fractionLength cs = 0 := by
      intro cs hcs
      unfold fractionLength
      split
      · cases hcs
      · rfl
    rw [nil_append, nil_append, hzero h.before, hzero h.behind]
    exact ⟨rfl, Nat.zero_le _⟩
  | cons c y =>
    by_cases hc : c = '.'
    · subst hc
      have hdot : ∀ cs : List Char, fractionLength ('.' :: cs) = if nextIs Char.isDigit cs then 1 + run isDigitPart cs
          else if nextIs (· == '.') cs then 0 else 1 := fun _ => rfl
      rw [cons_append, cons_append, hdot, hdot, h.digit y, h.sign (by decide) y, length_cons]
      rw [cons_append, hdot] at hn
      by_cases hdigit : nextIs Char.isDigit (y ++ b₀)
      · simp only [if_pos hdigit] at hn ⊢
        have htail : NumberEnd (n - 1) y b₀ b := h.drop (k := 1) (by simp) (by omega)
        have hrun : run isDigitPart (y ++ b₀) ≤ n - 1 := by omega
        have hle : run isDigitPart (y ++ b₀) ≤ y.length := htail.run_le (fun _ => isNumeral_digit) hrun
        have heq : run isDigitPart (y ++ b) = run isDigitPart (y ++ b₀) :=
          htail.run_eq (fun _ => isNumeral_digit) hrun
        rw [heq]
        exact ⟨rfl, by omega⟩
      · simp only [if_neg hdigit]
        refine ⟨trivial, ?_⟩
        split <;> omega
    · have hzero : ∀ cs : List Char, fractionLength (c :: cs) = 0 := by
        intro cs
        unfold fractionLength
        split
        · rename_i heq
          cases heq
          exact absurd rfl hc
        · rfl
      rw [cons_append, cons_append, hzero, hzero]
      exact ⟨rfl, Nat.zero_le _⟩

theorem exponent (hn : exponentLength (y ++ b₀) ≤ n) : exponentLength (y ++ b) = exponentLength (y ++ b₀) := by
  cases y with
  | nil =>
    have hzero : ∀ {cs : List Char}, nextIs isNumeral cs = false → exponentLength cs = 0 := by
      intro cs hcs
      cases cs with
      | nil => rfl
      | cons e cs =>
        rw [exponentLength, if_neg]
        intro he
        rw [or_eq_true, beq_iff_eq, beq_iff_eq] at he
        rcases he with rfl | rfl <;> cases hcs
    obtain ⟨h₀, h⟩ := h.ends.resolve_right (Nat.not_lt_zero n)
    rw [nil_append, nil_append, hzero h₀, hzero h]
  | cons e y =>
    rw [cons_append, exponentLength] at hn
    rw [cons_append, cons_append, exponentLength, exponentLength]
    by_cases he : (e == 'e' || e == 'E')
    · simp only [if_pos he] at hn ⊢
      rw [h.plusMinus y]
      -- the sign, if there is one, stands in the common part
      have hsign : (if nextIs (fun c => c == '+' || c == '-') (y ++ b₀) then 1 else 0) ≤ y.length := by
        split
        · rename_i hsome
          cases y with
          | nil =>
            rw [nil_append, nextIs_false_of binds_of_plusMinus h.before] at hsome
            cases hsome
          | cons d y => simp
        · exact Nat.zero_le _
      generalize (if nextIs (fun c => c == '+' || c == '-') (y ++ b₀) then 1 else 0) = sign at hn hsign ⊢
      rw [drop_append_of_le_length hsign, drop_append_of_le_length hsign, h.digit]
      rw [drop_append_of_le_length hsign] at hn
      by_cases hdigit : nextIs Char.isDigit (y.drop sign ++ b₀)
      · simp only [if_pos hdigit] at hn ⊢
        have htail : NumberEnd (n - 1 - sign) (y.drop sign) b₀ b := by
          have := h.drop (k := 1 + sign) (m := n - 1 - sign) (by rw [length_cons]; omega) (by omega)
          rwa [Nat.add_comm 1 sign, drop_succ_cons] at this
        have hrun : run isDigitPart (y.drop sign ++ b₀) ≤ n - 1 - sign := by omega
        rw [htail.run_eq (p := isDigitPart) (fun _ => isNumeral_digit) hrun]
      · rw [if_neg hdigit, if_neg hdigit]
    · rw [if_neg he, if_neg he]

theorem scale (hn : scaleLength (y ++ b₀) ≤ n) : scaleLength (y ++ b) = scaleLength (y ++ b₀) := by
  unfold scaleLength at hn ⊢
  dsimp only at hn ⊢
  obtain ⟨hfraction, hle⟩ := h.fraction (by omega)
  rw [hfraction, drop_append_of_le_length hle, drop_append_of_le_length hle]
  rw [drop_append_of_le_length hle] at hn
  rw [(h.drop hle hn).exponent le_rfl]

theorem numberRule_eq {l : Lexeme} (hrule : numberRule last c (y ++ b₀) = some l)
    (hlen : l.length = n + 1) : numberRule last c (y ++ b) = some l := by
  have hmore : ∀ {more : Nat}, (Lexeme.code .number more []).length = n + 1 → more = n := by
    intro more hlen
    have : 1 + more = n + 1 := hlen
    omega
  have hletter : ∀ x : Char, ['x', 'X', 'b', 'B', 'o', 'O'].contains x → isNumeral x := by
    intro x hx
    have hall : ∀ x ∈ ['x', 'X', 'b', 'B', 'o', 'O'], isNumeral x := by decide
    exact hall x (by simpa using hx)
  have hbase : nextIs (fun x => ['x', 'X', 'b', 'B', 'o', 'O'].contains x) (y ++ b)
      = nextIs (fun x => ['x', 'X', 'b', 'B', 'o', 'O'].contains x) (y ++ b₀) := by
    refine nextIs_congr ?_
    rcases h.ends with ⟨h₀, h⟩ | hlt
    · exact .inr ⟨nextIs_false_of hletter h₀, nextIs_false_of hletter h⟩
    · exact .inl (ne_nil_of_length_pos (by omega))
  unfold numberRule at hrule ⊢
  rw [hbase]
  split at hrule
  · rename_i hguard
    rw [if_pos hguard]
    cases hrule
    have hmore := hmore hlen
    cases y with
    | nil =>
      obtain ⟨h₀, -⟩ := h.ends.resolve_right (Nat.not_lt_zero n)
      rw [and_eq_true, nil_append, nextIs_false_of hletter h₀] at hguard
      cases hguard.2
    | cons x y =>
      have hbaseDigit : ∀ c, isBaseDigitPart c → isNumeral c := fun c hc => by simp [isNumeral, hc]
      have htail : NumberEnd (n - 1) y b₀ b := h.drop (k := 1) (by simp) (by omega)
      change 1 + run isBaseDigitPart (y ++ b₀) = n at hmore
      show some (Lexeme.code .number (1 + run isBaseDigitPart (y ++ b)) []) = _
      rw [htail.run_eq hbaseDigit (by omega)]
      rfl
  · rename_i hguard
    rw [if_neg hguard]
    split at hrule
    · rename_i hdigit
      rw [if_pos hdigit]
      cases hrule
      have hmore := hmore hlen
      have hle := h.run_le (p := isDigitPart) (fun _ => isNumeral_digit) (by omega)
      have hrun := h.run_eq (p := isDigitPart) (fun _ => isNumeral_digit) (by omega)
      dsimp only
      rw [hrun, drop_append_of_le_length hle, drop_append_of_le_length hle]
      rw [drop_append_of_le_length hle] at hmore
      rw [(h.drop hle (Nat.le_of_eq hmore)).scale le_rfl]
    · rename_i hdigit
      rw [if_neg hdigit, h.digit y]
      split at hrule
      · rename_i hdot
        rw [if_pos hdot]
        cases hrule
        have hmore := hmore hlen
        have hle := h.run_le (p := isDigitPart) (fun _ => isNumeral_digit) (by omega)
        have hrun := h.run_eq (p := isDigitPart) (fun _ => isNumeral_digit) (by omega)
        dsimp only
        rw [hrun, drop_append_of_le_length hle, drop_append_of_le_length hle]
        rw [drop_append_of_le_length hle] at hmore
        rw [(h.drop hle (Nat.le_of_eq hmore)).exponent le_rfl]
      · cases hrule

end NumberEnd

end MageUplift.Php
