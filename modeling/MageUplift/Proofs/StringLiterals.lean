import MageUplift.Proofs.TokenReading

/-!
# String literals by their grammar

The lexer reads a string literal with a stack of what is open. The grammar says the same without a stack: a literal
between single quotes holds characters and escapes; one between double quotes or backticks may hold code in braces as
well, where a brace is followed by a dollar sign; and such code goes on to the brace that balances the first, past
nested braces and past literals, which may hold code again.

`Closes` gives, for each thing that can be open, the words that end it. The automaton in front of such a word is
behind it afterwards (`stringEnd_of_closes`), and when it comes to an end with nothing left open, what it has read is
such a word for each of its frames (`closes_of_stringEnd`). Since the automaton has one run, a text has at most
one literal at its front.
-/

namespace MageUplift.Php

open List Option

variable {s : Construct} {w cs : List Char} {top : Frame} {c : Char}

/-! ## §1. The grammar. -/

/-- The quotes between which a literal may hold code. -/
inductive Quote where
  | double | backtick
  deriving Repr, DecidableEq

def Quote.char : Quote → Char
  | .double => '\x22'
  | .backtick => '\x60'

/-- What can be open inside a literal: the literal itself, and the braces around code. -/
inductive Construct where
  | single
  | quoted (q : Quote)
  | braces
  deriving Repr, DecidableEq

/-- **The grammar of literals.** The word ends the construct when it is read behind the opening quote or brace; its last
character is the closing one. -/
inductive Closes : Construct → List Char → Prop where
  | singleEnd : Closes .single ['\x27']
  | singleEscape (c : Char) {w : List Char} (rest : Closes .single w) : Closes .single ('\\' :: c :: w)
  | singleOther {c : Char} {w : List Char} (notEnd : c ≠ '\x27') (notEscape : c ≠ '\\') (rest : Closes .single w) :
      Closes .single (c :: w)
  | quotedEnd (q : Quote) : Closes (.quoted q) [q.char]
  | quotedEscape {q : Quote} (c : Char) {w : List Char} (rest : Closes (.quoted q) w) :
      Closes (.quoted q) ('\\' :: c :: w)
  /-- Code, which begins with a dollar sign behind its brace. -/
  | quotedCode {q : Quote} {u w : List Char} (code : Closes .braces u) (dollar : u.head? = some '$')
      (rest : Closes (.quoted q) w) : Closes (.quoted q) ('{' :: (u ++ w))
  | quotedOther {q : Quote} {c : Char} {w : List Char} (notEnd : c ≠ q.char) (notEscape : c ≠ '\\')
      (notCode : c = '{' → w.head? ≠ some '$') (rest : Closes (.quoted q) w) : Closes (.quoted q) (c :: w)
  | bracesEnd : Closes .braces ['}']
  | bracesNested {u w : List Char} (nested : Closes .braces u) (rest : Closes .braces w) :
      Closes .braces ('{' :: (u ++ w))
  | bracesSingle {u w : List Char} (literal : Closes .single u) (rest : Closes .braces w) :
      Closes .braces ('\x27' :: (u ++ w))
  | bracesDouble {u w : List Char} (literal : Closes (.quoted .double) u) (rest : Closes .braces w) :
      Closes .braces ('\x22' :: (u ++ w))
  | bracesOther {c : Char} {w : List Char} (notNested : c ≠ '{') (notEnd : c ≠ '}') (notSingle : c ≠ '\x27')
      (notDouble : c ≠ '\x22') (rest : Closes .braces w) : Closes .braces (c :: w)

def Construct.quote? : Construct → Option Char
  | .single => some '\x27'
  | .quoted q => some q.char
  | .braces => none

/-- A whole literal, from its opening quote to its closing one. -/
inductive Literal : List Char → Prop where
  | intro {s : Construct} {c : Char} {w : List Char} (opening : s.quote? = some c) (body : Closes s w) : Literal (c :: w)

theorem Closes.ne_nil (h : Closes s w) : w ≠ [] := by
  cases h <;> exact cons_ne_nil _ _

/-- The word ends one construct after the other, the innermost first. -/
def ClosesAll : List Construct → List Char → Prop
  | [], w => w = []
  | s :: outer, w => ∃ u v, w = u ++ v ∧ Closes s u ∧ ClosesAll outer v

/-! ## §2. The automaton follows the grammar. -/

def Construct.frame (start : Nat) : Construct → Frame
  | .single => .single start
  | .quoted q => .quoted q.char start
  | .braces => .brace

theorem Quote.char_ne (q : Quote) : q.char ≠ '\\' ∧ q.char ≠ '{' := by
  cases q <;> decide

section

variable {start n : Nat} {below : List Frame} {c : Char} {cs : List Char}

theorem stringEnd_step :
    stringEnd false (top :: below) n (c :: cs)
      = stringEnd (top.step below n c cs.head?).1 (top.step below n c cs.head?).2 (n + 1) cs := rfl

theorem stringEnd_escaped :
    stringEnd true (top :: below) n (c :: cs) = stringEnd false (top :: below) (n + 1) cs := rfl

theorem step_escape (s : Construct) (hs : s ≠ .braces) (follower : Option Char) :
    (s.frame start).step below n '\\' follower = (true, s.frame start :: below) := by
  cases s with
  | single => rfl
  | quoted q => rfl
  | braces => exact absurd rfl hs

theorem step_single (hesc : c ≠ '\\') (follower : Option Char) :
    (Construct.single.frame start).step below n c follower
      = (false, if c = '\x27' then below else Construct.single.frame start :: below) := by
  simp only [Construct.frame, Frame.step, beq_iff_eq, hesc, if_false]
  split <;> rfl

theorem step_quoted {q : Quote} (hesc : c ≠ '\\') (follower : Option Char) :
    ((Construct.quoted q).frame start).step below n c follower
      = (false, if c = q.char then below
          else if c = '{' ∧ follower = some '$' then .brace :: (Construct.quoted q).frame start :: below
          else (Construct.quoted q).frame start :: below) := by
  simp only [Construct.frame, Frame.step, beq_iff_eq, hesc, if_false, Bool.and_eq_true]
  split
  · rfl
  · split <;> rfl

theorem step_braces (follower : Option Char) :
    (Construct.braces.frame start).step below n c follower
      = (false, if c = '{' then .brace :: .brace :: below else if c = '}' then below
          else if c = '\x27' then .single n :: .brace :: below
          else if c = '\x22' then .quoted '\x22' n :: .brace :: below else .brace :: below) := by
  simp only [Construct.frame, Frame.step, beq_iff_eq]
  split
  · rfl
  · split
    · rfl
    · split
      · rfl
      · split <;> rfl

end

theorem stringEnd_of_closes (h : Closes s w) : ∀ (start : Nat) (below : List Frame) (n : Nat) (rest : List Char),
      stringEnd false (s.frame start :: below) n (w ++ rest) = stringEnd false below (n + w.length) rest := by
  -- one case for each rule: a step of the automaton, and the words behind it
  induction h with
  | singleEnd =>
    intro start below n rest
    rw [singleton_append, stringEnd_step, step_single (by decide), if_pos rfl]
    rfl
  | singleEscape c _ ih =>
    intro start below n rest
    rw [cons_append, cons_append, stringEnd_step, step_escape .single nofun, stringEnd_escaped, ih]
    simp only [length_cons, Nat.add_comm, Nat.add_left_comm]
  | singleOther notEnd notEscape _ ih =>
    intro start below n rest
    rw [cons_append, stringEnd_step, step_single notEscape, if_neg notEnd, ih]
    simp only [length_cons, Nat.add_comm, Nat.add_left_comm]
  | quotedEnd q =>
    intro start below n rest
    rw [singleton_append, stringEnd_step, step_quoted q.char_ne.1, if_pos rfl]
    rfl
  | @quotedEscape q c _ _ ih =>
    intro start below n rest
    rw [cons_append, cons_append, stringEnd_step, step_escape (.quoted q) nofun, stringEnd_escaped, ih]
    simp only [length_cons, Nat.add_comm, Nat.add_left_comm]
  | @quotedCode q u w code dollar _ ihCode ih =>
    intro start below n rest
    have hfollower : ((u ++ w) ++ rest).head? = some '$' := by
      rw [append_assoc, head?_append_of_ne_nil _ code.ne_nil, dollar]
    rw [cons_append, stringEnd_step, step_quoted (by decide), if_neg q.char_ne.2.symm, if_pos ⟨rfl, hfollower⟩,
      append_assoc]
    show stringEnd false (Construct.braces.frame 0 :: _) (n + 1) (u ++ (w ++ rest)) = _
    rw [ihCode, ih]
    simp only [length_cons, length_append, Nat.add_assoc, Nat.add_comm, Nat.add_left_comm]
  | @quotedOther q c w notEnd notEscape notCode closes ih =>
    intro start below n rest
    have hfollower : ¬ (c = '{' ∧ (w ++ rest).head? = some '$') := by
      rw [head?_append_of_ne_nil _ closes.ne_nil]
      exact fun h => notCode h.1 h.2
    rw [cons_append, stringEnd_step, step_quoted notEscape, if_neg notEnd, if_neg hfollower, ih]
    simp only [length_cons, Nat.add_comm, Nat.add_left_comm]
  | bracesEnd =>
    intro start below n rest
    rw [singleton_append, stringEnd_step, step_braces]
    rfl
  | @bracesNested u w _ _ ihNested ih =>
    intro start below n rest
    rw [cons_append, stringEnd_step, step_braces, append_assoc]
    show stringEnd false (Construct.braces.frame 0 :: Construct.braces.frame 0 :: below) (n + 1) (u ++ (w ++ rest)) = _
    rw [ihNested, ih]
    simp only [length_cons, length_append, Nat.add_assoc, Nat.add_comm, Nat.add_left_comm]
  | @bracesSingle u w _ _ ihLiteral ih =>
    intro start below n rest
    rw [cons_append, stringEnd_step, step_braces, append_assoc]
    show stringEnd false (Construct.single.frame n :: Construct.braces.frame 0 :: below) (n + 1) (u ++ (w ++ rest)) = _
    rw [ihLiteral, ih]
    simp only [length_cons, length_append, Nat.add_assoc, Nat.add_comm, Nat.add_left_comm]
  | @bracesDouble u w _ _ ihLiteral ih =>
    intro start below n rest
    rw [cons_append, stringEnd_step, step_braces, append_assoc]
    show stringEnd false ((Construct.quoted .double).frame n :: Construct.braces.frame 0 :: below) (n + 1)
      (u ++ (w ++ rest)) = _
    rw [ihLiteral, ih]
    simp only [length_cons, length_append, Nat.add_assoc, Nat.add_comm, Nat.add_left_comm]
  | bracesOther notNested notEnd notSingle notDouble _ ih =>
    intro start below n rest
    rw [cons_append, stringEnd_step, step_braces, if_neg notNested, if_neg notEnd, if_neg notSingle, if_neg notDouble]
    show stringEnd false (Construct.braces.frame 0 :: below) (n + 1) _ = _
    rw [ih]
    simp only [length_cons, Nat.add_comm, Nat.add_left_comm]

/-! ## §3. What the automaton has read is in the grammar. -/

def framesOf (opened : List (Construct × Nat)) : List Frame := opened.map fun o => o.1.frame o.2

theorem framesOf_cons (o : Construct × Nat) (outer : List (Construct × Nat)) :
    framesOf (o :: outer) = o.1.frame o.2 :: framesOf outer := rfl

/-- **One step of the automaton, backwards.** It is an escape, or it leads to constructs such that a word that ends those,
with the character in front, ends what was open before. -/
theorem step_closesAll (s : Construct) (start : Nat) (outer : List (Construct × Nat)) (n : Nat) (c : Char)
    (follower : Option Char) :
    (c = '\\' ∧ s ≠ .braces)
      ∨ ∃ opened, (s.frame start).step (framesOf outer) n c follower = (false, framesOf opened)
        ∧ ∀ w, (w ≠ [] → w.head? = follower) → ClosesAll (opened.map Prod.fst) w →
          ClosesAll (s :: outer.map Prod.fst) (c :: w) := by
  cases s with
  | single =>
    by_cases hesc : c = '\\'
    · exact .inl ⟨hesc, nofun⟩
    rw [step_single hesc]
    by_cases hend : c = '\x27'
    · subst hend
      exact .inr ⟨outer, rfl, fun w _ hw => ⟨['\x27'], w, rfl, .singleEnd, hw⟩⟩
    · rw [if_neg hend]
      refine .inr ⟨(.single, start) :: outer, rfl, ?_⟩
      rintro w - ⟨u, v, rfl, hu, hv⟩
      exact ⟨c :: u, v, rfl, .singleOther hend hesc hu, hv⟩
  | quoted q =>
    by_cases hesc : c = '\\'
    · exact .inl ⟨hesc, nofun⟩
    rw [step_quoted hesc]
    by_cases hend : c = q.char
    · subst hend
      rw [if_pos rfl]
      exact .inr ⟨outer, rfl, fun w _ hw => ⟨[q.char], w, rfl, .quotedEnd q, hw⟩⟩
    rw [if_neg hend]
    by_cases hcode : c = '{' ∧ follower = some '$'
    · obtain ⟨rfl, rfl⟩ := hcode
      rw [if_pos ⟨rfl, rfl⟩]
      refine .inr ⟨(.braces, 0) :: (.quoted q, start) :: outer, rfl, ?_⟩
      rintro w hfollower ⟨code, _, rfl, hcode, u, v, rfl, hu, hv⟩
      have hdollar : code.head? = some '$' := by
        rw [← hfollower (by simp [hcode.ne_nil]), head?_append_of_ne_nil _ hcode.ne_nil]
      exact ⟨'{' :: (code ++ u), v, by simp, .quotedCode hcode hdollar hu, hv⟩
    · rw [if_neg hcode]
      refine .inr ⟨(.quoted q, start) :: outer, rfl, ?_⟩
      rintro w hfollower ⟨u, v, rfl, hu, hv⟩
      refine ⟨c :: u, v, rfl, .quotedOther hend hesc (fun hc hdollar => hcode ⟨hc, ?_⟩) hu, hv⟩
      rw [← hfollower (by simp [hu.ne_nil]), head?_append_of_ne_nil _ hu.ne_nil, hdollar]
  | braces =>
    rw [step_braces]
    -- whatever is opened inside the braces is closed before the braces are
    have inner : ∀ {s : Construct} (opening : ∀ {u w}, Closes s u → Closes .braces w → Closes .braces (c :: (u ++ w)))
        (w : List Char), ClosesAll (s :: .braces :: outer.map Prod.fst) w →
          ClosesAll (.braces :: outer.map Prod.fst) (c :: w) := by
      rintro s opening w ⟨inside, _, rfl, hin, u, v, rfl, hu, hv⟩
      exact ⟨c :: (inside ++ u), v, by simp, opening hin hu, hv⟩
    by_cases hnested : c = '{'
    · subst hnested
      exact .inr ⟨(.braces, 0) :: (.braces, 0) :: outer, rfl, fun w _ => inner .bracesNested w⟩
    rw [if_neg hnested]
    by_cases hend : c = '}'
    · subst hend
      exact .inr ⟨outer, rfl, fun w _ hw => ⟨['}'], w, rfl, .bracesEnd, hw⟩⟩
    rw [if_neg hend]
    by_cases hsingle : c = '\x27'
    · subst hsingle
      exact .inr ⟨(.single, n) :: (.braces, 0) :: outer, rfl, fun w _ => inner .bracesSingle w⟩
    rw [if_neg hsingle]
    by_cases hdouble : c = '\x22'
    · subst hdouble
      exact .inr ⟨(.quoted .double, n) :: (.braces, 0) :: outer, rfl, fun w _ => inner .bracesDouble w⟩
    rw [if_neg hdouble]
    refine .inr ⟨(.braces, 0) :: outer, rfl, ?_⟩
    rintro w - ⟨u, v, rfl, hu, hv⟩
    exact ⟨c :: u, v, rfl, .bracesOther hnested hend hsingle hdouble hu, hv⟩

theorem ClosesAll.escape {outer : List Construct} (hs : s ≠ .braces) (c : Char)
    (h : ClosesAll (s :: outer) w) : ClosesAll (s :: outer) ('\\' :: c :: w) := by
  obtain ⟨u, v, rfl, hu, hv⟩ := h
  refine ⟨'\\' :: c :: u, v, rfl, ?_, hv⟩
  cases s with
  | single => exact .singleEscape c hu
  | quoted q => exact .quotedEscape c hu
  | braces => exact absurd rfl hs

theorem stringEnd_nil_ne {o : Construct × Nat} {outer : List (Construct × Nat)} (hopen : InString (framesOf (o :: outer)))
    (escaped : Bool) (n : Nat) : (stringEnd escaped (framesOf (o :: outer)) n []).2 ≠ [] :=
  fun h => cons_ne_nil _ _ (hopen.unterminated h)

theorem closes_of_stringEnd {opened : List (Construct × Nat)} {n : Nat}
    (hopen : InString (framesOf opened)) (h : (stringEnd false (framesOf opened) n cs).2 = []) :
    ∃ w rest, cs = w ++ rest ∧ (stringEnd false (framesOf opened) n cs).1 = n + w.length
      ∧ ClosesAll (opened.map Prod.fst) w := by
  -- by the length of the text, because an escape takes two characters
  induction hlen : cs.length using Nat.strongRecOn generalizing opened n cs with
  | ind len ih =>
    cases opened with
    | nil =>
      refine ⟨[], cs, rfl, ?_, rfl⟩
      rw [show framesOf [] = [] from rfl, stringEnd_closed]
      rfl
    | cons o outer =>
      cases cs with
      | nil => exact absurd h (stringEnd_nil_ne hopen false n)
      | cons c cs =>
        rw [length_cons] at hlen
        have hin : InString ((o.1.frame o.2).step (framesOf outer) n c cs.head?).2 := hopen.step n c cs.head?
        rw [framesOf_cons, stringEnd_step] at h ⊢
        rcases step_closesAll o.1 o.2 outer n c cs.head? with ⟨rfl, hs⟩ | ⟨opened, hstep, hback⟩
        · rw [step_escape o.1 hs, ← framesOf_cons] at h ⊢
          cases cs with
          | nil => exact absurd h (stringEnd_nil_ne hopen true (n + 1))
          | cons d cs =>
            rw [length_cons] at hlen
            rw [framesOf_cons, stringEnd_escaped, ← framesOf_cons] at h ⊢
            obtain ⟨w, rest, rfl, hend, hw⟩ := ih cs.length (by omega) hopen h rfl
            refine ⟨'\\' :: d :: w, rest, rfl, ?_, hw.escape hs d⟩
            rw [hend, length_cons, length_cons]
            omega
        · rw [hstep] at h hin ⊢
          obtain ⟨w, rest, rfl, hend, hw⟩ := ih cs.length (by omega) hin h rfl
          refine ⟨c :: w, rest, rfl, ?_, hback w (fun hne => (head?_append_of_ne_nil w hne).symm) hw⟩
          rw [hend, length_cons]
          omega

/-! ## §4. Literals. -/

/-- **A literal is read without a fault exactly where the grammar has one**, and then it is that one. -/
theorem stringLexeme_faultless_iff (hs : s.quote? = some c) (cs : List Char) :
    ((stringLexeme (s.frame 0) cs).faults = [] ↔ ∃ w, w <+: cs ∧ Closes s w)
      ∧ ∀ w, w <+: cs → Closes s w → (stringLexeme (s.frame 0) cs).length = 1 + w.length := by
  have hfaults : (stringLexeme (s.frame 0) cs).faults = [] ↔ (stringEnd false (framesOf [(s, 0)]) 1 cs).2 = [] :=
    map_eq_nil_iff
  have hread : ∀ w, w <+: cs → Closes s w → stringEnd false (framesOf [(s, 0)]) 1 cs = (1 + w.length, []) := by
    rintro w ⟨rest, rfl⟩ hw
    rw [framesOf_cons, stringEnd_of_closes hw]
    exact stringEnd_closed false _ rest
  refine ⟨hfaults.trans ⟨fun h => ?_, fun ⟨w, hpre, hw⟩ => by rw [hread w hpre hw]⟩, fun w hpre hw => ?_⟩
  · have hopen : InString (framesOf [(s, 0)]) := by
      rintro f hf
      cases hf
      cases s with
      | single => exact nofun
      | quoted q => exact nofun
      | braces => cases hs
    obtain ⟨_, rest, rfl, -, u, _, rfl, hu, rfl⟩ := closes_of_stringEnd hopen h
    exact ⟨u, ⟨rest, by rw [append_nil]⟩, hu⟩
  · show (stringEnd false (framesOf [(s, 0)]) 1 cs).1 = _
    rw [hread w hpre hw]

theorem Construct.quote?_inj {s' : Construct} (h : s.quote? = some c) (h' : s'.quote? = some c) : s = s' := by
  -- no two constructs have the same quote
  have hone : ∀ q q' : Quote, q.char ≠ '\x27' ∧ (q.char = q'.char → q = q') := by
    rintro (_ | _) (_ | _) <;> decide
  cases s with
  | braces => cases h
  | single =>
    cases s' with
    | braces => cases h'
    | single => rfl
    | quoted q => exact absurd (some.inj (h'.trans h.symm)) (hone q q).1
  | quoted q =>
    cases s' with
    | braces => cases h'
    | single => exact absurd (some.inj (h.trans h'.symm)) (hone q q).1
    | quoted q' => rw [(hone q q').2 (some.inj (h.trans h'.symm))]

theorem literal_cons_iff (h : s.quote? = some c) : Literal (c :: w) ↔ Closes s w := by
  refine ⟨fun hw => ?_, .intro h⟩
  cases hw with
  | intro opening body => rwa [Construct.quote?_inj h opening]

theorem exists_quote?_iff : (∃ s : Construct, s.quote? = some c) ↔ c = '\x27' ∨ c = '\x22' ∨ c = '\x60' := by
  constructor
  · rintro ⟨s, hs⟩
    cases s with
    | single => exact .inl (some.inj hs).symm
    | braces => cases hs
    | quoted q =>
      cases q with
      | double => exact .inr (.inl (some.inj hs).symm)
      | backtick => exact .inr (.inr (some.inj hs).symm)
  · rintro (rfl | rfl | rfl)
    · exact ⟨.single, rfl⟩
    · exact ⟨.quoted .double, rfl⟩
    · exact ⟨.quoted .backtick, rfl⟩

theorem openingFrame?_quote (h : s.quote? = some c) : openingFrame? c = some (s.frame 0) := by
  cases s with
  | single =>
    cases h
    rfl
  | braces => cases h
  | quoted q =>
    cases h
    cases q <;> rfl

/-! ## §5. Literals in a text. -/

/-- The mode in which reading goes on behind some tokens, when it began in `mode`. -/
def modeBehind (mode : Mode) (tokens : List Token) : Mode := (tokens.getLast?.map (·.kind.nextMode)).getD mode

theorem modeBehind_cons (mode : Mode) (t : Token) (tokens : List Token) :
    modeBehind mode (t :: tokens) = modeBehind t.kind.nextMode tokens := by
  cases tokens with
  | nil => rfl
  | cons t' tokens =>
    rw [modeBehind, modeBehind, getLast?_cons_cons, getLast?_cons]
    rfl

theorem steps_behind {mode : Mode} {last : Option Kind} {offset : Nat} {before after : List LexStep}
    (h : steps mode last offset cs = before ++ after) :
    ∃ seen start, steps (modeBehind mode (before.map (·.token))) seen start (charsOf (after.map (·.token))) = after := by
  induction before generalizing mode last offset cs with
  | nil =>
    refine ⟨last, offset, ?_⟩
    rw [← nil_append after, ← h, charsOf_steps]
    rfl
  | cons st before ih =>
    cases cs with
    | nil =>
      rw [steps_nil] at h
      cases h
    | cons c cs =>
      rw [steps, cons_append, cons.injEq] at h
      obtain ⟨rfl, h⟩ := h
      rw [map_cons, modeBehind_cons, ← (lexeme_inMode mode last c cs).2]
      exact ih h

/-- **String literals follow their grammar.** Where code is read and the next character `c` is a quote, the next token is
a string literal. Nothing is wrong with it exactly if the text that is left begins with a literal of the grammar; the
token is that literal then, so that there is no other. -/
theorem lex_string_literal {source : String} {before after : List LexStep} {st : LexStep} {c : Char} {cs : List Char}
    (hsteps : lexSteps source = before ++ st :: after) (hmode : modeBehind .html (before.map (·.token)) = .php)
    (htext : source.toList = charsOf (before.map (·.token)) ++ c :: cs) (hquote : c = '\x27' ∨ c = '\x22' ∨ c = '\x60') :
    st.token.kind = .stringLiteral
      ∧ (st.errors = [] ↔ ∃ p, p <+: c :: cs ∧ Literal p)
      ∧ ∀ p, p <+: c :: cs → Literal p → st.token.text = String.ofList p := by
  obtain ⟨s, hs⟩ := exists_quote?_iff.mpr hquote
  -- the token is the first of the text that is left
  have hleft : charsOf ((st :: after).map (·.token)) = c :: cs := by
    have hall := charsOf_steps .html none 0 source.toList
    rw [show steps .html none 0 source.toList = _ from hsteps, map_append, charsOf_append, htext] at hall
    exact append_cancel_left hall
  obtain ⟨seen, start, hread⟩ := steps_behind hsteps
  rw [hleft, hmode, steps] at hread
  have hlex : lexeme .php seen c cs = stringLexeme (s.frame 0) cs := phpLexeme_string (openingFrame?_quote hs) seen cs
  rw [hlex] at hread
  obtain rfl := (List.cons.inj hread).1
  obtain ⟨hfaults, hlen⟩ := stringLexeme_faultless_iff hs cs
  refine ⟨rfl, (List.map_eq_nil_iff.trans hfaults).trans ⟨?_, ?_⟩, ?_⟩
  · rintro ⟨w, hw, hcloses⟩
    exact ⟨c :: w, (cons_prefix_cons).mpr ⟨rfl, hw⟩, .intro hs hcloses⟩
  · rintro ⟨_ | ⟨d, w⟩, hp, hlit⟩
    · cases hlit
    · obtain ⟨rfl, hw⟩ := List.cons_prefix_cons.mp hp
      exact ⟨w, hw, (literal_cons_iff hs).mp hlit⟩
  · rintro (_ | ⟨d, w⟩) hp hlit
    · cases hlit
    · obtain ⟨rfl, hw⟩ := List.cons_prefix_cons.mp hp
      show String.ofList ((d :: cs).take (stringLexeme (s.frame 0) cs).length) = _
      rw [hlen w hw ((literal_cons_iff hs).mp hlit), Nat.add_comm]
      exact congrArg String.ofList (List.prefix_iff_eq_take.mp hp).symm

/-- A literal with code that holds a brace in a literal of its own, and a literal that holds code again. -/
def nestedLiteral : String := "\"a\\\"\x7b$b['\x7d'][\"\x7b$c\x7d\"]\x7d\""

def openLiteral : String := "`\x7b$d\""

/-- The one is a literal of the grammar; no literal begins the other, and both of its quotes are reported. -/
theorem lex_string_literal_nested :
    ∃ tag closed dot left, lexSteps ("<?php " ++ nestedLiteral ++ "." ++ openLiteral) = [tag, closed, dot, left]
      ∧ closed.token.text = nestedLiteral ∧ closed.errors = [] ∧ Literal nestedLiteral.toList
      ∧ left.token.text = openLiteral ∧ left.errors.length = 2 ∧ ¬ ∃ p, p <+: openLiteral.toList ∧ Literal p := by
  have hsteps : lexSteps ("<?php " ++ nestedLiteral ++ "." ++ openLiteral)
      = [⟨⟨.openTag, "<?php "⟩, []⟩, ⟨⟨.stringLiteral, nestedLiteral⟩, []⟩, ⟨⟨.dot, "."⟩, []⟩,
        ⟨⟨.stringLiteral, openLiteral⟩, [⟨.unterminatedString, 33, 34⟩, ⟨.unterminatedString, 29, 34⟩]⟩] := by
    decide +kernel
  have htext : ("<?php " ++ nestedLiteral ++ "." ++ openLiteral).toList
      = "<?php ".toList ++ (nestedLiteral.toList ++ (".".toList ++ openLiteral.toList)) := by
    simp only [String.toList_append, append_assoc]
  refine ⟨_, _, _, _, hsteps, rfl, rfl, ?_, rfl, rfl, ?_⟩
  · obtain ⟨-, hiff, htoken⟩ := @lex_string_literal _ [_] [_, _] _ _ _ hsteps rfl htext (.inr (.inl rfl))
    obtain ⟨p, hp, hlit⟩ := hiff.mp rfl
    rw [show nestedLiteral = _ from htoken p hp hlit, String.toList_ofList]
    exact hlit
  · obtain ⟨-, hiff, -⟩ := @lex_string_literal _ [_, _, _] [] _ _ _ hsteps rfl htext (.inr (.inr rfl))
    exact fun h => cons_ne_nil _ _ (hiff.mpr h)

end MageUplift.Php
