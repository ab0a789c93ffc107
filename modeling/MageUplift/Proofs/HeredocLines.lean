import MageUplift.Proofs.CodeTokens
import MageUplift.Proofs.StringLiterals

/-!
# The heredocs of a text

Where code is read and an opening line begins, a heredoc is read, and nowhere else. It ends at its first closing line, by
line feeds; this is the first one by any line break unless a line behind a carriage return that stands alone closes.
-/

namespace MageUplift.Php

open List Option

variable {cs : List Char} {c : Char}

/-! ## §1. Heredocs in a text. -/

theorem phpLexeme_opener {label opening body : List Char} (h : Opener label opening body)
    (hcs : c :: cs = opening ++ body) (last : Option Kind) :
    (phpLexeme last c cs).kind = .heredoc
      ∧ (phpLexeme last c cs).length = opening.length + (heredocEnd? label true 0 body).getD body.length
      ∧ (phpLexeme last c cs).faults
        = if (heredocEnd? label true 0 body).isSome then [] else [(.unterminatedHeredoc, 0)] := by
  obtain ⟨tail, rfl⟩ : ∃ tail, opening = '<' :: '<' :: '<' :: tail := by
    cases h
    exact ⟨_, rfl⟩
  simp only [cons_append] at hcs
  obtain ⟨rfl, rfl⟩ := cons.inj hcs
  have hopen : heredocOpener? (tail ++ body) = some (label, tail.length) :=
    heredocOpener?_iff.mpr ⟨tail, body, rfl, rfl, h⟩
  have hbody : ('<' :: '<' :: (tail ++ body)).drop (2 + tail.length) = body := by
    rw [Nat.add_comm, drop_succ_cons, drop_succ_cons, drop_left]
  cases hend : heredocEnd? label true 0 body with
  | none =>
    have hrule : heredocRule last '<' ('<' :: '<' :: (tail ++ body))
        = some (.code .heredoc ('<' :: '<' :: (tail ++ body)).length [(.unterminatedHeredoc, 0)]) := by
      simp [heredocRule, hopen, hbody, hend]
    rw [phpLexeme_rule (show heredocRule ∈ wordRules by simp [wordRules]) hrule]
    refine ⟨rfl, ?_, rfl⟩
    simp only [getD_none, Lexeme.code, length_cons, length_append]
    omega
  | some n =>
    have hrule : heredocRule last '<' ('<' :: '<' :: (tail ++ body))
        = some (.code .heredoc (2 + tail.length + n) []) := by
      simp [heredocRule, hopen, hbody, hend]
    rw [phpLexeme_rule (show heredocRule ∈ wordRules by simp [wordRules]) hrule]
    refine ⟨rfl, ?_, rfl⟩
    simp only [getD_some, Lexeme.code, length_cons]
    omega

theorem operators_kind_ne_heredoc : ∀ o ∈ operators, o.kind ≠ .heredoc := by decide

theorem exists_opener {last : Option Kind} (h : (phpLexeme last c cs).kind = .heredoc) :
    ∃ label opening body, c :: cs = opening ++ body ∧ Opener label opening body := by
  obtain rfl : c = '<' := Decidable.byContradiction fun hne => phpLexeme_ne_heredoc last cs hne h
  cases hrule : heredocRule last '<' cs with
  | none =>
    have hword : beginsWord '<' cs = false := by
      simpa [beginsWord, heredocRule, isBlank, isNameStart, openingFrame?] using hrule
    rw [phpLexeme_not_word hword] at h
    cases hop : operatorRule last '<' cs with
    | none =>
      rw [hop] at h
      cases h
    | some l =>
      rw [hop] at h
      obtain ⟨o, ho, rfl⟩ := map_eq_some_iff.mp hop
      exact absurd h (operators_kind_ne_heredoc o (mem_of_find?_eq_some ho))
  | some l =>
    obtain ⟨hangles, hl⟩ := ite_none_right_eq_some.mp hrule
    obtain ⟨⟨label, n⟩, hopen, -⟩ := map_eq_some_iff.mp hl
    obtain ⟨rest, rfl⟩ := isPrefixOf_iff_prefix.mp (Bool.and_eq_true_iff.mp hangles).2
    obtain ⟨tail, body, rfl, -, h⟩ := heredocOpener?_iff.mp hopen
    exact ⟨label, _, body, rfl, h⟩

/-- The token is the heredoc up to `stop`; without a stop it goes on to the end of the text, and that is reported. -/
def LexStep.EndsAt (st : LexStep) (opening body : List Char) : Option Nat → Prop
  | some stop => st.token = ⟨.heredoc, .ofList (opening ++ body.take stop)⟩ ∧ st.errors = []
  | none => st.token = ⟨.heredoc, .ofList (opening ++ body)⟩ ∧ st.errors.map (·.fault.message) = ["unterminated heredoc"]

theorem lexSteps_behind {source : String} {before after : List LexStep} {st : LexStep}
    (hsteps : lexSteps source = before ++ st :: after) (htext : source.toList = charsOf (before.map (·.token)) ++ cs) :
    ∃ seen start, steps (modeBehind .html (before.map (·.token))) seen start cs = st :: after := by
  obtain ⟨seen, start, hread⟩ := steps_behind hsteps
  have hall := charsOf_steps .html none 0 source.toList
  rw [show steps .html none 0 source.toList = _ from hsteps, map_append, charsOf_append, htext] at hall
  rw [append_cancel_left hall] at hread
  exact ⟨seen, start, hread⟩

/-- **Heredocs end at their first closing line.** Where code is read, the next token is a heredoc exactly if the text
that is left begins with an opening line. It ends right behind the label of the first line of its body that closes it;
if no line does, it goes on to the end of the text and is reported. Lines are told apart by line feeds here. By all line
breaks the end is the same if and only if each closing line is, or comes behind, one that a line feed begins. -/
theorem lex_heredoc {source : String} {before after : List LexStep} {st : LexStep} {cs : List Char}
    (hsteps : lexSteps source = before ++ st :: after) (hmode : modeBehind .html (before.map (·.token)) = .php)
    (htext : source.toList = charsOf (before.map (·.token)) ++ cs) :
    (st.token.kind = .heredoc ↔ ∃ label opening body, cs = opening ++ body ∧ Opener label opening body)
      ∧ ∀ label opening body, cs = opening ++ body → Opener label opening body →
        ∃ stop, st.EndsAt opening body stop ∧ HeredocEnd isLineFeed label body stop
          ∧ (HeredocEnd isLineEnd label body stop
            ↔ ∀ n, ClosesAt isLineEnd label body n → ∃ m ≤ n, ClosesAt isLineFeed label body m) := by
  obtain ⟨seen, start, hread⟩ := lexSteps_behind hsteps htext
  rw [hmode] at hread
  cases cs with
  | nil =>
    rw [steps_nil] at hread
    cases hread
  | cons c cs =>
    rw [steps] at hread
    obtain rfl := (List.cons.inj hread).1
    refine ⟨⟨exists_opener, ?_⟩, ?_⟩
    · rintro ⟨label, opening, body, hcs, hopen⟩
      exact (phpLexeme_opener hopen hcs seen).1
    · intro label opening body hcs hopen
      have hlabel : isIdentifier label := by
        cases hopen
        assumption
      have hend := heredocEnd?_end hlabel body
      refine ⟨_, ?_, hend, hend.lineEnd_iff⟩
      obtain ⟨hkind, hlen, hfaults⟩ := phpLexeme_opener hopen hcs seen
      show LexStep.EndsAt ⟨⟨(phpLexeme seen c cs).kind, .ofList ((c :: cs).take (phpLexeme seen c cs).length)⟩,
        (phpLexeme seen c cs).errors start ((c :: cs).take (phpLexeme seen c cs).length)⟩ opening body _
      rw [hkind, hlen, hcs, take_length_add_append, Lexeme.errors, hfaults]
      cases heredocEnd? label true 0 body with
      | none => exact ⟨by rw [Option.getD_none, take_length], rfl⟩
      | some stop => exact ⟨rfl, rfl⟩

/-- The opening line of a heredoc whose label is quoted, in a text where both characters make a line break. -/
def pairedOpening : String := "<<< 'AB'\r\n"

/-- Its first line begins with a longer word, its second one closes. -/
def pairedBody : String := "ABC\r\n\tAB;"

theorem lex_heredoc_paired :
    ∃ tag name equals heredoc semicolon,
      lexSteps ("<?php $a=" ++ pairedOpening ++ pairedBody) = [tag, name, equals, heredoc, semicolon]
      ∧ heredoc.EndsAt pairedOpening.toList pairedBody.toList (some 8)
      ∧ HeredocEnd isLineEnd ['A', 'B'] pairedBody.toList (some 8) := by
  have hsteps : lexSteps ("<?php $a=" ++ pairedOpening ++ pairedBody)
      = [⟨⟨.openTag, "<?php "⟩, []⟩, ⟨⟨.variableName, "$a"⟩, []⟩, ⟨⟨.equals, "="⟩, []⟩,
        ⟨⟨.heredoc, "<<< 'AB'\r\nABC\r\n\tAB"⟩, []⟩, ⟨⟨.semicolon, ";"⟩, []⟩] := by
    decide +kernel
  have htext : ("<?php $a=" ++ pairedOpening ++ pairedBody).toList
      = "<?php $a=".toList ++ (pairedOpening.toList ++ pairedBody.toList) := by
    simp only [String.toList_append, append_assoc]
  have hopen : Opener ['A', 'B'] pairedOpening.toList pairedBody.toList :=
    @Opener.intro _ [' '] _ _ _ (by decide) .single (by decide) .both
  obtain ⟨-, hends⟩ := @lex_heredoc _ [_, _, _] [_] _ _ hsteps rfl htext
  obtain ⟨stop, hstop, -, hiff⟩ := hends _ _ _ rfl hopen
  obtain rfl : stop = some 8 := by
    cases stop with
    | none => cases hstop.2
    | some n =>
      have hlen := congrArg length ((congrArg (·.text.toList) hstop.1).trans String.toList_ofList)
      rw [length_append, length_take] at hlen
      change 18 = 10 + min n 9 at hlen
      rw [Option.some.injEq]
      omega
  exact ⟨_, _, _, _, _, hsteps, hstop,
    hiff.mpr fun n hn => ⟨n, Nat.le_refl n, hn.lineFeed_of_paired (by decide) (by decide)⟩⟩

def returnOpening : String := "<<<X\r"

def returnBody : String := "b\rX;"

/-- By its lines the heredoc ends behind the third character of its body; it is read to the end of the text. -/
theorem lex_heredoc_passes_return :
    ∃ tag name equals heredoc, lexSteps ("<?php $a=" ++ returnOpening ++ returnBody) = [tag, name, equals, heredoc]
      ∧ Opener ['X'] returnOpening.toList returnBody.toList
      ∧ HeredocEnd isLineEnd ['X'] returnBody.toList (some 3)
      ∧ heredoc.EndsAt returnOpening.toList returnBody.toList none
      ∧ ¬ heredoc.EndsAt returnOpening.toList returnBody.toList (some 3) := by
  have hsteps : lexSteps ("<?php $a=" ++ returnOpening ++ returnBody)
      = [⟨⟨.openTag, "<?php "⟩, []⟩, ⟨⟨.variableName, "$a"⟩, []⟩, ⟨⟨.equals, "="⟩, []⟩,
        ⟨⟨.heredoc, "<<<X\rb\rX;"⟩, [⟨.unterminatedHeredoc, 9, 18⟩]⟩] := by
    decide +kernel
  refine ⟨_, _, _, _, hsteps, @Opener.intro _ [] _ _ _ (by decide) .none (by decide) (.carriageReturn (by decide)),
    .closed ⟨⟨['b', '\r'], ['X', ';'], 1, rfl, ?_, ⟨[], [';'], rfl, by decide, rfl, rfl⟩, rfl⟩, ?_⟩, ⟨rfl, rfl⟩, nofun⟩
  · rintro c hc
    cases hc
    rfl
  · -- the label is the third character of the body and no other
    rintro _ ⟨before, _, _, hbody, -, ⟨blanks, rest, rfl, -, -, rfl⟩, rfl⟩
    rw [← append_assoc] at hbody
    have hlen : 2 ≤ (before ++ blanks).length := by
      match hfront : before ++ blanks with
      | [] => rw [hfront] at hbody; cases hbody
      | [_] => rw [hfront] at hbody; cases hbody
      | _ :: _ :: _ => exact Nat.le_add_left 2 _
    rw [length_append] at hlen
    show 3 ≤ before.length + (blanks.length + 1)
    omega

end MageUplift.Php
