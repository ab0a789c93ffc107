import MageUplift.Proofs.TokenJoints

/-!
# A fragment is read as the file behind an open tag

Generated code is read as a fragment, and read once more as a part of the file it goes into. The two readers differ in
three points: a file begins as markup, its positions count from its beginning, and the first word of its code has an
open tag in front of it. None of them matters to the tokens.

Reading is a loop over lexemes, and a lexeme depends on what was read before it by `contextOf` alone. So two readers of
one text that agree in their mode and their context stay in step, and the errors of the one are those of the other,
moved by as many bytes as it is ahead (`steps_in_step`).
-/

namespace MageUplift.Php

/-! ## §1. Errors further behind. -/

/-- The error in a text that `n` bytes more stand in front of. -/
def LexError.behind (n : Nat) (e : LexError) : LexError := ⟨e.fault, n + e.start, n + e.stop⟩

def LexStep.behind (n : Nat) (st : LexStep) : LexStep := ⟨st.token, st.errors.map (LexError.behind n)⟩

theorem Lexeme.errors_behind (l : Lexeme) (n offset : Nat) (chars : List Char) :
    l.errors (n + offset) chars = (l.errors offset chars).map (LexError.behind n) := by
  unfold Lexeme.errors
  rw [List.map_map]
  apply List.map_congr_left
  intro fault _
  show LexError.mk _ (n + offset + _) (n + offset + _) = LexError.mk _ (n + (offset + _)) (n + (offset + _))
  rw [Nat.add_assoc, Nat.add_assoc]

/-! ## §2. Readers in step. -/

theorem contextOf_seen {last last' : Option Kind} (h : contextOf last' = contextOf last) (k : Kind) :
    contextOf (if k.isTrivia then last' else some k) = contextOf (if k.isTrivia then last else some k) := by
  by_cases htriv : k.isTrivia
  · rw [if_pos htriv, if_pos htriv, h]
  · rw [if_neg htriv, if_neg htriv]

/-- **Readers of one text stay in step**, as long as they begin in the same mode and in contexts that mean the same. -/
theorem steps_in_step (n : Nat) (mode : Mode) (last : Option Kind) (offset : Nat) (cs : List Char) :
    ∀ last', contextOf last' = contextOf last →
      steps mode last' (n + offset) cs = (steps mode last offset cs).map (LexStep.behind n) := by
  fun_induction steps mode last offset cs with
  | case1 mode last offset =>
    intro last' _
    rw [steps_nil, List.map_nil]
  | case2 mode last offset c cs l chars seen ih =>
    intro last' hctx
    -- the lexeme is the same, and so the rest is read in the same mode and a context that means the same
    have hlex : lexeme mode last' c cs = l := by
      rw [← lexeme_contextOf, hctx, lexeme_contextOf]
    have hrest := ih _ (contextOf_seen hctx l.kind)
    rw [← Nat.add_assoc] at hrest
    rw [steps, hlex, List.map_cons, ← hrest]
    show LexStep.mk _ (l.errors (n + offset) chars) :: _ = LexStep.behind n ⟨_, l.errors offset chars⟩ :: _
    rw [Lexeme.errors_behind]
    rfl

/-! ## §3. The open tag. -/

/-- All that is wrong with a fragment, in the order in which reading meets it. -/
def fragmentErrors (code : String) : List LexError := (steps .php none 0 code.toList).flatMap LexStep.errors

theorem lexSteps_openTag (code : String) : lexSteps ("<?php " ++ code)
    = ⟨⟨.openTag, "<?php "⟩, []⟩ :: (steps .php none 0 code.toList).map (LexStep.behind 6) := by
  have htext : ("<?php " ++ code).toList = '<' :: '?' :: 'p' :: 'h' :: 'p' :: ' ' :: code.toList := String.toList_append
  have htag : lexeme .html none '<' ('?' :: 'p' :: 'h' :: 'p' :: ' ' :: code.toList) = .code .openTag 5 [] := rfl
  unfold lexSteps
  rw [htext, steps, htag, ← steps_in_step 6 .php none 0 code.toList (some .openTag) rfl]
  rfl

/-- **A fragment is read as the file behind an open tag.** The tokens of the file are the tag and those of the fragment,
and what is wrong with the file is what is wrong with the fragment, six bytes further behind. -/
theorem lex_behind_openTag (code : String) :
    lex ("<?php " ++ code) = ⟨.openTag, "<?php "⟩ :: lexFragment code
      ∧ lexErrors ("<?php " ++ code) = (fragmentErrors code).map (LexError.behind 6) := by
  unfold lex lexErrors lexFragment fragmentErrors
  rw [lexSteps_openTag]
  constructor
  · rw [List.map_cons, List.map_map]
    rfl
  · rw [List.flatMap_cons, List.flatMap_map, List.map_flatMap]
    rfl

/-- Code that leaves the file and comes back, with a reserved word in front and an open string at the end. -/
example : lexErrors "<?php class ?><b><?= \x01'" = (fragmentErrors "class ?><b><?= \x01'").map (LexError.behind 6)
    ∧ fragmentErrors "class ?><b><?= \x01'" = [⟨.unexpectedCharacter, 15, 16⟩, ⟨.unterminatedString, 16, 17⟩] := by
  decide +kernel

end MageUplift.Php
