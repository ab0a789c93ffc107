import MageUplift.Proofs.Heredocs
import MageUplift.Proofs.Outline

/-!
# Where tokens end

A block comment and a string are read by searching for their end, and the search could look at text behind the token.
It does not: when it ended at the last character of the token once, it ends there whatever follows.
-/

namespace MageUplift.Php

open List

variable {n m : Nat} {cs w ρ ρ₀ : List Char} {frames below : List Frame} {c : Char} {top : Frame} {escaped : Bool}
  {p : Char → Bool}

/-! ## §1. Block comments and strings. -/

theorem le_commentEnd? (h : commentEnd? n cs = some m) : n + 2 ≤ m := by
  induction cs generalizing n with
  | nil => cases h
  | cons c cs ih =>
    rw [commentEnd?] at h
    split at h
    · cases h
      exact le_rfl
    · have := ih h
      omega

theorem commentEnd?_append (h : commentEnd? n (w ++ ρ) = some (n + w.length))
    (ρ' : List Char) : commentEnd? n (w ++ ρ') = some (n + w.length) := by
  induction w generalizing n with
  | nil =>
    have := le_commentEnd? h
    rw [length_nil] at this
    omega
  | cons c w ih =>
    rw [cons_append, commentEnd?] at h ⊢
    cases w with
    | nil =>
      split at h
      · rw [length_singleton, Option.some.injEq] at h
        omega
      · have := le_commentEnd? h
        rw [length_singleton] at this
        omega
    | cons d w =>
      have hnext : ∀ σ : List Char, nextIs (· == '/') (d :: w ++ σ) = (d == '/') := fun _ => rfl
      rw [hnext] at h ⊢
      split
      · rename_i hend
        rw [if_pos hend] at h
        exact h
      · rename_i hend
        rw [if_neg hend] at h
        have hlen : n + (c :: d :: w).length = (n + 1) + (d :: w).length := by
          simp only [length_cons]
          omega
        rw [hlen] at h ⊢
        exact ih h

theorem Frame.step_frames (top : Frame) (below : List Frame) (n : Nat) (c : Char) (follower : Option Char) :
    (top.step below n c follower).2 = top :: below ∨ (top.step below n c follower).2 = below
      ∨ ∃ f, (top.step below n c follower).2 = f :: top :: below := by
  cases top with
  | single start =>
    unfold Frame.step
    dsimp only
    split
    · exact .inl rfl
    · split
      · exact .inr (.inl rfl)
      · exact .inl rfl
  | quoted quote start =>
    unfold Frame.step
    dsimp only
    split
    · exact .inl rfl
    · split
      · exact .inr (.inl rfl)
      · split
        · exact .inr (.inr ⟨_, rfl⟩)
        · exact .inl rfl
  | brace =>
    unfold Frame.step
    dsimp only
    split
    · exact .inr (.inr ⟨_, rfl⟩)
    · split
      · exact .inr (.inl rfl)
      · split
        · exact .inr (.inr ⟨_, rfl⟩)
        · split
          · exact .inr (.inr ⟨_, rfl⟩)
          · exact .inl rfl

/-- The outermost of the open frames, if any is open, is a string. -/
def InString (frames : List Frame) : Prop := ∀ f, frames.getLast? = some f → f.start? ≠ none

theorem InString.step (h : InString (top :: below)) (n : Nat) (c : Char)
    (follower : Option Char) : InString (top.step below n c follower).2 := by
  rcases Frame.step_frames top below n c follower with hstep | hstep | ⟨f, hstep⟩
  · rwa [hstep]
  · rw [hstep]
    intro f hf
    cases below with
    | nil => cases hf
    | cons g below => exact h f (by rwa [getLast?_cons_cons])
  · rw [hstep]
    intro g hg
    exact h g (by rwa [getLast?_cons_cons] at hg)

theorem InString.unterminated (h : InString frames) (hnone : frames.filterMap Frame.start? = []) : frames = [] := by
  cases hlast : frames.getLast? with
  | none => exact getLast?_eq_none_iff.mp hlast
  | some f =>
    rw [filterMap_eq_nil_iff] at hnone
    exact absurd (hnone f (mem_of_getLast? hlast)) (h f hlast)

theorem Frame.step_closing {follower : Option Char}
    (h : (top.step below n c follower).2 = []) (follower' : Option Char) :
    top.step below n c follower' = top.step below n c follower := by
  cases top with
  | single start => rfl
  | brace => rfl
  | quoted quote start =>
    unfold Frame.step at h ⊢
    dsimp only at h ⊢
    split
    · rfl
    · split
      · rfl
      · rename_i hesc hquote
        rw [if_neg hesc, if_neg hquote] at h
        split at h <;> cases h

theorem closed_of_stringEnd
    (hframes : InString frames) (h : stringEnd escaped frames n ρ = (n, [])) : frames = [] := by
  cases ρ with
  | nil =>
    rw [stringEnd, Prod.mk.injEq] at h
    exact hframes.unterminated h.2
  | cons c ρ =>
    cases frames with
    | nil => rfl
    | cons top below =>
      -- an open frame would have taken a character along
      have hlt : ∀ e fs, stringEnd e fs (n + 1) ρ ≠ (n, []) := by
        intro e fs heq
        have := le_stringEnd e fs (n + 1) ρ
        rw [heq] at this
        exact Nat.not_succ_le_self n this
      rw [stringEnd] at h
      split at h
      · exact absurd h (hlt _ _)
      · exact absurd h (hlt _ _)

theorem stringEnd_closed (escaped : Bool) (n : Nat) (ρ : List Char) : stringEnd escaped [] n ρ = (n, []) := by
  cases ρ <;> rfl

theorem stringEnd_append (hframes : InString frames) (h : stringEnd escaped frames n (w ++ ρ) = (n + w.length, []))
    (ρ' : List Char) : stringEnd escaped frames n (w ++ ρ') = (n + w.length, []) := by
  induction w generalizing escaped frames n with
  | nil =>
    have hclosed := closed_of_stringEnd hframes h
    subst hclosed
    exact stringEnd_closed escaped n ρ'
  | cons c w ih =>
    have hlen : n + (c :: w).length = (n + 1) + w.length := by
      rw [length_cons]
      omega
    cases frames with
    | nil =>
      rw [stringEnd_closed, Prod.mk.injEq, length_cons] at h
      omega
    | cons top below =>
      rw [cons_append, stringEnd, hlen] at h ⊢
      cases escaped with
      | true => exact ih hframes h
      | false =>
        simp only [Bool.false_eq_true, if_false] at h ⊢
        have hin := hframes.step n c
        cases w with
        | cons d w => exact ih (hin _) h
        | nil =>
          -- the last character closes the string, whatever comes next
          have hclosed := closed_of_stringEnd (hin _) h
          rw [Frame.step_closing hclosed, hclosed]
          exact stringEnd_closed _ _ _

theorem stringEnd_open
    (h : (stringEnd escaped frames n cs).2 ≠ []) : (stringEnd escaped frames n cs).1 = n + cs.length := by
  induction cs generalizing escaped frames n with
  | nil => rfl
  | cons c cs ih =>
    cases frames with
    | nil => exact absurd rfl h
    | cons top below =>
      have hstep : ∀ e fs, (stringEnd e fs (n + 1) cs).2 ≠ [] → (stringEnd e fs (n + 1) cs).1 = n + (c :: cs).length := by
        intro e fs hopen
        rw [ih hopen, length_cons]
        omega
      cases escaped with
      | true => exact hstep _ _ h
      | false => exact hstep _ _ h

theorem phpLexeme_block_append (hstar : nextIs (· == '*') (w ++ ρ₀))
    (hend : commentEnd? 1 ((w ++ ρ₀).drop 1) = some w.length) (last last' : Option Kind) (ρ : List Char) :
    phpLexeme last' '/' (w ++ ρ) = phpLexeme last '/' (w ++ ρ₀) := by
  have hpos := le_commentEnd? hend
  match w, hpos with
  | d :: e :: f :: w, _ =>
    obtain rfl : d = '*' := eq_of_beq hstar
    -- the kind is decided by the first characters of the comment
    have hlex : ∀ last σ, commentEnd? 1 (e :: f :: w ++ σ) = some (1 + (e :: f :: w).length) →
        phpLexeme last '/' ('*' :: e :: f :: w ++ σ)
          = .code (if e == '*' && isBlank f then .docComment else .comment) (1 + (e :: f :: w).length) [] := by
      intro last σ hσ
      refine phpLexeme_rule (show blockCommentRule ∈ wordRules by simp [wordRules]) ?_
      simp only [cons_append] at hσ
      simp [blockCommentRule, nextIs, hσ]
    rw [length_cons, Nat.add_comm] at hend
    rw [hlex last ρ₀ hend, hlex last' ρ (commentEnd?_append hend ρ)]

theorem phpLexeme_string_append {f : Frame} (hf : openingFrame? c = some f)
    (h : stringEnd false [f] 1 (w ++ ρ₀) = (1 + w.length, [])) (last last' : Option Kind) (ρ : List Char) :
    phpLexeme last' c (w ++ ρ) = phpLexeme last c (w ++ ρ₀) := by
  have hin : InString [f] := by
    intro g hg
    cases hg
    simp [openingFrame?_start hf]
  simp only [phpLexeme_string hf, stringLexeme, h, stringEnd_append hin h ρ]

/-! ## §2. No token is longer than the text. -/

theorem run_append (h : run p (w ++ ρ) < w.length) (ρ' : List Char) : run p (w ++ ρ') = run p (w ++ ρ) := by
  -- the run ends inside `w`
  induction w with
  | nil => cases h
  | cons c w ih =>
    unfold run at h ih ⊢
    rw [cons_append, takeWhile_cons] at h ⊢
    rw [cons_append, takeWhile_cons]
    by_cases hc : p c
    · rw [if_pos hc, length_cons, length_cons] at h
      rw [if_pos hc, if_pos hc, length_cons, length_cons, ih (by omega)]
    · rw [if_neg hc, if_neg hc]

theorem run_le (p : Char → Bool) (cs : List Char) : run p cs ≤ cs.length :=
  (List.takeWhile_prefix p).length_le

theorem nameRun_le (cs : List Char) : nameRun cs ≤ cs.length := by
  induction cs with
  | nil => exact le_rfl
  | cons c cs ih =>
    rw [nameRun, length_cons]
    split <;> omega

theorem lineCommentRun_le (cs : List Char) : lineCommentRun 0 cs ≤ cs.length := by
  induction cs with
  | nil => exact le_rfl
  | cons c cs ih =>
    rw [lineCommentRun, length_cons]
    split
    · omega
    · rw [lineCommentRun_add]
      omega

theorem htmlRun_le (cs : List Char) : htmlRun 0 cs ≤ cs.length := by
  induction cs with
  | nil => exact le_rfl
  | cons c cs ih =>
    rw [htmlRun, length_cons]
    split
    · omega
    · rw [htmlRun_add]
      omega

theorem commentEnd?_le (h : commentEnd? n cs = some m) : m ≤ n + cs.length := by
  induction cs generalizing n with
  | nil => cases h
  | cons c cs ih =>
    rw [commentEnd?] at h
    rw [length_cons]
    split at h
    · rename_i hend
      rw [Bool.and_eq_true] at hend
      cases cs with
      | nil => cases hend.2
      | cons d cs =>
        cases h
        rw [length_cons]
        omega
    · have := ih h
      omega

theorem lineBreakLength_le (cs : List Char) : lineBreakLength cs ≤ cs.length := by
  unfold lineBreakLength
  split
  · simp
  · simp
  · simp
  · exact Nat.zero_le _

theorem fractionLength_le (cs : List Char) : fractionLength cs ≤ cs.length := by
  unfold fractionLength
  split
  · rename_i cs
    have := run_le isDigitPart cs
    rw [length_cons]
    split
    · omega
    · split <;> omega
  · exact Nat.zero_le _

theorem exponentLength_le (cs : List Char) : exponentLength cs ≤ cs.length := by
  unfold exponentLength
  split
  · rename_i e cs
    split
    · dsimp only
      generalize (if nextIs (fun c => c == '+' || c == '-') cs then 1 else 0) = sign
      split
      · rename_i hdigit
        have hrun := run_le isDigitPart (cs.drop sign)
        have hsign : sign < cs.length := by
          refine Nat.lt_of_not_le fun hle => ?_
          rw [drop_eq_nil_of_le hle] at hdigit
          cases hdigit
        rw [length_drop] at hrun
        rw [length_cons]
        omega
      · exact Nat.zero_le _
    · exact Nat.zero_le _
  · exact Nat.zero_le _

theorem stringEnd_le (escaped : Bool) (frames : List Frame) (n : Nat) (cs : List Char) :
    (stringEnd escaped frames n cs).1 ≤ n + cs.length := by
  induction cs generalizing escaped frames n with
  | nil => exact le_rfl
  | cons c cs ih =>
    have hlen : n + (c :: cs).length = n + 1 + cs.length := by
      rw [length_cons]
      omega
    rw [hlen]
    cases frames with
    | nil =>
      rw [stringEnd_closed]
      show n ≤ _
      omega
    | cons top below =>
      rw [stringEnd]
      split
      · exact ih _ _ _
      · exact ih _ _ _

theorem openTag?_le {k : Kind} (h : openTag? (c :: cs) = some (k, n)) : n ≤ cs.length := by
  rcases openTag?_cases h with ⟨rest, hcs, -, rfl⟩ | ⟨p, h, q, rest, hcs, -, -, -, hrest, -, rfl⟩
  · cases hcs
    simp
  · cases hcs
    have hbreak := lineBreakLength_le rest
    simp only [length_cons]
    unfold tagBlankLength
    split
    · omega
    · split
      · rename_i hblank
        cases rest with
        | nil => cases hblank
        | cons b rest =>
          rw [length_cons]
          omega
      · omega

theorem length_drop_of_nextIs (h : nextIs p cs) : (cs.drop 1).length + 1 = cs.length := by
  cases cs with
  | nil => cases h
  | cons => rfl

theorem CodeLexeme.length_le {l : Lexeme} (h : CodeLexeme c cs l) : l.length ≤ 1 + cs.length := by
  have hcode : ∀ {k : Kind} {n : Nat} {faults : List (Fault × Nat)}, n ≤ cs.length →
      (Lexeme.code k n faults).length ≤ 1 + cs.length := fun hn => Nat.add_le_add_left hn 1
  have hdigits := run_le isDigitPart cs
  cases h with
  | blanks => exact hcode (run_le _ _)
  | closeTag _ hcs =>
    have := lineBreakLength_le (cs.drop 1)
    have := length_drop_of_nextIs hcs
    show 2 + lineBreakLength (cs.drop 1) ≤ 1 + cs.length
    omega
  | lineComment => exact hcode (lineCommentRun_le _)
  | blockComment _ _ hcs hend =>
    have := commentEnd?_le hend
    have := length_drop_of_nextIs hcs
    exact hcode (by omega)
  | openComment => exact hcode le_rfl
  | variableName => exact hcode (run_le _ _)
  | dollar => exact hcode (Nat.zero_le _)
  | name => exact hcode (nameRun_le _)
  | basedNumber _ hcs =>
    have := run_le isBaseDigitPart (cs.drop 1)
    have := length_drop_of_nextIs hcs
    exact hcode (by omega)
  | number =>
    have hfraction := fractionLength_le (cs.drop (run isDigitPart cs))
    have hexponent :=
      exponentLength_le ((cs.drop (run isDigitPart cs)).drop (fractionLength (cs.drop (run isDigitPart cs))))
    refine hcode ?_
    unfold scaleLength
    dsimp only
    rw [length_drop] at hfraction hexponent
    rw [length_drop] at hexponent
    omega
  | fraction =>
    have hexponent := exponentLength_le (cs.drop (run isDigitPart cs))
    rw [length_drop] at hexponent
    exact hcode (by omega)
  | string => exact stringEnd_le _ _ _ _
  | heredoc _ hcs hopen hend =>
    have hlen := hcs.length_le
    obtain ⟨hlabel, hopening⟩ := heredocOpener?_spec hopen
    have hbody := (heredocEnd?_bounds hlabel hend).2
    rw [length_drop] at hopening hbody
    simp only [length_cons, length_nil] at hlen
    exact hcode (by omega)
  | openHeredoc => exact hcode le_rfl
  | operator _ _ hothers => exact hcode hothers.length_le
  | unexpected => exact hcode (Nat.zero_le _)

theorem lexeme_length_le (mode : Mode) (last : Option Kind) (c : Char) (cs : List Char) :
    (lexeme mode last c cs).length ≤ 1 + cs.length := by
  cases mode with
  | html =>
    show (htmlLexeme c cs).length ≤ _
    unfold htmlLexeme
    split
    · rename_i htag
      exact Nat.add_le_add_left (openTag?_le htag) 1
    · exact Nat.add_le_add_left (htmlRun_le cs) 1
  | php => exact (phpLexeme_spec last c cs).length_le

end MageUplift.Php
