import MageUplift.Php.ClassName
import MageUplift.Proofs.Brackets

/-!
# The lexemes of code

The rules for code are tried one after the other, and each looks at the text in its own way. What they can read is
said once, as a relation with one case for each way through a rule; what holds of every lexeme of code is then shown
case by case, without the rules.
-/

/-! ## §1. Characters and words. -/

namespace MageUplift

open Php

/-- What holds of the characters of a text is decided character by character. -/
instance (priority := high) decidableForallMem {p : Char → Prop} [DecidablePred p] (cs : List Char) :
    Decidable (∀ x ∈ cs, p x) := List.decidableBAll p cs

theorem toList_toLower (s : String) : s.toLower.toList = s.toList.map Char.toLower := String.toList_map

theorem isAlpha_eq (c : Char) : c.isAlpha = (decide ('A'.val ≤ c.val ∧ c.val ≤ 'Z'.val)
    || (decide ('a'.val ≤ c.val) && decide (c.val ≤ 'z'.val))) := rfl

def IsNameText (cs : List Char) : Prop := ∀ x ∈ cs, isNamePart x = true

instance (cs : List Char) : Decidable (IsNameText cs) :=
  inferInstanceAs (Decidable (∀ x ∈ cs, isNamePart x = true))

theorem Php.namePart_of_start {c : Char} (h : isNameStart c) : isNamePart c := by
  simp only [isNameStart, isNamePart, Bool.or_eq_true, Char.isAlphanum] at *
  rcases h with (h | h) | h <;> simp [h]

theorem nameText_identifier {cs : List Char} (h : isIdentifier cs) : IsNameText cs := by
  cases cs with
  | nil => cases h
  | cons c cs =>
    rw [isIdentifier, Bool.and_eq_true, List.all_eq_true] at h
    intro x hx
    rcases List.mem_cons.mp hx with rfl | hx
    · exact namePart_of_start h.1
    · exact h.2 x hx

theorem isIdentifier_iff {cs : List Char} : isIdentifier cs ↔ nextIs isNameStart cs ∧ IsNameText cs := by
  refine ⟨fun h => ⟨?_, nameText_identifier h⟩, fun ⟨hstart, hname⟩ => ?_⟩
  · cases cs with
    | nil => cases h
    | cons c cs => exact (Bool.and_eq_true_iff.mp h).1
  · cases cs with
    | nil => cases hstart
    | cons c cs =>
      rw [isIdentifier, Bool.and_eq_true, List.all_eq_true]
      exact ⟨hstart, (List.forall_mem_cons.mp hname).2⟩

end MageUplift

namespace MageUplift.Php

open List
open Option hiding or_assoc

variable {c : Char} {cs w rest : List Char} {p : Char → Bool}

theorem mem_digits {c : Char} (h : c.isDigit) : c ∈ ['0', '1', '2', '3', '4', '5', '6', '7', '8', '9'] := by
  have hbounds : 48 ≤ c.toNat ∧ c.toNat ≤ 57 := by
    simp only [Char.isDigit, Bool.and_eq_true, decide_eq_true_eq, ge_iff_le] at h
    exact h
  rw [← Char.ofNat_toNat c]
  obtain ⟨h₁, h₂⟩ := hbounds
  generalize c.toNat = n at h₁ h₂
  have hall : ∀ n : Fin 58, 48 ≤ n.val → Char.ofNat n.val ∈ ['0', '1', '2', '3', '4', '5', '6', '7', '8', '9'] :=
    by decide
  exact hall ⟨n, by omega⟩ h₁

theorem mem_blanks (h : isBlank c) : c ∈ [' ', '\t', '\n', '\r', '\x0b', '\x0c'] := by
  simpa [isBlank, or_assoc] using h

theorem cons_of_nextIs (h : nextIs p cs) : ∃ c w, cs = c :: w ∧ p c := by
  cases cs with
  | nil => cases h
  | cons c w => exact ⟨c, w, rfl, h⟩

theorem nextIs_or (p q : Char → Bool) (cs : List Char) :
    nextIs (fun x => p x || q x) cs = (nextIs p cs || nextIs q cs) := by
  cases cs <;> rfl

theorem nextIs_append (hw : w ≠ []) (ρ : List Char) : nextIs p (w ++ ρ) = nextIs p w := by
  cases w with
  | nil => exact absurd rfl hw
  | cons c w => rfl

theorem nextIs_dropWhile (p : Char → Bool) (cs : List Char) : nextIs p (cs.dropWhile p) = false := by
  have hnot := head?_dropWhile_not p cs
  rw [nextIs]
  cases hhead : (cs.dropWhile p).head? with
  | none => rfl
  | some c =>
    rw [hhead] at hnot
    exact hnot

theorem takeWhile_of_all (hw : ∀ x ∈ w, p x) (hrest : nextIs p rest = false) : (w ++ rest).takeWhile p = w := by
  have hnone : rest.takeWhile p = [] := by
    cases rest with
    | nil => rfl
    | cons c cs => exact takeWhile_cons_of_neg (by simpa [nextIs] using hrest)
  rw [takeWhile_append_of_pos hw, hnone, append_nil]

theorem run_eq_length_iff : run p (w ++ rest) = w.length ↔ (∀ x ∈ w, p x) ∧ nextIs p rest = false := by
  induction w with
  | nil => cases rest <;> simp [run, nextIs, takeWhile_cons]
  | cons c w ih =>
    unfold run at ih ⊢
    by_cases hc : p c = true <;> simp [hc, ← ih]

theorem run_of_all (hw : ∀ x ∈ w, p x) (hrest : nextIs p rest = false) : run p (w ++ rest) = w.length :=
  run_eq_length_iff.mpr ⟨hw, hrest⟩

theorem wordKind_cases (last : Option Kind) (word : String) :
    wordKind last word = .identifier ∨ ∃ k, wordKind last word = .keyword k := by
  have hres : ((Keyword.ofWord? word).map Kind.keyword).getD .identifier = .identifier
      ∨ ∃ k, ((Keyword.ofWord? word).map Kind.keyword).getD .identifier = .keyword k := by
    cases Keyword.ofWord? word with
    | none => exact .inl rfl
    | some k => exact .inr ⟨k, rfl⟩
  unfold wordKind
  dsimp only
  split
  · exact .inl rfl
  · exact .inl rfl
  · exact .inl rfl
  · exact .inl rfl
  · split
    · exact hres
    · exact .inl rfl
  · exact hres

inductive IsNameKind : Kind → Prop
  | qualified : IsNameKind .qualifiedName
  | identifier : IsNameKind .identifier
  | keyword (k : Keyword) : IsNameKind (.keyword k)

theorem isNameKind_wordKind (last : Option Kind) (word : String) : IsNameKind (wordKind last word) := by
  obtain h | ⟨k, h⟩ := wordKind_cases last word <;> rw [h]
  · exact .identifier
  · exact .keyword k

/-! ## §2. What the rules read. -/

/-- The frame that an opening quote starts with. -/
def openingFrame? (c : Char) : Option Frame :=
  if c == '\x27' then some (.single 0)
  else if c == '\x22' || c == '\x60' then some (.quoted c 0) else none

theorem openingFrame?_start {f : Frame} (h : openingFrame? c = some f) : f.start? = some 0 := by
  unfold openingFrame? at h
  split at h
  · cases h
    rfl
  · obtain ⟨-, ⟨⟩⟩ := ite_none_right_eq_some.mp h
    rfl

/-- The lexemes that can be read from `c :: cs` inside code. -/
inductive CodeLexeme (c : Char) (cs : List Char) : Lexeme → Prop
  | blanks (hc : isBlank c = true) : CodeLexeme c cs (.code .whitespace (run isBlank cs) [])
  | closeTag (hc : c = '?') (hcs : nextIs (· == '>') cs = true) :
    CodeLexeme c cs ⟨.closeTag, 2 + lineBreakLength (cs.drop 1), [], .html, Nat.add_pos_left Nat.two_pos _⟩
  | lineComment (hc : c = '/' ∧ nextIs (· == '/') cs = true ∨ c = '#' ∧ nextIs (· == '[') cs = false) :
    CodeLexeme c cs (.code .comment (lineCommentRun 0 cs) [])
  | blockComment {kind : Kind} {n : Nat} (hkind : kind = .docComment ∨ kind = .comment) (hc : c = '/')
    (hcs : nextIs (· == '*') cs = true) (hend : commentEnd? 1 (cs.drop 1) = some n) : CodeLexeme c cs (.code kind n [])
  | openComment {kind : Kind} (hkind : kind = .docComment ∨ kind = .comment) (hc : c = '/') :
    CodeLexeme c cs (.code kind cs.length [(.unterminatedComment, 0)])
  | variableName (hc : c = '$') : CodeLexeme c cs (.code .variableName (run isNamePart cs) [])
  | dollar (hc : c = '$') : CodeLexeme c cs (.code .dollar 0 [])
  | name {kind : Kind} (hkind : IsNameKind kind) (hc : isNameStart c = true ∨ c = '\\') :
    CodeLexeme c cs (.code kind (nameRun cs) [])
  | basedNumber (hc : c = '0') (hcs : nextIs (fun x => ['x', 'X', 'b', 'B', 'o', 'O'].contains x) cs = true) :
    CodeLexeme c cs (.code .number (1 + run isBaseDigitPart (cs.drop 1)) [])
  | number (hc : c.isDigit = true) :
    CodeLexeme c cs (.code .number (run isDigitPart cs + scaleLength (cs.drop (run isDigitPart cs))) [])
  | fraction (hc : c = '.') :
    CodeLexeme c cs (.code .number (run isDigitPart cs + exponentLength (cs.drop (run isDigitPart cs))) [])
  | string {frame : Frame} (hc : openingFrame? c = some frame) : CodeLexeme c cs (stringLexeme frame cs)
  | heredoc {label : List Char} {opening n : Nat} (hc : c = '<') (hcs : ['<', '<'] <+: cs)
    (hopener : heredocOpener? (cs.drop 2) = some (label, opening))
    (hend : heredocEnd? label true 0 (cs.drop (2 + opening)) = some n) :
    CodeLexeme c cs (.code .heredoc (2 + opening + n) [])
  | openHeredoc (hc : c = '<') : CodeLexeme c cs (.code .heredoc cs.length [(.unterminatedHeredoc, 0)])
  | operator {o : Operator} (ho : o ∈ operators) (hc : o.first = c) (hcs : o.others <+: cs) :
    CodeLexeme c cs (.code o.kind o.others.length [])
  | unexpected {last : Option Kind} (h : ∀ rule ∈ phpRules, rule last c cs = none) :
    CodeLexeme c cs (.code .error 0 [(.unexpectedCharacter, 0)])

theorem stringRule_eq (last : Option Kind) (c : Char) (cs : List Char) :
    stringRule last c cs = (openingFrame? c).map fun f => stringLexeme f cs := by
  rw [openingFrame?, stringRule]
  split
  · rfl
  · split <;> rfl

theorem Rule.reads {rule : Rule} (hrule : rule ∈ phpRules) {last : Option Kind} {l : Lexeme}
    (hl : rule last c cs = some l) : CodeLexeme c cs l := by
  simp only [phpRules, mem_cons, not_mem_nil, or_false] at hrule
  rcases hrule with rfl | rfl | rfl | rfl | rfl | rfl | rfl | rfl | rfl | rfl
  · obtain ⟨hc, ⟨⟩⟩ := ite_none_right_eq_some.mp hl
    exact .blanks hc
  · obtain ⟨htag, ⟨⟩⟩ := ite_none_right_eq_some.mp hl
    rw [Bool.and_eq_true, beq_iff_eq] at htag
    exact .closeTag htag.1 htag.2
  · obtain ⟨hopen, ⟨⟩⟩ := ite_none_right_eq_some.mp hl
    exact .lineComment (by simpa using hopen)
  · obtain ⟨hopen, hl⟩ := ite_none_right_eq_some.mp hl
    rw [Bool.and_eq_true, beq_iff_eq] at hopen
    have hkind : ∀ b : Bool, (if b then Kind.docComment else .comment) = .docComment
        ∨ (if b then Kind.docComment else .comment) = .comment := by decide
    dsimp only at hl
    split at hl
    · rename_i n hend
      cases hl
      exact .blockComment (hkind _) hopen.1 hopen.2 hend
    · cases hl
      exact .openComment (hkind _) hopen.1
  · obtain ⟨hc, hl⟩ := ite_none_right_eq_some.mp hl
    split at hl <;> cases hl
    · exact .variableName (eq_of_beq hc)
    · exact .dollar (eq_of_beq hc)
  · obtain ⟨hc, ⟨⟩⟩ := ite_none_right_eq_some.mp hl
    rw [Bool.or_eq_true, Bool.and_eq_true, beq_iff_eq] at hc
    refine .name ?_ (hc.imp_right (·.1))
    split
    · exact .qualified
    · exact isNameKind_wordKind _ _
  · unfold numberRule at hl
    split at hl
    · rename_i hbase
      cases hl
      rw [Bool.and_eq_true, beq_iff_eq] at hbase
      exact .basedNumber hbase.1 hbase.2
    · split at hl
      · cases hl
        exact .number ‹_›
      · obtain ⟨hdot, ⟨⟩⟩ := ite_none_right_eq_some.mp hl
        rw [Bool.and_eq_true, beq_iff_eq] at hdot
        exact .fraction hdot.1
  · rw [stringRule_eq] at hl
    obtain ⟨frame, hc, rfl⟩ := map_eq_some_iff.mp hl
    exact .string hc
  · obtain ⟨hopen, hl⟩ := ite_none_right_eq_some.mp hl
    rw [Bool.and_eq_true, beq_iff_eq, isPrefixOf_iff_prefix] at hopen
    obtain ⟨⟨label, opening⟩, hopener, rfl⟩ := map_eq_some_iff.mp hl
    dsimp only
    split
    · rename_i n hend
      exact .heredoc hopen.1 hopen.2 hopener hend
    · exact .openHeredoc hopen.1
  · obtain ⟨o, ho, rfl⟩ := map_eq_some_iff.mp hl
    have hfits := find?_some ho
    rw [Bool.and_eq_true, beq_iff_eq, isPrefixOf_iff_prefix] at hfits
    exact .operator (mem_of_find?_eq_some ho) hfits.1 hfits.2

theorem phpLexeme_spec (last : Option Kind) (c : Char) (cs : List Char) : CodeLexeme c cs (phpLexeme last c cs) := by
  unfold phpLexeme
  cases hfind : phpRules.findSome? fun rule => rule last c cs with
  | none => exact .unexpected (findSome?_eq_none_iff.mp hfind)
  | some l =>
    obtain ⟨rule, hrule, hl⟩ := exists_of_findSome?_eq_some hfind
    exact Rule.reads hrule hl

/-! ## §3. The rules exclude each other. -/

/-- The rules in front of the one for operators. -/
def wordRules : List Rule :=
  [whitespaceRule, closeTagRule, lineCommentRule, blockCommentRule, dollarRule, nameRule, numberRule, stringRule,
   heredocRule]

def beginsWord (c : Char) (cs : List Char) : Bool :=
  isBlank c || c == '$' || isNameStart c || c.isDigit || (openingFrame? c).isSome
    || (c == '?' && nextIs (· == '>') cs) || (c == '/' && nextIs (fun x => x == '/' || x == '*') cs)
    || (c == '#' && !nextIs (· == '[') cs) || (c == '\\' && nextIs isNameStart cs) || (c == '.' && nextIs Char.isDigit cs)
    || (c == '<' && ['<', '<'].isPrefixOf cs && (heredocOpener? (cs.drop 2)).isSome)

theorem wordRules_none_iff (last : Option Kind) (c : Char) (cs : List Char) :
    (∀ rule ∈ wordRules, rule last c cs = none) ↔ beginsWord c cs = false := by
  have hblock : blockCommentRule last c cs = none ↔ (c == '/' && nextIs (· == '*') cs) = false := by
    unfold blockCommentRule
    dsimp only
    split
    · split <;> simp_all
    · simp_all
  have hdollar : dollarRule last c cs = none ↔ (c == '$') = false := by
    unfold dollarRule
    split
    · split <;> simp_all
    · simp_all
  have hnumber : numberRule last c cs = none ↔ c.isDigit = false ∧ (c == '.' && nextIs Char.isDigit cs) = false := by
    have hzero : c = '0' → c.isDigit := fun h => h ▸ rfl
    unfold numberRule
    grind
  have hstring : stringRule last c cs = none ↔ (openingFrame? c).isSome = false := by simp [stringRule_eq]
  simp only [wordRules, forall_mem_cons, hblock, hdollar, hnumber, hstring, whitespaceRule, closeTagRule,
    lineCommentRule, nameRule, heredocRule, beginsWord, nextIs_or]
  simp [-Bool.not_eq_true]
  grind

/-- **The rules exclude each other**: the first character decides, and behind a slash the second. -/
theorem phpLexeme_rule {rule : Rule} (hrule : rule ∈ wordRules) {last : Option Kind} {l : Lexeme}
    (h : rule last c cs = some l) : phpLexeme last c cs = l := by
  have hguard := h
  simp only [wordRules, mem_cons, not_mem_nil, or_false] at hrule
  unfold phpLexeme phpRules
  rcases hrule with rfl | rfl | rfl | rfl | rfl | rfl | rfl | rfl | rfl
  · rw [findSome?_cons, h]
    rfl
  · obtain ⟨hc, -⟩ := ite_none_right_eq_some.mp hguard
    obtain rfl := eq_of_beq (Bool.and_eq_true_iff.mp hc).1
    simp only [findSome?_cons, h]
    rfl
  · obtain ⟨hc, -⟩ := ite_none_right_eq_some.mp hguard
    have hc : c = '/' ∨ c = '#' := by grind
    rcases hc with rfl | rfl <;> simp only [findSome?_cons, h] <;> rfl
  · obtain ⟨hc, -⟩ := ite_none_right_eq_some.mp hguard
    obtain ⟨hslash, hstar⟩ := Bool.and_eq_true_iff.mp hc
    obtain rfl := eq_of_beq hslash
    have hline : lineCommentRule last '/' cs = none := by
      cases cs with
      | nil => rfl
      | cons x cs =>
        obtain rfl : x = '*' := eq_of_beq hstar
        rfl
    simp only [findSome?_cons, hline, h]
    rfl
  · obtain ⟨hc, -⟩ := ite_none_right_eq_some.mp hguard
    obtain rfl := eq_of_beq hc
    simp only [findSome?_cons, h]
    rfl
  · obtain ⟨hc, -⟩ := ite_none_right_eq_some.mp hguard
    rw [Bool.or_eq_true, Bool.and_eq_true, beq_iff_eq] at hc
    rcases hc with hc | ⟨rfl, -⟩
    · have hne : ∀ x ∈ [' ', '\t', '\n', '\r', '\x0b', '\x0c', '?', '/', '#', '$'], (c == x) = false := by
        intro x hx
        rw [beq_eq_false_iff_ne]
        rintro rfl
        have hall : ∀ x ∈ [' ', '\t', '\n', '\r', '\x0b', '\x0c', '?', '/', '#', '$'], isNameStart x = false := by decide
        rw [hall c hx] at hc
        cases hc
      simp only [forall_mem_cons] at hne
      simp only [findSome?_cons, h]
      simp [whitespaceRule, closeTagRule, lineCommentRule, blockCommentRule, dollarRule, isBlank, hne]
    · simp only [findSome?_cons, h]
      rfl
  · have hc : c ∈ '.' :: ['0', '1', '2', '3', '4', '5', '6', '7', '8', '9'] := by
      have := @mem_digits c
      unfold numberRule at hguard
      grind
    simp only [mem_cons, not_mem_nil, or_false] at hc
    rcases hc with rfl | rfl | rfl | rfl | rfl | rfl | rfl | rfl | rfl | rfl | rfl <;>
      simp only [findSome?_cons, h] <;> rfl
  · have hc : c = '\x27' ∨ c = '\x22' ∨ c = '\x60' := by
      unfold stringRule at hguard
      grind
    rcases hc with rfl | rfl | rfl <;> simp only [findSome?_cons, h] <;> rfl
  · obtain ⟨hc, -⟩ := ite_none_right_eq_some.mp hguard
    obtain rfl := eq_of_beq (Bool.and_eq_true_iff.mp hc).1
    simp only [findSome?_cons, h]
    rfl

theorem phpLexeme_not_word (h : beginsWord c cs = false) (last : Option Kind) :
    phpLexeme last c cs = (operatorRule last c cs).getD (.code .error 0 [(.unexpectedCharacter, 0)]) := by
  have hnone := (wordRules_none_iff last c cs).mpr h
  rw [phpLexeme, show phpRules = wordRules ++ [operatorRule] from rfl, findSome?_append,
    findSome?_eq_none_iff.mpr hnone, none_or, findSome?_singleton]

theorem phpLexeme_string {f : Frame} (h : openingFrame? c = some f) (last : Option Kind) (cs : List Char) :
    phpLexeme last c cs = stringLexeme f cs :=
  phpLexeme_rule (show stringRule ∈ wordRules by simp [wordRules]) (by rw [stringRule_eq, h, map_some])

theorem phpLexeme_closeTag (h : nextIs (· == '>') cs) (last : Option Kind) :
    phpLexeme last '?' cs = ⟨.closeTag, 2 + lineBreakLength (cs.drop 1), [], .html, Nat.add_pos_left Nat.two_pos _⟩ :=
  phpLexeme_rule (show closeTagRule ∈ wordRules by simp [wordRules]) (by simp [closeTagRule, h])

theorem phpLexeme_block (last : Option Kind) (cs : List Char) : ∃ k : Kind, (k = .comment ∨ k = .docComment)
    ∧ phpLexeme last '/' ('*' :: cs) = match commentEnd? 1 cs with
      | some n => .code k n []
      | none => .code k (cs.length + 1) [(.unterminatedComment, 0)] := by
  refine ⟨if nextIs (· == '*') cs && nextIs isBlank (cs.drop 1) then .docComment else .comment, ?_, ?_⟩
  · split
    · exact .inr rfl
    · exact .inl rfl
  · refine phpLexeme_rule (show blockCommentRule ∈ wordRules by simp [wordRules]) ?_
    cases h : commentEnd? 1 cs <;> simp [blockCommentRule, nextIs, h]

end MageUplift.Php
