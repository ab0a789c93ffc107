import MageUplift.Proofs.CodeLexemes
import Mathlib.Data.List.Chain
import Mathlib.Order.Bounds.Basic

/-!
# Heredocs and the lines that close them

A heredoc begins with an opening line that gives its label, and it goes on to the first line of its body that begins with
the label again. The opening line may end with any line break. The search for the closing line knows the line feed
only, alone or behind a carriage return: behind a carriage return that stands alone it sees no new line.

Which characters end a line is a parameter here (`ClosesAt`), so that the two notions of a line can be compared.
-/

namespace MageUplift.Php

open List Option

variable {w cs body label ρ rest : List Char} {n : Nat} {ends : Char → Bool}

/-! ## §1. Opening lines. -/

/-- The line break in front of `rest`. A carriage return is one by itself where no line feed follows it. -/
inductive LineBreak (rest : List Char) : List Char → Prop where
  | lineFeed : LineBreak rest ['\n']
  | both : LineBreak rest ['\r', '\n']
  | carriageReturn (alone : rest.head? ≠ some '\n') : LineBreak rest ['\r']

/-- What may stand on both sides of a label. -/
inductive LabelQuote : List Char → Prop where
  | none : LabelQuote []
  | single : LabelQuote ['\x27']
  | double : LabelQuote ['\x22']

/-- **The opening line of a heredoc**, in front of its body: three angles, blanks, the label, which may stand between
quotes, and a line break. -/
inductive Opener (label : List Char) : List Char → List Char → Prop where
  | intro {blanks quote lineBreak body : List Char} (blank : ∀ x ∈ blanks, isIndent x = true)
      (quoted : LabelQuote quote) (named : isIdentifier label = true) (breaks : LineBreak body lineBreak) :
      Opener label ('<' :: '<' :: '<' :: (blanks ++ (quote ++ (label ++ (quote ++ lineBreak))))) body

theorem LineBreak.length_eq (h : LineBreak rest w) : lineBreakLength (w ++ rest) = w.length := by
  cases h with
  | lineFeed => rfl
  | both => rfl
  | carriageReturn alone =>
    cases rest with
    | nil => rfl
    | cons d rest =>
      have hd : d ≠ '\n' := by simpa using alone
      simp [lineBreakLength, hd]

theorem LineBreak.starts (h : LineBreak rest w) : w ≠ [] ∧ nextIs isNamePart (w ++ rest) = false := by
  cases h <;> exact ⟨cons_ne_nil _ _, rfl⟩

theorem exists_lineBreak (h : lineBreakLength cs ≠ 0) : ∃ w rest, cs = w ++ rest ∧ LineBreak rest w := by
  unfold lineBreakLength at h
  split at h
  · exact ⟨['\r', '\n'], _, rfl, .both⟩
  · rename_i rest hnot
    refine ⟨['\r'], rest, rfl, .carriageReturn fun hhead => ?_⟩
    obtain ⟨more, rfl⟩ := head?_eq_some_iff.mp hhead
    exact hnot more rfl
  · exact ⟨['\n'], _, rfl, .lineFeed⟩
  · exact absurd rfl h

theorem label?_iff : label? cs = some label
    ↔ isIdentifier label ∧ ∃ rest, cs = label ++ rest ∧ nextIs isNamePart rest = false := by
  constructor
  · intro h
    obtain ⟨hstart, hlabel⟩ := ite_none_right_eq_some.mp h
    cases hlabel
    refine ⟨isIdentifier_iff.mpr ⟨?_, List.all_eq_true.mp all_takeWhile⟩, cs.dropWhile isNamePart,
      takeWhile_append_dropWhile.symm, nextIs_dropWhile _ _⟩
    cases cs with
    | nil => cases hstart
    | cons c cs =>
      rw [takeWhile_cons_of_pos (namePart_of_start hstart)]
      exact hstart
  · rintro ⟨hname, rest, rfl, hrest⟩
    have hne : label ≠ [] := by
      rintro rfl
      cases hname
    obtain ⟨hstart, hall⟩ := isIdentifier_iff.mp hname
    rw [label?, if_pos (by rwa [nextIs_append hne]), takeWhile_of_all hall hrest]

/-- The quote in front of a label, if there is one. -/
def labelQuote? (body : List Char) : Option Char := body.head?.filter fun c => c == '\x27' || c == '\x22'

/-- The opening of a heredoc behind its `blanks`, with `q` quotes on each side of the label. -/
def labelLine? (blanks : Nat) (quote : Option Char) (q : Nat) (body : List Char) : Option (List Char × Nat) :=
  (label? (body.drop q)).bind fun label =>
    let after := body.drop (q + label.length)
    if quote.isSome && after.head? ≠ quote then none
    else
      let lineEnd := lineBreakLength (after.drop q)
      if lineEnd = 0 then none else some (label, blanks + q + label.length + q + lineEnd)

theorem heredocOpener?_eq (cs : List Char) :
    heredocOpener? cs = labelLine? (run isIndent cs) (labelQuote? (cs.drop (run isIndent cs)))
      (if (labelQuote? (cs.drop (run isIndent cs))).isSome then 1 else 0) (cs.drop (run isIndent cs)) := rfl

theorem exists_labelQuote (cs : List Char) : ∃ quote rest, cs = quote ++ rest ∧ LabelQuote quote
    ∧ labelQuote? cs = quote.head? := by
  cases cs with
  | nil => exact ⟨[], [], rfl, .none, rfl⟩
  | cons c cs =>
    by_cases hsingle : c = '\x27'
    · subst hsingle
      exact ⟨['\x27'], cs, rfl, .single, rfl⟩
    by_cases hdouble : c = '\x22'
    · subst hdouble
      exact ⟨['\x22'], cs, rfl, .double, rfl⟩
    refine ⟨[], c :: cs, rfl, .none, ?_⟩
    simp [labelQuote?, hsingle, hdouble]

theorem label_starts (h : isIdentifier label) (rest : List Char) :
    nextIs isIndent (label ++ rest) = false ∧ labelQuote? (label ++ rest) = none := by
  cases label with
  | nil => cases h
  | cons a as =>
    have ha : isNameStart a := (Bool.and_eq_true_iff.mp h).1
    have hne : ∀ x ∈ [' ', '\t', '\x27', '\x22'], a ≠ x := by
      rintro x hx rfl
      have hnone : ∀ x ∈ [' ', '\t', '\x27', '\x22'], isNameStart x = false := by decide
      rw [hnone a hx] at ha
      cases ha
    simp only [mem_cons, not_mem_nil, or_false, forall_eq_or_imp, forall_eq] at hne
    obtain ⟨hspace, htab, hsingle, hdouble⟩ := hne
    exact ⟨by simp [nextIs, isIndent, hspace, htab], by simp [labelQuote?, hsingle, hdouble]⟩

section

variable {quote label : List Char}

theorem LabelQuote.length_eq (h : LabelQuote quote) : (if quote.head?.isSome then 1 else 0) = quote.length := by
  cases h <;> rfl

theorem LabelQuote.starts (h : LabelQuote quote) (hlabel : isIdentifier label) (rest : List Char) :
    nextIs isIndent (quote ++ (label ++ rest)) = false ∧ labelQuote? (quote ++ (label ++ rest)) = quote.head? := by
  cases h with
  | none => exact label_starts hlabel rest
  | single => exact ⟨rfl, rfl⟩
  | double => exact ⟨rfl, rfl⟩

theorem LabelQuote.closes_iff (h : LabelQuote quote) (rest : List Char) :
    (quote.head?.isSome && decide (rest.head? ≠ quote.head?)) = false ↔ quote <+: rest := by
  cases h with
  | none => simp
  | single | double =>
    cases rest with
    | nil => simp
    | cons c rest => simp [@eq_comm Char c]

theorem labelLine?_of_label {lineBreak : List Char} (hquote : LabelQuote quote) (hlabel : isIdentifier label)
    (hbreak : LineBreak body lineBreak) (n : Nat) :
    labelLine? n quote.head? quote.length (quote ++ (label ++ (quote ++ (lineBreak ++ body))))
      = some (label, n + (quote ++ (label ++ (quote ++ lineBreak))).length) := by
  have hrest : nextIs isNamePart (quote ++ (lineBreak ++ body)) = false := by
    cases hquote with
    | none => exact hbreak.starts.2
    | single => rfl
    | double => rfl
  have hread : label? (label ++ (quote ++ (lineBreak ++ body))) = some label :=
    label?_iff.mpr ⟨hlabel, _, rfl, hrest⟩
  have hcloses := (hquote.closes_iff (quote ++ (lineBreak ++ body))).mpr (prefix_append _ _)
  have hend : lineBreakLength (lineBreak ++ body) ≠ 0 := by
    rw [hbreak.length_eq]
    exact fun h => hbreak.starts.1 (length_eq_zero_iff.mp h)
  rw [labelLine?, drop_left, hread, bind_some]
  dsimp only
  rw [← drop_drop, drop_left, drop_left, hcloses, drop_left, if_neg Bool.false_ne_true, if_neg hend,
    hbreak.length_eq]
  simp only [length_append, Nat.add_assoc]

theorem heredocOpener?_iff : heredocOpener? cs = some (label, n)
    ↔ ∃ tail body, cs = tail ++ body ∧ n = tail.length ∧ Opener label ('<' :: '<' :: '<' :: tail) body := by
  constructor
  · intro h
    have hblanks : cs.takeWhile isIndent ++ cs.dropWhile isIndent = cs := takeWhile_append_dropWhile
    have hall : ∀ x ∈ cs.takeWhile isIndent, isIndent x := fun x hx => List.all_eq_true.mp all_takeWhile x hx
    have hnext := nextIs_dropWhile isIndent cs
    generalize cs.takeWhile isIndent = blanks, cs.dropWhile isIndent = line at hblanks hall hnext
    subst hblanks
    -- behind the blanks: the quote, the label, the quote again and the line break
    obtain ⟨quote, rest, rfl, hquote, hhead⟩ := exists_labelQuote line
    rw [heredocOpener?_eq, run_of_all hall hnext, drop_left, hhead, hquote.length_eq] at h
    obtain ⟨_, hlabel, h⟩ := bind_eq_some_iff.mp h
    rw [drop_left] at hlabel
    obtain ⟨hname, rest, rfl, -⟩ := label?_iff.mp hlabel
    dsimp only at h
    rw [← drop_drop, drop_left, drop_left] at h
    split at h
    · cases h
    rename_i hcloses
    obtain ⟨rest, rfl⟩ := (hquote.closes_iff rest).mp (Bool.eq_false_iff.mpr hcloses)
    rw [drop_left] at h
    split at h
    · cases h
    rename_i hbreak
    cases h
    obtain ⟨w, body, rfl, hw⟩ := exists_lineBreak hbreak
    refine ⟨blanks ++ (quote ++ (label ++ (quote ++ w))), body, by simp, ?_, .intro hall hquote hname hw⟩
    rw [hw.length_eq]
    simp only [length_append, Nat.add_assoc]
  · rintro ⟨tail, body, rfl, rfl, hopen⟩
    cases hopen with
    | intro blank quoted named breaks =>
      rename_i blanks quote lineBreak
      obtain ⟨hnext, hhead⟩ := quoted.starts named (quote ++ (lineBreak ++ body))
      simp only [append_assoc]
      rw [heredocOpener?_eq, run_of_all blank hnext, drop_left, hhead, quoted.length_eq,
        labelLine?_of_label quoted named breaks]
      simp only [length_append]

theorem heredocOpener?_spec (h : heredocOpener? cs = some (label, n)) : isIdentifier label ∧ n ≤ cs.length := by
  obtain ⟨tail, body, rfl, rfl, hopen⟩ := heredocOpener?_iff.mp h
  cases hopen with
  | intro _ _ named _ => exact ⟨named, by simp⟩

theorem heredocOpener?_append (h : heredocOpener? (w ++ ρ) = some (label, n))
    (hn : n < w.length) (ρ' : List Char) : heredocOpener? (w ++ ρ') = some (label, n) := by
  obtain ⟨tail, body, hcs, rfl, hopen⟩ := heredocOpener?_iff.mp h
  obtain ⟨x, rfl⟩ : tail <+: w := prefix_of_prefix_length_le ⟨body, hcs.symm⟩ (prefix_append _ _) hn.le
  rw [append_assoc, append_cancel_left_eq] at hcs
  refine heredocOpener?_iff.mpr ⟨tail, x ++ ρ', append_assoc .., rfl, ?_⟩
  have hx : ∀ σ : List Char, (x ++ σ).head? = x.head? := by
    cases x with
    | nil => simp at hn
    | cons c x => exact fun _ => rfl
  subst hcs
  cases hopen with
  | intro blank quoted named breaks =>
    refine .intro blank quoted named ?_
    cases breaks with
    | lineFeed => exact .lineFeed
    | both => exact .both
    | carriageReturn alone => exact .carriageReturn (by rwa [hx] at alone ⊢)

end

/-! ## §2. Closing lines. -/

def isLineEnd (c : Char) : Bool := c == '\n' || c == '\r'

def isLineFeed (c : Char) : Bool := c == '\n'

/-- A line that closes a heredoc: blanks, and the label as a whole word. Its first `n` characters belong to the heredoc.
-/
def ClosingLine (label line : List Char) (n : Nat) : Prop :=
  ∃ blanks rest, line = blanks ++ (label ++ rest) ∧ (∀ x ∈ blanks, isIndent x = true) ∧ nextIs isNamePart rest = false
    ∧ n = blanks.length + label.length

/-- A line begins behind the text: at the start of the body, or behind a character that ends a line. -/
def BeginsLine (ends : Char → Bool) (before : List Char) : Prop := ∀ c, before.getLast? = some c → ends c = true

/-- **A line of the body closes the heredoc, and `stop` is right behind the label.** Lines end with the characters
`ends`. -/
def ClosesAt (ends : Char → Bool) (label body : List Char) (stop : Nat) : Prop :=
  ∃ before line n, body = before ++ line ∧ BeginsLine ends before ∧ ClosingLine label line n ∧ stop = before.length + n

/-- **Where a heredoc ends**: at the first closing line of its body, or nowhere. -/
inductive HeredocEnd (ends : Char → Bool) (label body : List Char) : Option Nat → Prop where
  | closed {stop : Nat} (first : IsLeast {n | ClosesAt ends label body n} stop) : HeredocEnd ends label body (some stop)
  | never (unclosed : ∀ n, ¬ ClosesAt ends label body n) : HeredocEnd ends label body none

theorem ClosesAt.append (h : ClosesAt ends label (w ++ ρ) n)
    (hn : n ≤ w.length) (ρ' : List Char) : (n = w.length → nextIs isNamePart ρ = false)
      ∧ ((n = w.length → nextIs isNamePart ρ' = false) → ClosesAt ends label (w ++ ρ') n) := by
  obtain ⟨before, line, m, hbody, hbegins, ⟨blanks, rest, rfl, hblanks, hnext, rfl⟩, rfl⟩ := h
  have hbody' : w ++ ρ = (before ++ (blanks ++ label)) ++ rest := by simp [hbody]
  obtain ⟨x, rfl⟩ : before ++ (blanks ++ label) <+: w :=
    prefix_of_prefix_length_le ⟨rest, hbody'.symm⟩ (prefix_append _ _) (by simpa using hn)
  rw [append_assoc, append_cancel_left_eq] at hbody'
  subst hbody'
  have hx : before.length + (blanks.length + label.length) = (before ++ (blanks ++ label) ++ x).length ↔ x = [] := by
    simp only [length_append, ← length_eq_zero_iff]
    omega
  rw [hx]
  refine ⟨fun h => by rwa [h] at hnext, fun h => ?_⟩
  refine ⟨before, blanks ++ (label ++ (x ++ ρ')), _, by simp, hbegins, ⟨blanks, x ++ ρ', rfl, hblanks, ?_, rfl⟩, rfl⟩
  cases x with
  | nil => exact h rfl
  | cons c x => exact hnext

section

variable {label : List Char} (hlabel : isIdentifier label)

include hlabel

theorem label_ne_nil : label ≠ [] := by
  rintro rfl
  cases hlabel

theorem closingLabel?_iff {line : List Char} : closingLabel? label line = some n ↔ ClosingLine label line n := by
  unfold closingLabel?
  dsimp only
  constructor
  · intro h
    obtain ⟨hend, hn⟩ := ite_none_right_eq_some.mp h
    cases hn
    rw [Bool.and_eq_true, isPrefixOf_iff_prefix, Bool.not_eq_true'] at hend
    obtain ⟨⟨rest, hrest⟩, hnext⟩ := hend
    refine ⟨line.takeWhile isIndent, rest, ?_, fun x hx => List.all_eq_true.mp all_takeWhile x hx, ?_, rfl⟩
    · rw [hrest, run]
      conv => lhs; rw [← take_append_drop (line.takeWhile isIndent).length line]
      rw [← prefix_iff_eq_take.mp (List.takeWhile_prefix _)]
    · rwa [← hrest, drop_left] at hnext
  · rintro ⟨blanks, rest, rfl, hblanks, hnext, rfl⟩
    rw [run_of_all hblanks (label_starts hlabel rest).1, drop_left, if_pos]
    simp [hnext]

theorem ClosingLine.le_next (hends : ∀ c, ends c → isLineEnd c) {line next x : List Char}
    (h : ClosingLine label line n) (hx : x ≠ []) (hline : line = x ++ next) (hbegins : BeginsLine ends x) :
    n ≤ x.length := by
  obtain ⟨blanks, rest, rfl, hblanks, -, rfl⟩ := h
  obtain ⟨c, hc⟩ := ne_none_iff_exists'.mp (mt getLast?_eq_none_iff.mp hx)
  -- neither the blanks nor the label end a line
  have hout : c ∉ blanks ++ label := by
    have hend := hends c (hbegins c hc)
    intro hmem
    rcases mem_append.mp hmem with hmem | hmem
    · have := hblanks c hmem
      simp only [isLineEnd, isIndent, Bool.or_eq_true, beq_iff_eq] at hend this
      grind
    · have := nameText_identifier hlabel c hmem
      simp only [isLineEnd, Bool.or_eq_true, beq_iff_eq] at hend
      rcases hend with rfl | rfl <;> cases this
  rw [← append_assoc, append_eq_append_iff] at hline
  rcases hline with ⟨more, rfl, -⟩ | ⟨more, hmore, -⟩
  · rw [length_append, length_append]
    omega
  · rw [hmore] at hout
    exact absurd (mem_append_left _ (mem_of_getLast? hc)) hout

/-- **The search finds the first closing line**, by line feeds, when no line that begins in what has been read closes. -/
theorem heredocEnd?_first {read left : List Char} {lineStart : Bool} (hstart : lineStart ↔ BeginsLine isLineFeed read)
    (hopen : ∀ before line n, read ++ left = before ++ line → BeginsLine isLineFeed before → ClosingLine label line n →
      read.length ≤ before.length) :
    HeredocEnd isLineFeed label (read ++ left) (heredocEnd? label lineStart read.length left) := by
  induction left generalizing read lineStart with
  | nil =>
    refine .never ?_
    rintro _ ⟨before, line, n, hbody, hbegins, hline, rfl⟩
    have hlong := hopen before line n hbody hbegins hline
    obtain ⟨blanks, rest, rfl, -⟩ := hline
    have hpos := length_pos_iff.mpr (label_ne_nil hlabel)
    have := congrArg List.length hbody
    simp only [length_append, length_nil] at this
    omega
  | cons c left ih =>
    rw [heredocEnd?]
    split
    · -- the line that begins here closes
      rename_i n hclose
      obtain ⟨hbegins, hclose⟩ := ite_none_right_eq_some.mp hclose
      refine .closed ⟨⟨read, c :: left, n, rfl, hstart.mp hbegins, (closingLabel?_iff hlabel).mp hclose, rfl⟩, ?_⟩
      rintro _ ⟨before, line, m, hbody, hbef, hline, rfl⟩
      have hlong := hopen before line m hbody hbef hline
      obtain ⟨x, rfl⟩ : read <+: before :=
        prefix_of_prefix_length_le (prefix_append _ _) ⟨line, hbody.symm⟩ hlong
      rw [append_assoc, append_cancel_left_eq] at hbody
      by_cases hx : x = []
      · subst hx
        rw [nil_append] at hbody
        subst hbody
        have hsame := (closingLabel?_iff hlabel).mpr hline
        rw [hclose, some.injEq] at hsame
        rw [append_nil, hsame]
      · have hnext : BeginsLine isLineFeed x := by
          intro d hd
          exact hbef d (by rw [getLast?_append, hd, some_or])
        have := ((closingLabel?_iff hlabel).mp hclose).le_next hlabel (fun d hd => by simp_all [isLineFeed, isLineEnd]) hx
          hbody hnext
        rw [length_append]
        omega
    · rename_i hclose
      rw [append_cons, show read.length + 1 = (read ++ [c]).length by simp]
      refine ih ?_ fun before line n hbody hbegins hline => ?_
      · simp [BeginsLine, isLineFeed]
      · rw [← append_cons] at hbody
        have hlong := hopen before line n hbody hbegins hline
        rw [length_append, length_singleton]
        refine Nat.lt_of_le_of_ne hlong fun hsame => ?_
        -- no line that begins right here closes
        obtain ⟨rfl, rfl⟩ := append_inj hbody hsame
        rw [if_pos (hstart.mpr hbegins), (closingLabel?_iff hlabel).mpr hline] at hclose
        exact absurd hclose nofun

theorem heredocEnd?_end (body : List Char) : HeredocEnd isLineFeed label body (heredocEnd? label true 0 body) :=
  @heredocEnd?_first _ hlabel [] body true (by simp [BeginsLine]) fun before _ _ _ _ _ => Nat.zero_le before.length

theorem heredocEnd?_iff :
    heredocEnd? label true 0 body = some n ↔ IsLeast {n | ClosesAt isLineFeed label body n} n := by
  have hend := heredocEnd?_end hlabel body
  constructor
  · intro h
    rw [h] at hend
    cases hend with
    | closed first => exact first
  · intro h
    cases hend' : heredocEnd? label true 0 body with
    | none =>
      rw [hend'] at hend
      cases hend with
      | never unclosed => exact absurd h.1 (unclosed n)
    | some m =>
      rw [hend'] at hend
      cases hend with
      | closed first => rw [first.unique h]

theorem heredocEnd?_bounds (h : heredocEnd? label true 0 body = some n) : 0 < n ∧ n ≤ body.length := by
  obtain ⟨before, _, _, rfl, -, ⟨blanks, rest, rfl, -, -, rfl⟩, rfl⟩ := ((heredocEnd?_iff hlabel).mp h).1
  have hpos := length_pos_iff.mpr (label_ne_nil hlabel)
  simp only [length_append]
  omega

/-- **The end of a heredoc** does not depend on what follows it, as long as the closing label does not grow. -/
theorem heredocEnd?_append (h : heredocEnd? label true 0 (w ++ ρ) = some w.length) :
    nextIs isNamePart ρ = false
      ∧ ∀ ρ', nextIs isNamePart ρ' = false → heredocEnd? label true 0 (w ++ ρ') = some w.length := by
  simp only [heredocEnd?_iff hlabel] at h ⊢
  refine ⟨(h.1.append Nat.le.refl []).1 rfl, fun ρ' hρ' => ⟨(h.1.append Nat.le.refl ρ').2 fun _ => hρ', fun n hn => ?_⟩⟩
  refine Nat.le_of_not_lt fun hlt => absurd (h.2 ((ClosesAt.append hn hlt.le ρ).2 ?_)) (Nat.not_le_of_lt hlt)
  exact fun hlen => absurd hlen hlt.ne

theorem ClosesAt.lineFeed_of_paired (hpaired : body.IsChain fun c d => c = '\r' → d = '\n')
    (h : ClosesAt isLineEnd label body n) : ClosesAt isLineFeed label body n := by
  obtain ⟨before, line, m, rfl, hbegins, hline, rfl⟩ := h
  refine ⟨before, line, m, rfl, fun c hc => ?_, hline, rfl⟩
  have hend := hbegins c hc
  simp only [isLineEnd, Bool.or_eq_true, beq_iff_eq] at hend
  rcases hend with rfl | rfl
  · rfl
  · -- the line would begin with a line feed
    obtain ⟨blanks, rest, rfl, hblanks, -⟩ := hline
    have hfeed : (blanks ++ (label ++ rest)).head? = some '\n' := by
      cases hhead : (blanks ++ (label ++ rest)).head? with
      | none =>
        rw [head?_eq_none_iff] at hhead
        simp [label_ne_nil hlabel] at hhead
      | some d => rw [(isChain_append.mp hpaired).2.2 _ hc d hhead rfl]
    cases blanks with
    | nil =>
      obtain ⟨a, as, rfl⟩ := exists_cons_of_ne_nil (label_ne_nil hlabel)
      cases hfeed
      cases hlabel
    | cons b blanks =>
      cases hfeed
      cases hblanks _ mem_cons_self

end

theorem ClosesAt.lineEnd (h : ClosesAt isLineFeed label body n) : ClosesAt isLineEnd label body n := by
  obtain ⟨before, line, m, hbody, hbegins, hline, hn⟩ := h
  refine ⟨before, line, m, hbody, fun c hc => ?_, hline, hn⟩
  rw [isLineEnd, show (c == '\n') = true from hbegins c hc, Bool.true_or]

theorem HeredocEnd.lineEnd_iff {stop : Option Nat} (h : HeredocEnd isLineFeed label body stop) :
    HeredocEnd isLineEnd label body stop
      ↔ ∀ n, ClosesAt isLineEnd label body n → ∃ m ≤ n, ClosesAt isLineFeed label body m := by
  cases h with
  | never unclosed =>
    refine ⟨?_, fun hfst => .never fun n hn => ?_⟩
    · rintro (_ | hnever) n hn
      exact absurd hn (hnever n)
    · obtain ⟨m, -, hm⟩ := hfst n hn
      exact unclosed m hm
  | @closed stop first =>
    refine ⟨?_, fun hfst => .closed ⟨first.1.lineEnd, fun n hn => ?_⟩⟩
    · rintro ⟨hleast⟩ n hn
      exact ⟨stop, hleast.2 hn, first.1⟩
    · obtain ⟨m, hle, hm⟩ := hfst n hn
      exact (first.2 hm).trans hle

/-! ## §3. Heredocs in front of other text. -/

theorem phpLexeme_heredoc_append {ρ₀ : List Char} {opening body : Nat} (harrows : ['<', '<'] <+: w ++ ρ₀)
    (hopen : heredocOpener? ((w ++ ρ₀).drop 2) = some (label, opening))
    (hend : heredocEnd? label true 0 ((w ++ ρ₀).drop (2 + opening)) = some body) (hlen : 2 + opening + body = w.length) :
    nextIs isNamePart ρ₀ = false
      ∧ ∀ last ρ, nextIs isNamePart ρ = false → phpLexeme last '<' (w ++ ρ) = .code .heredoc w.length [] := by
  obtain ⟨hlabel, -⟩ := heredocOpener?_spec hopen
  have hpos := (heredocEnd?_bounds hlabel hend).1
  obtain ⟨u, rfl⟩ : ['<', '<'] <+: w :=
    prefix_of_prefix_length_le harrows (prefix_append w ρ₀) (by rw [← hlen]; exact Nat.le_add_right_of_le (by simp))
  simp only [cons_append, nil_append, length_cons] at hlen hopen hend ⊢
  have hdrop : ∀ σ : List Char, ('<' :: '<' :: (u ++ σ)).drop (2 + opening) = u.drop opening ++ σ := by
    intro σ
    rw [Nat.add_comm, drop_succ_cons, drop_succ_cons, drop_append_of_le_length (by omega)]
  have hbody : body = (u.drop opening).length := by
    rw [length_drop]
    omega
  rw [hdrop, hbody] at hend
  obtain ⟨hnext, hsame⟩ := heredocEnd?_append hlabel hend
  refine ⟨hnext, fun last ρ hρ => phpLexeme_rule (show heredocRule ∈ wordRules by simp [wordRules]) ?_⟩
  have hopener' := heredocOpener?_append hopen (by omega) ρ
  simp [heredocRule, hopener', hdrop, hsame ρ hρ, ← hbody, hlen]

end MageUplift.Php
