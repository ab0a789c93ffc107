import Mathlib.Tactic.FinCases
import MageUplift.Layout.Mapping
import MageUplift.Proofs.PatternMatches

/-!
# The rules for layout handles

A handle is looked up by patterns that are made from its escaped text: underscores are replaced, and words put in
front. What these patterns describe is told by `rules`, properties of names up to case, and the handle stands for the
first name of the first rule that any name has.

In between stand `Piece`s, of which the patterns are made: a character of the handle, a place for one character, and a
word. The text of pieces is read back piece by piece, whatever characters the handle has, because those with a
meaning of their own are escaped (`ofText?_framed`). The pattern that is read matches a name if its pieces do one
after the other (`occursIn_framed`).
-/

namespace MageUplift.Layout

open Text (Reader foldCase sameLetter)

variable {front : List Char}
open Text.Reader List

/-! ## §1. Pieces. -/

/-- What the patterns for handles are made of. -/
inductive Piece where
  /-- A character in either case. -/
  | letter (c : Char)
  /-- At most one character, but no line feed. -/
  | filler
  /-- At least one character, no underscore among them. -/
  | word

namespace Piece

def text : Piece → List Char
  | .letter c => if isMeta c then ['\\', c] else [c]
  | .filler => ['.', '?']
  | .word => ['(', '[', '^', '_', ']', '+', ')']

def tree : Piece → PatternTree
  | .letter c => .char (.letter c)
  | .filler => .repeated ⟨0, some 1, false⟩ (.char .any)
  | .word => .group true (.repeated ⟨1, none, false⟩ (.char (.ranges true [('_', '_')])))

def texts (ps : List Piece) : List Char := ps.flatMap text

def literal (cs : List Char) : List Piece := cs.map .letter

/-- Characters as pieces, each underscore as pieces of its own. -/
def replaced (underscore : List Piece) (cs : List Char) : List Piece :=
  cs.flatMap fun c => if c == '_' then underscore else [.letter c]

def plural (cs : List Char) : List Piece := replaced [.filler, .letter '_'] cs

end Piece

open Piece

/-- The pieces that a handle is looked up by, in order. -/
def candidatePieces (handle area : String) : List (List Piece) :=
  let cs := handle.toList
  let others :=
    if area == "adminhtml" then
      let bare := (afterFront? "adminhtml_" cs).getD cs
      [literal bare, replaced [.letter '_', .word, .letter '_'] bare, .word :: .letter '_' :: literal bare,
        .word :: .letter '_' :: .word :: .letter '_' :: literal bare]
    else
      (match afterFront? "enterprise_" cs with
        | some rest => [plural ("magento_".toList ++ rest)]
        | none => [])
        ++ [literal ("page_".toList ++ cs)]
  literal cs :: plural cs :: others

theorem escape_eq (cs : List Char) : escape cs = texts (literal cs) := by
  rw [texts, literal, flatMap_map]
  rfl

theorem escape_front (h : ∀ c ∈ front, isMeta c = false) (cs : List Char) :
    escape (front ++ cs) = front ++ escape cs := by
  rw [escape, flatMap_append, flatMap_congr (g := fun c => [c]) fun c hc => by rw [h c hc]; rfl,
    flatMap_singleton', escape]

theorem withUnderscores_escape {underscore : String} {ps : List Piece} (h : underscore.toList = texts ps)
    (cs : List Char) :
    withUnderscores underscore (escape cs) = texts (replaced ps cs) := by
  rw [withUnderscores, escape, texts, replaced, flatMap_assoc, flatMap_assoc]
  refine flatMap_congr fun c _ => ?_
  by_cases hc : c = '_'
  · subst hc
    simp [show isMeta '_' = false from rfl, h, texts]
  · by_cases hmeta : isMeta c = true <;> simp [hc, hmeta, text]

theorem isPrefixOf_escape (h : ∀ c ∈ front, isMeta c = false) (cs : List Char) :
    front.isPrefixOf (escape cs) = front.isPrefixOf cs := by
  induction front generalizing cs with
  | nil => rw [isPrefixOf_nil_left, isPrefixOf_nil_left]
  | cons f front ih =>
    rw [forall_mem_cons] at h
    cases cs with
    | nil => rfl
    | cons c cs =>
      by_cases hmeta : isMeta c
      · have hne : ∀ d, isMeta d → (f == d) = false := fun d hd =>
          beq_eq_false_iff_ne.mpr fun heq => by rw [← heq, h.1] at hd; cases hd
        rw [escape, flatMap_cons, if_pos hmeta]
        simp [List.isPrefixOf, hne c hmeta, hne '\\' rfl]
      · rw [show escape (c :: cs) = c :: escape cs from escape_front (show ∀ x ∈ [c], _ by simpa using hmeta) cs]
        simp only [List.isPrefixOf, ih h.2]

theorem afterFront?_escape {front : String} (hfront : ∀ c ∈ front.toList, isMeta c = false) (cs : List Char) :
    afterFront? front (escape cs) = (afterFront? front cs).map escape := by
  rw [afterFront?, afterFront?, isPrefixOf_escape hfront]
  split
  · rename_i h
    obtain ⟨rest, rfl⟩ := List.isPrefixOf_iff_prefix.mp h
    simp [escape_front hfront, ← String.length_toList]
  · rfl

/-- **The patterns for a handle are made of pieces.** -/
theorem candidates_eq (handle area : String) : candidates handle area = (candidatePieces handle area).map texts := by
  have hplural : ∀ cs, withUnderscores ".?_" (escape cs) = texts (replaced [.filler, .letter '_'] cs) :=
    withUnderscores_escape rfl
  rw [candidates, candidatePieces]
  simp only [map_cons, ← escape_eq, pluralTolerant, plural, hplural]
  congr 2
  split
  · rw [afterFront?_escape (by decide),
      show ∀ o : Option (List Char), (o.map escape).getD (escape handle.toList) = escape (o.getD handle.toList) from
        fun o => by cases o <;> rfl,
      withUnderscores_escape (show _ = texts [.letter '_', .word, .letter '_'] from rfl), escape_eq]
    rfl
  · rw [afterFront?_escape (by decide)]
    have hpage : "page_".toList ++ escape handle.toList = texts (literal ("page_".toList ++ handle.toList)) := by
      rw [← escape_eq, escape_front (by decide)]
    cases afterFront? "enterprise_" handle.toList with
    | none => simp only [Option.map_none, nil_append, map_singleton, hpage]
    | some rest =>
      have hmagento : "magento_".toList ++ escape rest = escape ("magento_".toList ++ rest) := by
        rw [escape_front (by decide)]
      simp only [Option.map_some, hmagento, hplural, hpage, map_append, map_singleton]

/-! ## §2. Reading pieces. -/

section

variable {α β : Type} {step : Reader (Option α)} {a : α} {as : List α} {cs mid rest bound : List Char}

theorem bind_of_some {x : Reader α} (h : x cs = some (a, rest)) (f : α → Reader β) : (x >>= f) cs = f a rest := by
  show (x cs).bind _ = _
  rw [h]
  rfl

theorem collectWithin_of_none (h : step cs = some (none, rest)) : collectWithin step bound cs = some ([], rest) := by
  cases bound <;> rw [collectWithin, bind_of_some h] <;> rfl

theorem collectWithin_of_some {c : Char} (h : step cs = some (some a, mid))
    (hrest : collectWithin step bound mid = some (as, rest)) :
    collectWithin step (c :: bound) cs = some (a :: as, rest) := by
  rw [collectWithin, bind_of_some h]
  show (collectWithin step bound mid).bind _ = _
  rw [hrest]
  rfl

end

variable {content : Reader PatternTree} {c : Char} {rest : List Char} {ps : List Piece}

def opensMark (c : Char) : Bool := ['?', '*', '+', '\x7b'].contains c

theorem repetition_of_not_mark (hc : opensMark c = false) : repetition (c :: rest) = some (none, c :: rest) := by
  have hmark : mark (c :: rest) = some (none, c :: rest) := by
    rw [mark, bind_of_some (show peek? (c :: rest) = some (some c, c :: rest) from rfl)]
    generalize ho : some c = o
    split
    · cases ho; cases hc
    · cases ho; cases hc
    · cases ho; cases hc
    · cases ho; cases hc
    · rfl
  rw [repetition, bind_of_some hmark]
  rfl

theorem escaped_of_isMeta (hc : isMeta c) (rest : List Char) : escaped (c :: rest) = some (.char (.letter c), rest) := by
  have hc : c ∈ "\\.+*?()|[]\x7b\x7d^$#&-~".toList := List.contains_iff_mem.mp hc
  fin_cases hc <;> rfl

theorem atom_letter (c : Char) (rest : List Char) :
    atom content ((Piece.letter c).text ++ rest) = some (.char (.letter c), rest) := by
  by_cases hmeta : isMeta c
  · rw [text, if_pos hmeta]
    exact escaped_of_isMeta hmeta rest
  · rw [text, if_neg hmeta, singleton_append, atom, bind_of_some (show Reader.next (c :: rest) = some (c, rest) from rfl)]
    split
    case h_11 => rfl
    all_goals exact absurd rfl hmeta

theorem part_of_atom {first : PatternTree} {marks : List Repetition} {cs mid : List Char} (hbar : c ≠ '|')
    (hclose : c ≠ ')')
    (hatom : atom content (c :: cs) = some (first, mid)) (hmarks : collect repetition mid = some (marks, rest)) :
    part content (c :: cs) = some (some (marks.foldl (fun a times => .repeated times a) first), rest) := by
  have hlook : ∀ d, c ≠ d → [d].isPrefixOf (c :: cs) = false := fun d h => by simp [List.isPrefixOf, Ne.symm h]
  rw [part, bind_of_some (show atEnd (c :: cs) = some (false, c :: cs) from rfl),
    bind_of_some (show looksAt "|" (c :: cs) = some (false, c :: cs) from by rw [← hlook '|' hbar]; rfl),
    bind_of_some (show looksAt ")" (c :: cs) = some (false, c :: cs) from by rw [← hlook ')' hclose]; rfl)]
  show (atom content >>= _) (c :: cs) = _
  rw [bind_of_some hatom, bind_of_some hmarks]
  rfl

theorem collect_repetition (hc : opensMark c = false) : collect repetition (c :: rest) = some ([], c :: rest) :=
  collectWithin_of_none (repetition_of_not_mark hc)

theorem part_piece (p : Piece) (n : Nat) (hc : opensMark c = false) :
    part (alternation (n + 1)) (p.text ++ c :: rest) = some (some p.tree, c :: rest) := by
  cases p with
  | letter d =>
    have hatom := @atom_letter (alternation (n + 1)) d (c :: rest)
    by_cases hmeta : isMeta d
    · rw [text, if_pos hmeta] at hatom ⊢
      exact part_of_atom (by decide) (by decide) hatom (collect_repetition hc)
    · rw [text, if_neg hmeta] at hatom ⊢
      exact part_of_atom (by rintro rfl; exact hmeta rfl) (by rintro rfl; exact hmeta rfl) hatom (collect_repetition hc)
  | filler =>
    have hreluctant : skipText "?" (c :: rest) = some (false, c :: rest) := by
      refine if_neg fun h => ?_
      obtain ⟨rfl, -⟩ := List.cons_prefix_cons.mp (List.isPrefixOf_iff_prefix.mp h)
      cases hc
    have hmark : repetition ('?' :: c :: rest) = some (some ⟨0, some 1, false⟩, c :: rest) := by
      rw [repetition, bind_of_some (show mark ('?' :: c :: rest) = some (some (0, some 1), c :: rest) from rfl)]
      exact bind_of_some hreluctant _
    exact part_of_atom (by decide) (by decide) rfl
      (collectWithin_of_some hmark (collectWithin_of_none (repetition_of_not_mark hc)))
  | word => exact part_of_atom (by decide) (by decide) rfl (collect_repetition hc)

theorem exists_texts_cons (ps : List Piece) (rest : List Char) :
    ∃ c cs, texts ps ++ ')' :: rest = c :: cs ∧ opensMark c = false := by
  match ps with
  | [] => exact ⟨')', rest, rfl, rfl⟩
  | .filler :: ps => exact ⟨_, _, rfl, rfl⟩
  | .word :: ps => exact ⟨_, _, rfl, rfl⟩
  | .letter c :: ps =>
    rw [texts, flatMap_cons, text]
    split
    · exact ⟨_, _, rfl, rfl⟩
    · rename_i hmeta
      refine ⟨_, _, rfl, (Bool.not_eq_true _).mp fun hmark => hmeta ?_⟩
      have hmark : c ∈ ['?', '*', '+', '\x7b'] := List.contains_iff_mem.mp hmark
      fin_cases hmark <;> rfl

theorem collectWithin_pieces (n : Nat) (ps : List Piece) (bound : List Char) (hbound : ps.length ≤ bound.length) :
    collectWithin (part (alternation (n + 1))) bound (texts ps ++ ')' :: rest) = some (ps.map tree, ')' :: rest) := by
  induction ps generalizing bound with
  | nil => exact collectWithin_of_none rfl
  | cons p ps ih =>
    cases bound with
    | nil => cases hbound
    | cons b bound =>
      obtain ⟨c, cs, hnext, hc⟩ := exists_texts_cons ps rest
      have hrest := ih bound (Nat.le_of_succ_le_succ hbound)
      rw [hnext] at hrest
      rw [texts, flatMap_cons, append_assoc, show ps.flatMap text ++ ')' :: rest = c :: cs from hnext]
      exact collectWithin_of_some (part_piece p n hc) hrest

theorem length_le_texts (ps : List Piece) : ps.length ≤ (texts ps).length := by
  induction ps with
  | nil => exact le_rfl
  | cons p ps ih =>
    have hp : 1 ≤ p.text.length := by
      cases p with
      | letter c =>
        rw [text]
        split <;> simp
      | filler | word => decide
    rw [texts] at ih ⊢
    rw [flatMap_cons, length_append, length_cons]
    omega

theorem alternation_pieces (n : Nat) (ps : List Piece) (rest : List Char) :
    alternation (n + 2) (texts ps ++ ')' :: rest) = some (.sequence (ps.map tree), ')' :: rest) := by
  have hlen : ps.length ≤ (texts ps ++ ')' :: rest).length :=
    (length_le_texts ps).trans (by rw [length_append]; omega)
  have hparts : collect (part (alternation (n + 1))) (texts ps ++ ')' :: rest) = some (ps.map tree, ')' :: rest) :=
    collectWithin_pieces n ps _ hlen
  have hbranch : branch (alternation (n + 1)) (texts ps ++ ')' :: rest)
      = some (.sequence (ps.map tree), ')' :: rest) := bind_of_some hparts _
  rw [alternation, bind_of_some hbranch]
  rfl

/-- The tree of pieces that describe a name as a whole. -/
def framed (ps : List Piece) : PatternTree :=
  .seq (.assertion .start) (.seq (.group false (.sequence (ps.map tree))) (.assertion .stop))

theorem atom_group (n : Nat) (ps : List Piece) (rest : List Char) :
    atom (alternation (n + 2)) ('(' :: '?' :: ':' :: (texts ps ++ ')' :: rest))
      = some (.group false (.sequence (ps.map tree)), rest) := by
  have hlook : looksAt "?" (texts ps ++ ')' :: rest) = some (false, texts ps ++ ')' :: rest) := by
    obtain ⟨c, cs, hnext, hc⟩ := exists_texts_cons ps rest
    rw [hnext]
    refine congrArg (fun b => some (b, c :: cs)) ((Bool.not_eq_true _).mp fun h => ?_)
    obtain ⟨rfl, -⟩ := List.cons_prefix_cons.mp (List.isPrefixOf_iff_prefix.mp h)
    cases hc
  calc atom (alternation (n + 2)) ('(' :: '?' :: ':' :: (texts ps ++ ')' :: rest))
      = (do
          guard (!(← looksAt "?"))
          let inner ← alternation (n + 2)
          expect ")"
          pure (.group false inner) : Reader PatternTree) (texts ps ++ ')' :: rest) := rfl
    _ = (do
          let inner ← alternation (n + 2)
          expect ")"
          pure (.group false inner) : Reader PatternTree) (texts ps ++ ')' :: rest) := bind_of_some hlook _
    _ = _ := bind_of_some (alternation_pieces n ps rest) _

theorem ofText?_framed (ps : List Piece) :
    PatternTree.ofText? ("^(?:" ++ String.ofList (texts ps) ++ ")$") = some (framed ps) := by
  have htext : ("^(?:" ++ String.ofList (texts ps) ++ ")$").toList
      = '^' :: '(' :: '?' :: ':' :: (texts ps ++ [')', '$']) := by simp
  obtain ⟨n, hn⟩ : ∃ n, ("^(?:" ++ String.ofList (texts ps) ++ ")$").length = n + 2 :=
    ⟨(texts ps).length + 4, by rw [← String.length_toList, htext]; simp⟩
  have hstart : part (alternation (n + 2)) ('^' :: '(' :: '?' :: ':' :: (texts ps ++ [')', '$']))
      = some (some (.assertion .start), '(' :: '?' :: ':' :: (texts ps ++ [')', '$'])) :=
    part_of_atom (by decide) (by decide) rfl (collect_repetition rfl)
  have hgroup : part (alternation (n + 2)) ('(' :: '?' :: ':' :: (texts ps ++ [')', '$']))
      = some (some (.group false (.sequence (ps.map tree))), ['$']) :=
    part_of_atom (by decide) (by decide) (atom_group n ps ['$']) (collect_repetition rfl)
  have hparts : collect (part (alternation (n + 2))) ('^' :: '(' :: '?' :: ':' :: (texts ps ++ [')', '$']))
      = some ([.assertion .start, .group false (.sequence (ps.map tree)), .assertion .stop], []) :=
    collectWithin_of_some hstart (collectWithin_of_some hgroup (collectWithin_of_some rfl (collectWithin_of_none rfl)))
  have hbranch : branch (alternation (n + 2)) ('^' :: '(' :: '?' :: ':' :: (texts ps ++ [')', '$']))
      = some (framed ps, []) := bind_of_some hparts _
  rw [PatternTree.ofText?, htext, hn, readAll?, alternation, bind_of_some hbranch]
  rfl

theorem depth_framed (ps : List Piece) : (framed ps).depth ≤ nestingLimit := by
  have hsequence : ∀ a : PatternTree, a = .sequence (ps.map tree) → (if a.isSeq then a.depth else a.depth + 1) ≤ 4 := by
    rintro a rfl
    induction ps with
    | nil => decide
    | cons p ps ih =>
      have hp : p.tree.depth ≤ 3 := by
        cases p with
        | letter c => exact Nat.zero_le 3
        | filler | word => decide
      cases ps with
      | nil =>
        show (if p.tree.isSeq then p.tree.depth else p.tree.depth + 1) ≤ 4
        split <;> omega
      | cons q ps => exact Nat.max_le.mpr ⟨by omega, ih⟩
  have := hsequence _ rfl
  show max 1 (max ((PatternTree.sequence (ps.map tree)).depth + 1 + 1) 1) ≤ 250
  split at this <;> omega

theorem ofNameText?_pieces (ps : List Piece) : Pattern.ofNameText? (String.ofList (texts ps))
    = if (framed ps).machineSize ≤ sizeLimit then some (framed ps).pattern else none := by
  rw [Pattern.ofNameText?, Pattern.ofText?, ofText?_framed]
  split <;> simp [depth_framed ps, *]

/-! ## §3. Names. -/

def folded (cs : List Char) : List Char := cs.map foldCase

theorem foldCase_eq_iff {c d : Char} (hd : d = '_' ∨ d = '\n') : foldCase c = d ↔ c = d := by
  have hascii : ∀ n < 128, ∀ d ∈ ['_', '\n'], (Char.ofNat n).toLower = d ↔ Char.ofNat n = d := by decide +kernel
  have htab : ∀ s ∈ Text.foldShifts, s.last < 128 ∨ 95 < (s.first : Int) + s.offset := by decide +kernel
  rw [foldCase]
  split
  · rename_i h
    simpa using hascii c.toNat h d (by simpa using hd)
  · rename_i hbig
    have hc : c ≠ d := by rcases hd with rfl | rfl <;> exact fun h => hbig (h ▸ by decide)
    refine iff_of_false ?_ hc
    cases hshift : Text.shifted? Text.foldShifts c with
    | none => exact hc
    | some e =>
      obtain ⟨s, hs, rfl⟩ := Option.map_eq_some_iff.mp hshift
      have hin := find?_some hs
      simp only [Bool.and_eq_true, decide_eq_true_eq] at hin
      have := htab s (mem_of_find?_eq_some hs)
      have hd : 0 < d.toNat ∧ d.toNat ≤ 95 := by rcases hd with rfl | rfl <;> decide
      rw [Option.getD_some, Char.ofNat]
      by_cases hvalid : ((c.toNat : Int) + s.offset).toNat.isValidChar
      · rw [dif_pos hvalid]
        intro h
        have hcode : ((c.toNat : Int) + s.offset).toNat = d.toNat := congrArg Char.toNat h
        omega
      · rw [dif_neg hvalid]
        intro h
        have hcode : 0 = d.toNat := congrArg Char.toNat h
        omega

/-- A word: not empty, and without underscores. -/
def IsWord (w : List Char) : Prop := w ≠ [] ∧ '_' ∉ w

def Piece.Spells : Piece → List Char → Prop
  | .letter c, w => w = [c]
  | .filler, w => w = [] ∨ ∃ d, d ≠ '\n' ∧ w = [d]
  | .word, w => IsWord w

def Piece.SpellAll : List Piece → List Char → Prop
  | [], m => m = []
  | p :: ps, m => ∃ w rest, p.Spells w ∧ SpellAll ps rest ∧ m = w ++ rest

variable {cs : List Char} {i j : Nat}

theorem drop_folded (h : cs[i]? = some c) : (folded cs).drop i = foldCase c :: (folded cs).drop (i + 1) := by
  obtain ⟨hi, rfl⟩ := List.getElem?_eq_some_iff.mp h
  rw [drop_eq_getElem_cons (by simpa [folded] using hi)]
  simp [folded]

theorem cons_prefix_drop_folded {w : List Char} :
    foldCase c :: w <+: (folded cs).drop i ↔ ∃ d, cs[i]? = some d ∧ foldCase d = foldCase c
      ∧ w <+: (folded cs).drop (i + 1) := by
  cases h : cs[i]? with
  | none =>
    have : (folded cs).drop i = [] := drop_eq_nil_of_le (by simpa [folded] using h)
    simp [this]
  | some d =>
    rw [drop_folded h, cons_prefix_cons]
    simp [eq_comm]

theorem leads_word : Relation.TransGen ((Pattern.char (.ranges true [('_', '_')])).Leads cs) i j
    ↔ ∃ w, IsWord w ∧ folded w <+: (folded cs).drop i ∧ j = i + w.length := by
  have haccepts : ∀ c, (CharClass.ranges true [('_', '_')]).accepts c ↔ c ≠ '_' := by
    intro c
    have hfold : foldCase '_' = foldCase c ↔ c = '_' := eq_comm.trans (foldCase_eq_iff (.inl rfl))
    simpa [CharClass.accepts, rangeHolds, sameLetter] using not_congr hfold
  constructor
  · intro h
    induction h using Relation.TransGen.head_induction_on with
    | single h =>
      obtain ⟨rfl, c, hc, hword⟩ := h
      exact ⟨[c], ⟨by simp, by simpa [eq_comm] using (haccepts c).mp hword⟩,
        cons_prefix_drop_folded.mpr ⟨c, hc, rfl, List.nil_prefix⟩, rfl⟩
    | head h _ ih =>
      obtain ⟨rfl, c, hc, hword⟩ := h
      obtain ⟨w, ⟨-, hw⟩, hfront, rfl⟩ := ih
      exact ⟨c :: w, ⟨by simp, by simpa [eq_comm, hw] using (haccepts c).mp hword⟩,
        cons_prefix_drop_folded.mpr ⟨c, hc, rfl, hfront⟩, by rw [length_cons]; omega⟩
  · rintro ⟨w, ⟨hne, hw⟩, hfront, rfl⟩
    induction w generalizing i with
    | nil => exact absurd rfl hne
    | cons c w ih =>
      obtain ⟨d, hd, hsame, hfront⟩ := cons_prefix_drop_folded.mp hfront
      rw [mem_cons, not_or] at hw
      have hone : (Pattern.char (.ranges true [('_', '_')])).Leads cs i (i + 1) := by
        refine ⟨rfl, d, hd, (haccepts d).mpr fun h => hw.1 ?_⟩
        rw [h, eq_comm, show foldCase '_' = '_' from rfl, foldCase_eq_iff (.inl rfl)] at hsame
        exact hsame.symm
      cases w with
      | nil => exact .single hone
      | cons e w =>
        rw [show i + (c :: e :: w).length = i + 1 + (e :: w).length by simp; omega]
        exact .head hone (ih (by simp) hw.2 hfront)

/-- **A piece matches what it stands for.** -/
theorem leads_tree (p : Piece) : p.tree.pattern.Leads cs i j
    ↔ ∃ w, p.Spells w ∧ folded w <+: (folded cs).drop i ∧ j = i + w.length := by
  have hchar : ∀ c, folded [c] <+: (folded cs).drop i ↔ ∃ d, cs[i]? = some d ∧ foldCase d = foldCase c := by
    intro c
    rw [show folded [c] = [foldCase c] from rfl, cons_prefix_drop_folded]
    simp
  cases p with
  | letter c =>
    show (j = i + 1 ∧ ∃ d, cs[i]? = some d ∧ sameLetter c d) ↔ ∃ w, w = [c] ∧ _
    simp only [sameLetter, beq_iff_eq, exists_eq_left, hchar, length_singleton, @eq_comm _ (foldCase c), and_comm]
  | filler =>
    show (j = i + 1 ∧ ∃ d, cs[i]? = some d ∧ (d != '\n') = true) ∨ i = j ↔ _
    constructor
    · rintro (⟨rfl, d, hd, hne⟩ | rfl)
      · exact ⟨[d], .inr ⟨d, by simpa using hne, rfl⟩, (hchar d).mpr ⟨d, hd, rfl⟩, rfl⟩
      · exact ⟨[], .inl rfl, List.nil_prefix, rfl⟩
    · rintro ⟨w, rfl | ⟨d, hne, rfl⟩, hfront, rfl⟩
      · exact .inr rfl
      · obtain ⟨e, he, hsame⟩ := (hchar d).mp hfront
        refine .inl ⟨rfl, e, he, bne_iff_ne.mpr ?_⟩
        rintro rfl
        exact hne ((foldCase_eq_iff (.inr rfl)).mp hsame.symm)
  | word => exact leads_word

theorem leads_sequence_cons (a : PatternTree) (parts : List PatternTree) :
    (PatternTree.sequence (a :: parts)).pattern.Leads cs i j
      ↔ ∃ m, a.pattern.Leads cs i m ∧ (PatternTree.sequence parts).pattern.Leads cs m j := by
  cases parts with
  | nil => simp [PatternTree.sequence, PatternTree.pattern, Pattern.Leads]
  | cons b parts => rfl

theorem folded_append_eq_drop {w r : List Char} : folded (w ++ r) = (folded cs).drop i
    ↔ folded w <+: (folded cs).drop i ∧ folded r = (folded cs).drop (i + w.length) := by
  have hlen : (folded w).length = w.length := length_map _
  rw [folded, map_append, ← drop_drop, ← hlen]
  constructor
  · intro h
    rw [← h]
    exact ⟨prefix_append _ _, List.drop_left.symm⟩
  · rintro ⟨⟨rest, h⟩, hr⟩
    rw [← h, drop_left] at hr
    rw [← h, ← hr]
    rfl

theorem leads_pieces (ps : List Piece) (hi : i ≤ cs.length) :
    (PatternTree.sequence (ps.map tree)).pattern.Leads cs i cs.length
      ↔ ∃ m, SpellAll ps m ∧ folded m = (folded cs).drop i := by
  have hlen : ∀ cs, (folded cs).length = cs.length := fun _ => length_map _
  induction ps generalizing i with
  | nil =>
    show i = cs.length ↔ ∃ m, m = [] ∧ _
    rw [exists_eq_left, @eq_comm _ (folded []), show folded [] = [] from rfl, drop_eq_nil_iff, hlen]
    omega
  | cons p ps ih =>
    have hbound : ∀ w, folded w <+: (folded cs).drop i → i + w.length ≤ cs.length := by
      intro w hw
      have := hw.length_le
      rw [length_drop, hlen, hlen] at this
      omega
    rw [map_cons, leads_sequence_cons]
    constructor
    · rintro ⟨_, hp, hps⟩
      obtain ⟨w, hw, hfront, rfl⟩ := (leads_tree p).mp hp
      obtain ⟨r, hr, hrest⟩ := (ih (hbound w hfront)).mp hps
      exact ⟨w ++ r, ⟨w, r, hw, hr, rfl⟩, folded_append_eq_drop.mpr ⟨hfront, hrest⟩⟩
    · rintro ⟨_, ⟨w, r, hw, hr, rfl⟩, hfold⟩
      obtain ⟨hfront, hrest⟩ := folded_append_eq_drop.mp hfold
      exact ⟨_, (leads_tree p).mpr ⟨w, hw, hfront, rfl⟩, (ih (hbound w hfront)).mpr ⟨r, hr, hrest⟩⟩

/-- A name is, up to case, one of some texts. -/
def Names (rule : List Char → Prop) (name : String) : Prop := ∃ m, rule m ∧ folded m = folded name.toList

theorem occursIn_framed (ps : List Piece) (name : String) :
    (framed ps).pattern.occursIn name ↔ Names (SpellAll ps) name := by
  have h := @leads_pieces name.toList 0 ps (Nat.zero_le _)
  rw [drop_zero] at h
  rw [occursIn_iff, Names, ← h]
  constructor
  · rintro ⟨_, _, -, _, ⟨rfl, rfl⟩, _, hleads, rfl, rfl⟩
    exact hleads
  · exact fun hleads => ⟨0, _, Nat.zero_le _, 0, ⟨rfl, rfl⟩, _, hleads, rfl, rfl⟩

/-! ## §4. Rules. -/

/-- A text with others in place of its underscores. -/
def Replaced (underscore : List Char → Prop) : List Char → List Char → Prop
  | [], n => n = []
  | c :: cs, n => ∃ w rest, (if c = '_' then underscore w else w = [c]) ∧ Replaced underscore cs rest ∧ n = w ++ rest

/-- A text with at most one character, but no line feed, inserted before each underscore. -/
def Inserted : List Char → List Char → Prop := Replaced fun w => w = ['_'] ∨ ∃ d, d ≠ '\n' ∧ w = [d, '_']

/-- A text with a word put into each underscore. -/
def Spread : List Char → List Char → Prop := Replaced fun w => ∃ v, IsWord v ∧ w = '_' :: v ++ ['_']

/-- A text behind a word and an underscore. -/
def BehindWord (rule : List Char → Prop) (n : List Char) : Prop := ∃ w m, IsWord w ∧ rule m ∧ n = w ++ '_' :: m

/-- What a handle may have become, in the order in which it is looked up. -/
def rules (handle area : String) : List (List Char → Prop) :=
  let cs := handle.toList
  let others :=
    if area = "adminhtml" then
      let bare := (afterFront? "adminhtml_" cs).getD cs
      [(· = bare), Spread bare, BehindWord (· = bare), BehindWord (BehindWord (· = bare))]
    else
      (match afterFront? "enterprise_" cs with
        | some rest => [Inserted ("magento_".toList ++ rest)]
        | none => [])
        ++ [(· = "page_".toList ++ cs)]
  (· = cs) :: Inserted cs :: others

theorem spellAll_append {ps qs : List Piece} {m : List Char} :
    SpellAll (ps ++ qs) m ↔ ∃ w rest, SpellAll ps w ∧ SpellAll qs rest ∧ m = w ++ rest := by
  induction ps generalizing m with
  | nil => simp [SpellAll]
  | cons p ps ih =>
    simp only [cons_append, SpellAll, ih]
    constructor
    · rintro ⟨u, _, hu, ⟨v, rest, hv, hrest, rfl⟩, rfl⟩
      exact ⟨u ++ v, rest, ⟨u, v, hu, hv, rfl⟩, hrest, (append_assoc ..).symm⟩
    · rintro ⟨_, rest, ⟨u, v, hu, hv, rfl⟩, hrest, rfl⟩
      exact ⟨u, v ++ rest, hu, ⟨v, rest, hv, hrest, rfl⟩, append_assoc ..⟩

theorem spellAll_literal (cs : List Char) : SpellAll (literal cs) = (· = cs) := by
  funext m
  induction cs generalizing m with
  | nil => rfl
  | cons c cs ih =>
    show (∃ w rest, w = [c] ∧ SpellAll (literal cs) rest ∧ m = w ++ rest) = _
    simp [ih]

theorem spellAll_replaced (underscore : List Piece) (cs : List Char) :
    SpellAll (replaced underscore cs) = Replaced (SpellAll underscore) cs := by
  funext m
  induction cs generalizing m with
  | nil => rfl
  | cons c cs ih =>
    rw [replaced, flatMap_cons, ← replaced, Replaced]
    simp only [spellAll_append, ih]
    by_cases hc : c = '_' <;> simp [hc, SpellAll, Spells]

theorem spellAll_plural (cs : List Char) : SpellAll (plural cs) = Inserted cs := by
  rw [plural, spellAll_replaced, Inserted]
  congr 1
  funext w
  simp [SpellAll, Spells, or_and_right, exists_or]

theorem spellAll_spread (cs : List Char) : SpellAll (replaced [.letter '_', .word, .letter '_'] cs) = Spread cs := by
  rw [spellAll_replaced, Spread]
  congr 1
  funext w
  simp [SpellAll, Spells]

theorem spellAll_word (ps : List Piece) : SpellAll (.word :: .letter '_' :: ps) = BehindWord (SpellAll ps) := by
  funext m
  simp [SpellAll, Spells, BehindWord]

theorem candidatePieces_spell (handle area : String) : (candidatePieces handle area).map SpellAll
    = rules handle area := by
  rw [candidatePieces, rules]
  simp only [map_cons, spellAll_literal, spellAll_plural, beq_iff_eq]
  congr 2
  split
  · simp only [map_cons, map_nil, spellAll_word, spellAll_spread, spellAll_literal]
  · cases afterFront? "enterprise_" handle.toList <;> simp [spellAll_literal, spellAll_plural]

/-- The first name of the first rule that any name has. -/
def Decides (names : List String) (rules : List (List Char → Prop)) : HandleMapping → Prop
  | .found name => ∃ before rule after, rules = before ++ rule :: after ∧ (∀ r ∈ before, ∀ n ∈ names, ¬ Names r n)
      ∧ ∃ front back, names = front ++ name :: back ∧ Names rule name ∧ ∀ n ∈ front, ¬ Names rule n
  | .obsolete => ∀ rule ∈ rules, ∀ n ∈ names, ¬ Names rule n

theorem Decides.cons {names : List String} {rule : List Char → Prop} {rules : List (List Char → Prop)} {r : HandleMapping}
    (hnone : ∀ n ∈ names, ¬ Names rule n) (h : Decides names rules r) : Decides names (rule :: rules) r := by
  cases r with
  | found name =>
    obtain ⟨before, chosen, after, rfl, hbef, hfst⟩ := h
    exact ⟨rule :: before, chosen, after, rfl, List.forall_mem_cons.mpr ⟨hnone, hbef⟩, hfst⟩
  | obsolete => exact List.forall_mem_cons.mpr ⟨hnone, h⟩

theorem mapBy_cons (catalog : Catalog) (ps : List Piece) (pieces : List (List Piece)) :
    mapBy catalog ((ps :: pieces).map texts)
      = if (framed ps).machineSize ≤ sizeLimit then
          match catalog.names.find? (framed ps).pattern.occursIn with
          | some name => .ok (.found name)
          | none => mapBy catalog (pieces.map texts)
        else .error ⟨String.ofList (texts ps)⟩ := by
  rw [map_cons, mapBy, Catalog.findPattern, ofNameText?_pieces]
  by_cases hsize : (framed ps).machineSize ≤ sizeLimit
  · rw [if_pos hsize, if_pos hsize]
    rfl
  · rw [if_neg hsize, if_neg hsize]
    rfl

theorem mapBy_decides (catalog : Catalog) (pieces : List (List Piece)) :
    (∃ r, mapBy catalog (pieces.map texts) = .ok r ∧ Decides catalog.names (pieces.map SpellAll) r)
      ∨ ∃ ps ∈ pieces, sizeLimit < (framed ps).machineSize
        ∧ mapBy catalog (pieces.map texts) = .error ⟨String.ofList (texts ps)⟩ := by
  induction pieces with
  | nil => exact .inl ⟨.obsolete, rfl, by simp [Decides]⟩
  | cons ps pieces ih =>
    rw [mapBy_cons]
    by_cases hsize : (framed ps).machineSize ≤ sizeLimit
    · rw [if_pos hsize]
      cases hname : catalog.names.find? (framed ps).pattern.occursIn with
      | some name =>
        obtain ⟨hocc, front, back, hnames, hfront⟩ := List.find?_eq_some_iff_append.mp hname
        refine .inl ⟨.found name, rfl, [], _, _, rfl, by simp, front, back, hnames, (occursIn_framed ps name).mp hocc, ?_⟩
        intro n hn h
        simpa [(occursIn_framed ps n).mpr h] using hfront n hn
      | none =>
        have hnone : ∀ n ∈ catalog.names, ¬ Names (SpellAll ps) n := fun n hn h =>
          List.find?_eq_none.mp hname n hn ((occursIn_framed ps n).mpr h)
        rcases ih with ⟨r, hr, hdecides⟩ | ⟨qs, hqs, hlarge, herror⟩
        · exact .inl ⟨r, hr, hdecides.cons hnone⟩
        · exact .inr ⟨qs, mem_cons_of_mem _ hqs, hlarge, herror⟩
    · rw [if_neg hsize]
      exact .inr ⟨ps, mem_cons_self, Nat.lt_of_not_le hsize, rfl⟩

/-- **A handle stands for the first name of the first rule that any name has**, or a pattern for it is too large. -/
theorem mapHandle_follows_rules (catalog : Catalog) (handle area : String) :
    (∃ r, mapHandle catalog handle area = .ok r ∧ Decides catalog.names (rules handle area) r)
      ∨ ∃ pattern ∈ candidates handle area, ∃ tree,
      PatternTree.ofText? ("^(?:" ++ String.ofList pattern ++ ")$") = some tree
        ∧ sizeLimit < tree.machineSize ∧ mapHandle catalog handle area = .error ⟨String.ofList pattern⟩ := by
  rw [mapHandle, candidates_eq, ← candidatePieces_spell]
  refine (mapBy_decides catalog (candidatePieces handle area)).imp_right ?_
  rintro ⟨ps, hps, hlarge, herror⟩
  exact ⟨texts ps, mem_map_of_mem hps, framed ps, ofText?_framed ps, hlarge, herror⟩

-- an ordinary handle is far from that
example : ∀ area ∈ ["frontend", "adminhtml"], ∀ ps ∈ candidatePieces "enterprise_catalog_product_view" area,
    1000 * (framed ps).machineSize ≤ sizeLimit := by decide +kernel

end MageUplift.Layout
