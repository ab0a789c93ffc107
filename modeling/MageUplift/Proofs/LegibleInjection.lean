import MageUplift.Proofs.CallsLeftBehind
import MageUplift.Proofs.GeneratedTokens
import MageUplift.Proofs.LegibleTokens

/-!
# Injected code is read as it was written

The injector puts code in front of tokens that it finds by their kinds alone. Its code begins with a blank, a comma,
a variable or, behind a bracket or a comma, a class; it ends with a mark that stands for itself or, where the list of
parameters ends, with a variable. So nothing runs together, neither in front of new code nor behind it, as long as
the tokens of the file are legible.
-/

namespace MageUplift

open Php TokenStream Call Wiring List
open String (toList_append)

variable {c : Char} {i : Nat} {b : String}

namespace Php

/-! ## §1. Tokens in front of new code. -/

section

variable {t : Token} {ρ₀ ρ : List Char}

/-- The text `ρ` in the place of `ρ₀` behind the token changes neither the token nor those in front of it. -/
def Token.Parts (t : Token) (ρ₀ ρ : List Char) : Prop := t.Frees ρ₀ ρ ∧ Seam t.text.toList ρ₀ ρ

theorem Token.Frees.of_apart {cs : List Char} (hc : c ∈ ['\n', ' ', ',', ')', '$']) (hρ₀ : ρ₀ ≠ [])
    (hnumber : nextIs (fun c => isNumeral c || binds c) ρ₀ = false) (hcom : t.isLineComment → c = '\n')
    (htag : t.kind = .openTag → t.text.toList.length ≠ 5) (hfeed : t.takesFeed → isBlank c = false)
    (hmode : t.kind.nextMode = .php) : t.Frees ρ₀ (c :: cs) := by
  have hall : ∀ c ∈ ['\n', ' ', ',', ')', '$'], isNamePart c = false ∧ c ≠ '\\' ∧ isNameStart c = false
      ∧ isNumeral c = false ∧ binds c = false ∧ c ≠ '/' ∧ c ≠ '\x7d' := by decide
  obtain ⟨h₁, h₂, h₃, h₄, h₅, h₆, h₇⟩ := hall c hc
  refine ⟨fun _ => ?_, fun _ => h₁, fun _ => h₃, fun _ => ⟨hnumber, ?_⟩, fun _ => ?_, fun h => ?_,
    fun _ h => absurd h hρ₀,
    fun h h' => absurd h' (htag h), fun h => ?_, fun h => ?_⟩
  · show (isNamePart c || c == '\\') = false
    rw [h₁, beq_eq_false_iff_ne.mpr h₂]
    rfl
  · show (isNumeral c || binds c) = false
    rw [h₄, h₅]
    rfl
  · show (binds c || c == '/') = false
    rw [h₅, beq_eq_false_iff_ne.mpr h₆]
    rfl
  · rw [hcom h]
    rfl
  · show (isBlank c || c == '\x7d') = false
    rw [hfeed h, beq_eq_false_iff_ne.mpr h₇]
    rfl
  · rw [hmode] at h
    cases h

theorem Token.Frees.of_trivia (htriv : t.isTrivia) (hfst : nextIs (fun c => c == '\\' || c == '<') t.text.toList = false)
    (hline : t.isLineComment = false) (hρ₀ : ρ₀ ≠ []) : t.Frees ρ₀ ρ := by
  have hall : ∀ k : Kind, k.isTrivia → k.isClosed ∧ ¬ (k.isWord ∨ k = .variableName ∨ k = .heredoc) := by
    intro k hk
    cases k <;> first | exact ⟨by decide, by decide⟩ | cases hk
  obtain ⟨hclosed, hname⟩ := hall t.kind htriv
  refine .of_isClosed hclosed ?_ hline (fun _ => hρ₀) fun h => absurd h hname
  constructor <;> intro heq <;> rw [heq] at hfst <;> cases hfst

end

theorem isHard_of_isBlank (h : isBlank c) : isHard c ∧ (c == '\\' || c == '<') = false := by
  have hblanks : ∀ c ∈ [' ', '\t', '\n', '\r', '\x0b', '\x0c'], isHard c ∧ (c == '\\' || c == '<') = false := by decide
  exact hblanks c (mem_blanks h)

section

variable {items : List Token} {mode : Mode} {last : Option Kind}

section

variable {t : Token} (h : Legible mode last items) (ht : items[i]? = some t)

include h ht

theorem Legible.read_at (hblank : t.kind ≠ .whitespace) :
    t.ReadAfter ((items.take i).foldl seenAfter last) (charsOf (items.drop (i + 1))) := by
  have hhere := h.at ht
  generalize t.kind.mode = here at hhere
  cases hhere with
  | blank kind text tail => exact absurd kind hblank
  | token kind inMode read settled tag tail => exact read

theorem Legible.mayEnd_at (hfeed : t.takesFeed) : mayEnd (charsOf (items.drop (i + 1))) = false := by
  have hhere := h.at ht
  generalize t.kind.mode = here at hhere
  cases hhere with
  | blank kind text tail =>
    rw [Token.kind_of_takesFeed hfeed] at kind
    cases kind
  | token kind inMode read settled tag tail =>
    rw [Token.isSettled, hfeed, Bool.true_and, Bool.and_eq_true] at settled
    exact (Bool.not_eq_true' _).mp settled.2

theorem Legible.list_closed (htag : t.kind = .closeTag) : isListOpen ((items.take i).foldl seenAfter last) = false := by
  have hhere := h.at ht
  generalize t.kind.mode = here at hhere
  cases hhere with
  | blank kind text tail =>
    rw [htag] at kind
    cases kind
  | token kind inMode read settled tag tail => exact tag htag

theorem Legible.mode_next {u : Token} (hu : items[i + 1]? = some u) : u.kind.mode = t.kind.nextMode := by
  have htail := (h.at ht).head_mode.2
  rw [drop_of_getElem? hu] at htail
  exact htail.head_mode.1

theorem Legible.behind_lineComment {u : Token} (hu : items[i + 1]? = some u) (hline : t.isLineComment) :
    u.kind = .whitespace ∨ u.kind = .closeTag := by
  have hhere := h.at ht
  rw [drop_of_getElem? hu] at hhere
  exact hhere.after_lineComment hline

theorem Legible.openTag_length (hne : charsOf (items.drop (i + 1)) ≠ []) :
    t.kind = .openTag → t.text.toList.length ≠ 5 := by
  intro hk hlength
  obtain ⟨c, w, htext, hkind, hlen⟩ := h.read_at ht (by rw [hk]; decide)
  exact hne ((Token.endsBefore_of_lexeme htext hkind hlen).tag hk hlength)

theorem Legible.trivia_first (htext : t.text.toList ≠ []) (htriv : t.isTrivia) :
    ∃ c w, t.text.toList = c :: w ∧ (isBlank c ∨ c = '/' ∨ c = '#') := by
  by_cases hblank : t.kind = .whitespace
  · obtain ⟨c, w, hcw⟩ := exists_cons_of_ne_nil htext
    refine ⟨c, w, hcw, .inl (h.blank_text (mem_of_getElem? ht) hblank c ?_)⟩
    rw [hcw]
    exact mem_cons_self
  · obtain ⟨c, w, hcw, hkind, -⟩ := (h.read_at ht hblank).php (mode_of_isTrivia htriv).1
    refine ⟨c, w, hcw, ?_⟩
    rcases phpLexeme_trivia (by rw [hkind]; exact htriv) with h | h
    · exact .inl h.1
    · exact .inr h.1

end

/-- What can stand behind the code of the injector: a blank, a comment, a comma or a closing bracket. -/
def isMargin (c : Char) : Bool := isBlank c || ['/', '#', ',', ')', '\x7d'].contains c

theorem isMargin_spec (h : isMargin c) : isNamePart c = false ∧ isNameStart c = false ∧ c ≠ '\\'
    ∧ binds c = false ∧ isNumeral c = false := by
  have hall : ∀ c ∈ [' ', '\t', '\n', '\r', '\x0b', '\x0c', '/', '#', ',', ')', '\x7d'], isNamePart c = false
      ∧ isNameStart c = false ∧ c ≠ '\\' ∧ binds c = false ∧ isNumeral c = false := by decide
  refine hall c ?_
  simpa [isMargin, isBlank, or_assoc] using h

theorem Legible.front_mark (h : Legible mode last items) {t : Token} (ht : items[i]? = some t)
    (hkind : t.kind ∈ markKinds) (ρ₀ ρ : List Char) : t.Parts ρ₀ ρ := by
  have hblank : ∀ k ∈ markKinds, k ≠ .whitespace := by decide
  obtain ⟨c, htext, hmark⟩ := (h.read_at ht (hblank t.kind hkind)).mark hkind
  have hc : c ≠ '\\' ∧ isHard c := by
    unfold soleMark? at hmark
    split at hmark
    all_goals first | contradiction | decide
  refine ⟨.of_mark hkind (by rw [htext]; rfl) ?_ ρ₀ ρ, .inl ⟨c, ?_, hc.2⟩⟩
  · rw [htext]
    exact fun heq => hc.1 (cons.inj heq).1
  · rw [htext]
    exact mem_cons_self

theorem Legible.front_trivia (h : Legible mode last items) {t : Token} (ht : items[i]? = some t)
    (htext : t.text.toList ≠ []) (htriv : t.isTrivia) (hline : t.isLineComment = false) {ρ₀ : List Char}
    (hρ₀ : ρ₀ ≠ []) (ρ : List Char) : t.Parts ρ₀ ρ := by
  obtain ⟨c, w, hcw, hc⟩ := h.trivia_first ht htext htriv
  have hhard : isHard c ∧ (c == '\\' || c == '<') = false := by
    rcases hc with hblank | rfl | rfl
    · exact isHard_of_isBlank hblank
    · decide
    · decide
  refine ⟨.of_trivia htriv ?_ hline hρ₀, .inl ⟨c, ?_, hhard.1⟩⟩
  · rw [hcw]
    exact hhard.2
  · rw [hcw]
    exact mem_cons_self

theorem Legible.front_apart (h : Legible mode last items) {t u : Token} (ht : items[i]? = some t)
    (hu : items[i + 1]? = some u) {d : Char} {w : List Char} (hutext : u.text.toList = d :: w)
    (hd : binds d = false ∧ isNumeral d = false) (hc : c ∈ ['\n', ' ', ',', ')', '$'])
    (hline : t.isLineComment → c = '\n') (hfeed : t.takesFeed → isBlank c = false)
    (hmode : u.kind.mode = .php) (cs : List Char) :
    t.Parts (charsOf (items.drop (i + 1))) (c :: cs) := by
  have hchars : charsOf (items.drop (i + 1)) = d :: (w ++ charsOf (items.drop (i + 1 + 1))) := by
    rw [drop_of_getElem? hu, charsOf_cons, hutext]
    rfl
  have hne : charsOf (items.drop (i + 1)) ≠ [] := by
    rw [hchars]
    exact cons_ne_nil _ _
  have hall : ∀ c ∈ ['\n', ' ', ',', ')', '$'], binds c = false ∧ isNameStart c = false := by decide
  refine ⟨.of_apart hc hne ?_ hline (h.openTag_length ht hne) hfeed ((h.mode_next ht hu).symm.trans hmode),
    .inr ⟨?_, (hall c hc).1, fun _ => (hall c hc).2⟩⟩
  · rw [hchars]
    show (isNumeral d || binds d) = false
    rw [hd.1, hd.2]
    rfl
  · rw [hchars]
    exact hd.1

end

/-! ## §2. How new code ends. -/

def EndsWith (marks : List Char) (code : String) : Prop :=
  ∃ x d bs, code.toList = x ++ d :: bs ∧ d ∈ marks ∧ ∀ b ∈ bs, isBlank b = true

def EndsWithVariable (code : String) : Prop :=
  ∃ x name, code.toList = x ++ ' ' :: '$' :: name ∧ isIdentifier name = true

def BeginsUnreserved (code : String) : Prop := ∀ u, firstCode (lexFragment code) = some u → u.isContextual = false

/-- The first word of the code is read as it is behind a token of kind `last`. -/
def BeginsFree (last : Option Kind) (code : String) : Prop := contextOf last = none ∨ BeginsUnreserved code

section

variable {code : String} {ks : List Kind} {last : Option Kind}

theorem EndsWith.fits {marks : List Char} (h : EndsWith marks code) (hmarks : ∀ d ∈ marks, (soleMark? d).isSome)
    (hinert : InertText code.toList ks) (hfst : BeginsFree last code) :
    (∀ ρ, Fits last (lexFragment code) ρ)
      ∧ ∃ d ∈ marks, ∀ last', (lexFragment code).foldl seenAfter last' = soleMark? d := by
  obtain ⟨x, d, bs, htext, hd, hbs⟩ := h
  obtain ⟨k, hk⟩ := Option.isSome_iff_exists.mp (hmarks d hd)
  have hmark : k ∈ markKinds ∧ d ≠ '\\' ∧ isHard d ∧ d ≠ '*' ∧ d ≠ '/' := by
    unfold soleMark? at hk
    split at hk
    all_goals first | (cases hk; done) | (cases hk; decide)
  obtain ⟨hkind, hbackslash, hhard, hstar, hslash⟩ := hmark
  have hblank : '/' ∉ bs := fun hmem => absurd (hbs '/' hmem) (by decide)
  obtain ⟨ks', hx⟩ := InertText.before_mark (htext ▸ hinert) ⟨hstar, hslash⟩ hblank
  obtain ⟨ts, hts⟩ := codeTokens_last hx hk hbs none
  rw [← htext] at hts
  -- the last character is the mark or a blank
  have hlast : ∃ c, code.toList.getLast? = some c ∧ isHard c ∧ c ≠ '/' := by
    rw [htext, getLast?_append, getLast?_cons]
    cases hb : bs.getLast? with
    | none => exact ⟨d, rfl, hhard, hslash⟩
    | some b =>
      have hmem := mem_of_getLast? hb
      exact ⟨b, rfl, (isHard_of_isBlank (hbs b hmem)).1, fun heq => hblank (heq ▸ hmem)⟩
  obtain ⟨c, hc, hard, hne⟩ := hlast
  refine ⟨fun ρ => ?_, d, hd, fun last' => ?_⟩
  · have hnaming : ∀ k ∈ markKinds, k.isNaming = false := by decide
    refine lexFragment_fits hinert hts (by rw [hc]; exact fun heq => hne (Option.some.inj heq)) ?_ (hnaming k hkind)
      (.inl ⟨c, hc, hard⟩) hfst
    refine .of_mark hkind ?_ ?_ [] ρ
    · rw [String.toList_ofList]
      rfl
    · rw [String.toList_ofList]
      exact fun heq => hbackslash (cons.inj heq).1
  · rw [foldl_seenAfter, lexFragment_code, hts, getLast?_concat, hk]
    rfl

theorem EndsWithVariable.fits (h : EndsWithVariable code) (hinert : InertText code.toList ks)
    (hfst : BeginsFree last code) :
    (∀ c cs, isMargin c → Fits last (lexFragment code) (c :: cs))
      ∧ ∀ last', (lexFragment code).foldl seenAfter last' = some .variableName := by
  obtain ⟨x, name, htext, hname⟩ := h
  have hslash : '/' ∉ '$' :: name := by
    intro hmem
    rcases mem_cons.mp hmem with heq | hmem
    · cases heq
    · exact absurd (nameText_identifier hname '/' hmem) (by decide)
  obtain ⟨ks', hx⟩ := InertText.before_mark (htext ▸ hinert) (by decide) hslash
  obtain ⟨ts, last', hts⟩ := codeTokens_split hx none (d := ' ') (by decide) ('$' :: name)
  have hvar := @codeTokens_variable last' name [] hname rfl
  rw [append_nil, codeTokens_nil] at hvar
  rw [← htext, codeTokens_blank (by decide), hvar] at hts
  refine ⟨fun c cs hc => ?_, fun last' => ?_⟩
  · obtain ⟨h₁, h₂, h₃, h₄, -⟩ := isMargin_spec hc
    refine lexFragment_fits hinert hts ?_ (.of_name (.inl rfl) ?_ ?_ []) rfl (.inr (.inl ?_)) hfst
    · rw [htext, getLast?_append, getLast?_cons_cons]
      intro heq
      rw [Option.or_of_isSome (by simp)] at heq
      exact hslash (mem_of_getLast? heq)
    · rw [String.toList_ofList]
      exact ⟨nofun, nofun⟩
    · show (isNamePart c || c == '\\') = false
      rw [h₁, beq_eq_false_iff_ne.mpr h₃]
      rfl
    · show (binds c || isNameStart c) = false
      rw [h₂, h₄]
      rfl
  · rw [foldl_seenAfter, lexFragment_code, hts, getLast?_concat]
    rfl

end

theorem EndsWith.append {marks : List Char} (h : EndsWith marks b) (a : String) : EndsWith marks (a ++ b) := by
  obtain ⟨x, d, bs, htext, hd, hbs⟩ := h
  exact ⟨a.toList ++ x, d, bs, by rw [toList_append, htext, append_assoc], hd, hbs⟩

theorem EndsWith.blanks {marks : List Char} {a : String} (h : EndsWith marks a) (hb : ∀ x ∈ b.toList, isBlank x) :
    EndsWith marks (a ++ b) := by
  obtain ⟨x, d, bs, htext, hd, hbs⟩ := h
  refine ⟨x, d, bs ++ b.toList, by rw [toList_append, htext]; simp, hd, fun y hy => ?_⟩
  exact (mem_append.mp hy).elim (hbs y) (hb y)

theorem EndsWithVariable.append (h : EndsWithVariable b) (a : String) : EndsWithVariable (a ++ b) := by
  obtain ⟨x, name, htext, hname⟩ := h
  exact ⟨a.toList ++ x, name, by rw [toList_append, htext, append_assoc], hname⟩

theorem join_ends {α : Type} {P : String → Prop} (happ : ∀ a b, P b → P (a ++ b)) {l : List α} {f : α → String}
    (hne : l ≠ []) (h : ∀ x ∈ l, P (f x)) : P (String.join (l.map f)) := by
  obtain ⟨front, x, rfl⟩ := (eq_nil_or_concat l).resolve_left hne
  rw [concat_eq_append] at h ⊢
  have hjoin : String.join ((front ++ [x]).map f) = String.join (front.map f) ++ f x := by
    apply String.toList_injective
    simp [String.toList_join, toList_append]
  rw [hjoin]
  exact happ _ _ (h x (mem_append_right front (mem_singleton.mpr rfl)))

theorem intercalate_ends {P : String → Prop} (happ : ∀ a b, P b → P (a ++ b)) (sep : String) {l : List String}
    (hne : l ≠ []) (h : ∀ x ∈ l, P x) : P (sep.intercalate l) := by
  cases l with
  | nil => exact absurd rfl hne
  | cons x l =>
    induction l generalizing x with
    | nil =>
      rw [String.intercalate_singleton]
      exact h x mem_cons_self
    | cons y l ih =>
      rw [String.intercalate_cons_cons]
      exact happ _ _ (ih y (cons_ne_nil y l) (forall_mem_cons.mp h).2)

end Php

/-! ## §3. What the injector inserts. -/

theorem parameterCode_ends {v : Collaborator} (h : isIdentifier v.name.toList) :
    EndsWithVariable (parameterCode v) :=
  ⟨v.type.toList, v.name.toList, by simp [parameterCode, toList_append], h⟩

/-- Where an insertion of the injector goes, and what it begins and ends with. -/
inductive Insertion (s : TokenStream) (p : Nat) (code : String) : Prop where
  /-- Properties and a constructor, behind the brace of the class. -/
  | top {q : Nat} (here : p = q + 1) (brace : s.kind? q = some .leftBrace) (ends : EndsWith [';', '\x7d'] code)
  /-- Parameters before one that is optional or variadic. -/
  | beforeParameter {q : Nat} {k : Kind} {t : Token} (lt : q < p) (trivia : s.TriviaIn (q + 1) p)
      (mark : s.kind? q = some k) (list : isListOpen (some k) = true) (here : s.get? p = some t)
      (sig : t.isTrivia = false) (ends : EndsWith [','] code)
  /-- Parameters behind the comma that ends the list, or behind the parenthesis that opens it. -/
  | behindMark {q n : Nat} {k k' : Kind} (here : p = q + 1) (mark : s.kind? q = some k)
      (list : isListOpen (some k) = true) (next : s.nextSignificant? p = some n) (kind : s.kind? n = some k')
      (closing : k' ∈ [.comma, .rightParen]) (ends : EndsWith [','] code ∨ EndsWithVariable code)
  /-- Parameters behind the last one. -/
  | behindParameter {q n : Nat} {u : Token} (here : p = q + 1) (before : s.get? q = some u) (sig : u.isTrivia = false)
      (next : s.nextSignificant? p = some n) (kind : s.kind? n = some .rightParen)
      (begins : nextIs (· == ',') code.toList = true) (unreserved : BeginsUnreserved code)
      (ends : EndsWithVariable code)
  /-- Assignments before the call of the parent's constructor. -/
  | beforeParent {t : Token} (here : s.get? p = some t) (parent : t.isWord "parent" = true)
      (begins : nextIs (· == '$') code.toList = true) (unreserved : BeginsUnreserved code) (ends : EndsWith [';'] code)
  /-- Assignments at the end of the body. -/
  | atEnd {n : Nat} (next : s.nextSignificant? p = some n) (kind : s.kind? n = some .rightBrace)
      (blank : p = n ∨ s.kind? p = some .whitespace)
      (begins : nextIs (· == '\n') code.toList = true) (unreserved : BeginsUnreserved code) (ends : EndsWith [';'] code)

theorem parameterList_significant {s : TokenStream} {c : Constructor} (hlist : s.matchingClose? c.left = some c.right) :
    ∀ p ∈ (parameterList s c).parameters, s.IsCode p.first ∧ s.IsCode p.last := by
  intro p hp
  obtain ⟨a, b, -, hp⟩ := (parameterList_listed hlist).of_mem hp
  obtain ⟨hfst, hlast, -⟩ := parameter?_spec hp
  exact ⟨(next_spec hfst).2.1, prev_token hlast⟩

theorem ParametersAt.insertion {s : TokenStream} {c : Constructor} {new : List String} {spot : Nat × String}
    (h : ParametersAt c (parameterList s c) new spot) (hlist : IsConstructorList s c.left c.right) (hne : new ≠ [])
    (hvar : ∀ code ∈ new, EndsWithVariable code) : Insertion s spot.1 spot.2 := by
  have hsig := parameterList_significant hlist.closes
  cases h with
  | @before p gap here blank =>
    have hmem := mem_of_find?_eq_some here
    obtain ⟨q, hq, htriv, hmark⟩ := parameterList_behind hlist.closes p hmem
    obtain ⟨u, hu, husig⟩ := (hsig p hmem).1
    have hends : EndsWith [','] (String.join (new.map fun code => code ++ ("," ++ gap))) :=
      join_ends (fun a b h => h.append a) hne fun code _ =>
        .append (.blanks ⟨[], ',', [], rfl, mem_singleton.mpr rfl, nofun⟩ blank) _
    rcases hmark with rfl | hcomma
    · exact .beforeParameter hq htriv hlist.kind_left rfl hu husig hends
    · exact .beforeParameter hq htriv hcomma rfl hu husig hends
  | behindComma required ends trailing blank =>
    obtain ⟨hkind, hnext⟩ := parameterList_trailing hlist.closes trailing
    refine .behindMark rfl hkind rfl hnext hlist.kind_right (by decide) (.inl ?_)
    exact join_ends (fun a b h => h.append a) hne fun code _ =>
      .append (.append ⟨[], ',', [], rfl, mem_singleton.mpr rfl, nofun⟩ _) _
  | @behindLast last gap required ends trailing blank =>
    have hnext := parameterList_last hlist.closes trailing ends
    obtain ⟨u, hu, husig⟩ := (hsig last (mem_of_getLast? ends)).2
    obtain ⟨tail, htail⟩ : ∃ tail, (String.join (new.map fun code => "," ++ (gap ++ code))).toList = ',' :: tail := by
      obtain ⟨code, rest, rfl⟩ := exists_cons_of_ne_nil hne
      rw [map_cons, String.join_cons, String.append_assoc, toList_append]
      exact ⟨_, rfl⟩
    refine .behindParameter rfl hu husig hnext hlist.kind_right (by rw [htail]; rfl) (fun x hx => ?_)
      (join_ends (fun a b h => h.append a) hne fun code hcode => ((hvar code hcode).append _).append _)
    rw [firstCode_eq, lexFragment_code, htail, codeTokens_mark (k := .comma) rfl] at hx
    cases hx
    rfl
  | @alone lead gap required empty leads blank =>
    obtain ⟨n, hnext, hn⟩ := parameterList_nil hlist.closes (getLast?_eq_none_iff.mp empty)
    have hends := (intercalate_ends (fun a b h => h.append a) ("," ++ gap) hne hvar).append lead
    rcases hn with rfl | hcomma
    · exact .behindMark rfl hlist.kind_left rfl hnext hlist.kind_right (by decide) (.inr hends)
    · exact .behindMark rfl hlist.kind_left rfl hnext hcomma (by decide) (.inr hends)

theorem AssignmentsAt.insertion {s : TokenStream} {c : Constructor} {new : List Collaborator} {spot : Nat × String}
    (h : AssignmentsAt s c new spot) (hbrs : c.WellBracketed s) (hne : new ≠ []) (hunreserved : BeginsUnreserved spot.2) :
    Insertion s spot.1 spot.2 := by
  have hcode : ∀ v : Collaborator, (assignmentCode v).toList
    = '$' :: ("this->" ++ v.name ++ " = $" ++ v.name).toList ++ [';'] := by
    intro v
    simp [assignmentCode, toList_append]
  have hends : ∀ v : Collaborator, EndsWith [';'] (assignmentCode v) :=
    fun v => ⟨_, ';', [], hcode v, mem_singleton.mpr rfl, forall_mem_nil _⟩
  cases h with
  | beforeParent here blank =>
    obtain ⟨t, ht, hword, -⟩ := isWord_parentCall (parentCall_spec here).2.2
    refine .beforeParent ht hword ?_ hunreserved
      (join_ends (fun a b h => h.append a) hne fun v _ => (hends v).blanks blank)
    obtain ⟨v, rest, rfl⟩ := exists_cons_of_ne_nil hne
    rw [map_cons, String.join_cons, String.append_assoc, toList_append, hcode]
    rfl
  | atEnd noCall blank ends =>
    obtain ⟨hnext, hclose⟩ := hbrs.next_trailingBlankStart
    refine .atEnd hnext hclose ((trailing_bounds s (lt_close hbrs.body).1).2.eq_or_lt.imp_right
      (blank_trailing s _ _ _ le_rfl)) ?_ hunreserved
      ((join_ends (fun a b h => h.append a) hne fun v _ => (hends v).append _).blanks ends)
    obtain ⟨v, rest, rfl⟩ := exists_cons_of_ne_nil hne
    rw [map_cons, String.join_cons, String.append_assoc, String.append_assoc, String.append_assoc, toList_append]
    rfl

theorem inject_insertions {s : TokenStream} {indent : String} {r : Requirements} {inserts : List (Edit Token)}
    (h : IsInjection s indent r inserts) (hnames : ∀ v ∈ r.entries, isIdentifier v.name.toList) :
    ∀ e ∈ inserts, ∃ p code, e = .insert p (lexFragment code) ∧ Insertion s p code := by
  intro e he
  cases injectedEdit_of_mem h.answer he with
  | constructor hcls hm =>
    refine ⟨_, _, rfl, .top rfl (classBody_brace hcls) (.append (.append ?_ _) _)⟩
    exact ⟨[], '\x7d', ['\n'], rfl, by decide, by decide⟩
  | properties hcls hm hne =>
    refine ⟨_, _, rfl, .top rfl (classBody_brace hcls) (join_ends (fun a b h => h.append a) hne fun v hv => ?_)⟩
    exact .append ⟨[], ';', ['\n'], rfl, by decide, by decide⟩ _
  | parameters hcls hm hc hnew hne hspot =>
    have hbrs := members_ctor hm hc
    have hspec := hspot ▸ @parameter_spec s _ _ h.indented hbrs.isIndentText _ _
    refine ⟨_, _, rfl, hspec.insertion ⟨hbrs.parameters, (members_named hm hc).name⟩
      (fun hnil => hne (map_eq_nil_iff.mp hnil)) fun code hcode => ?_⟩
    obtain ⟨v, hv, rfl⟩ := List.mem_map.mp hcode
    exact parameterCode_ends (hnames v (mem_filter.mp (hnew ▸ hv)).1)
  | @assignments cls m c hcls hm hc new hnew hne spot hspot =>
    have hbrs := members_ctor hm hc
    have hspec := hspot ▸ @assignment_spec s _ _ h.indented hbrs.isIndentText new
    refine ⟨_, _, rfl, hspec.insertion hbrs hne fun x hx => ?_⟩
    -- the code begins with `$this`
    have hreads := hspot ▸ @reads_assignmentInsertion s _ _ new h.indented hbrs.isIndentText fun v hv =>
      (h.plain v (mem_filter.mp (hnew ▸ hv)).1).name
    obtain ⟨v, rest, rfl⟩ := exists_cons_of_ne_nil hne
    rw [firstCode_eq, lexFragment_code, hreads.tokens] at hx
    cases hx
    rfl

/-! ## §4. Insertions join the tokens around them. -/

theorem toLower_of_sameWord {a : String} (h : sameWord a b) :
    a.toList.map Char.toLower = b.toList.map Char.toLower := by
  rw [sameWord, beq_iff_eq] at h
  have := congrArg String.toList h
  rwa [toList_toLower, toList_toLower] at this

theorem eq_or_capital_of_toLower {d : Char} (h : c.toLower = d) :
    c = d ∨ 'A'.val ≤ c.val ∧ c.val = d.val - ('a'.val - 'A'.val) := by
  unfold Char.toLower at h
  split at h
  · rename_i hcapital
    have hval : c.val + ('a'.val - 'A'.val) = d.val := congrArg Char.val h
    refine .inr ⟨hcapital.1, ?_⟩
    rw [← hval]
    simp
  · exact .inl h

theorem not_reserved_parent {t : Token} (h : t.isWord "parent") :
    t.isContextual = false ∧ ∃ c w, t.text.toList = c :: w ∧ binds c = false ∧ isNumeral c = false := by
  rw [Token.isWord, Bool.and_eq_true] at h
  have hmap := toLower_of_sameWord h.2
  rw [sameWord, beq_iff_eq] at h
  refine ⟨?_, ?_⟩
  · have hres : Keyword.ofWord? t.text = none := by
      have hpar : Keyword.ofWord? "parent" = none := by decide +kernel
      unfold Keyword.ofWord? at hpar ⊢
      rwa [h.2]
    rw [Token.isContextual, hres, Bool.and_eq_false_iff]
    exact .inr rfl
  · obtain ⟨c, w, htext, hc, -⟩ := map_eq_cons_iff.mp hmap
    refine ⟨c, w, htext, ?_⟩
    rcases eq_or_capital_of_toLower hc with rfl | ⟨-, hval⟩
    · decide
    · obtain rfl : c = 'P' := Char.ext hval
      decide

section

variable {s : TokenStream} {indent : String} {r : Requirements} {inserts : List (Edit Token)} {p : Nat} {code : String}

theorem margin_of_next (hlegible : Legible .html none s.tokens.toList) (htext : ∀ u ∈ s.tokens.toList, u.text.toList ≠ [])
    {n : Nat} {k : Kind} (hnext : s.nextSignificant? p = some n) (hk : s.kind? n = some k)
    (hclosing : k ∈ [.comma, .rightParen, .rightBrace]) :
    ∃ t c w, s.tokens.toList[p]? = some t ∧ t.text.toList = c :: w ∧ isMargin c := by
  obtain ⟨hle, -, htrivia⟩ := next_spec hnext
  by_cases hp : p = n
  · subst hp
    obtain ⟨t, ht, hkind⟩ := Option.map_eq_some_iff.mp hk
    rw [← tokens_getElem?] at ht
    have hmarks : ∀ k ∈ [.comma, .rightParen, .rightBrace], k ∈ markKinds ∧ k ≠ Kind.whitespace := by decide
    obtain ⟨hmark, hblank⟩ := hmarks k hclosing
    rw [← hkind] at hmark hblank hclosing
    obtain ⟨c, hc, hsole⟩ := (hlegible.read_at ht hblank).mark hmark
    refine ⟨t, c, [], ht, hc, ?_⟩
    unfold soleMark? at hsole
    split at hsole
    all_goals first
      | decide
      | contradiction
      | (rw [← Option.some.inj hsole] at hclosing; exact absurd hclosing (by decide))
  · obtain ⟨t, ht, htriv⟩ := htrivia p le_rfl (by omega)
    rw [← tokens_getElem?] at ht
    obtain ⟨c, w, hcw, hc⟩ := hlegible.trivia_first ht (htext t (mem_of_getElem? ht)) htriv
    refine ⟨t, c, w, ht, hcw, ?_⟩
    rcases hc with hblank | rfl | rfl
    · rw [isMargin, hblank]
      rfl
    · decide
    · decide

theorem seen_of_trivia {q : Nat} {k : Kind} (hqp : q < p) (htriv : s.TriviaIn (q + 1) p) (hk : s.kind? q = some k)
    (hsig : k.isTrivia = false) : (s.tokens.toList.take p).foldl seenAfter none = some k := by
  obtain ⟨t, ht, rfl⟩ := Option.map_eq_some_iff.mp hk
  refine seen_of_between hqp (by rw [tokens_getElem?]; exact ht) hsig (fun m v hqm hmp hv => ?_) none
  exact htriv.isTrivia (by omega) hmp (by rw [← tokens_getElem?]; exact hv)

theorem kind_of_isListOpen {k : Kind} (h : isListOpen (some k)) :
    k ∈ markKinds ∧ k.isTrivia = false ∧ contextOf (some k) = none := by
  rw [isListOpen, Bool.or_eq_true, beq_iff_eq, beq_iff_eq] at h
  rcases h with h | h <;> cases h <;> decide

theorem mayEnd_of_kind (hlegible : Legible .html none s.tokens.toList) {u : Token} (hu : s.tokens.toList[p]? = some u)
    {d : Char} {w : List Char} (hdw : u.text.toList = d :: w) (hk : s.kind? p ∈ [some .rightBrace, some .whitespace])
    (ρ : List Char) : mayEnd (d :: ρ) := by
  simp only [kind?_get? ((tokens_getElem? s p).symm.trans hu), mem_cons, not_mem_nil, or_false, Option.some.injEq] at hk
  rcases hk with hk | hk
  · obtain ⟨c, hc, hsole⟩ := (hlegible.read_at hu (by rw [hk]; decide)).mark (by rw [hk]; decide)
    rw [hdw] at hc
    obtain rfl := (cons.inj hc).1
    rw [hk] at hsole
    unfold soleMark? at hsole
    split at hsole <;> first | rfl | cases hsole
  · show (isBlank d || _) = true
    rw [hlegible.blank_text (mem_of_getElem? hu) hk d (hdw ▸ mem_cons_self)]
    rfl

namespace IsInjection

theorem insertion_at (h : IsInjection s indent r inserts) (hnames : ∀ v ∈ r.entries, isIdentifier v.name.toList)
    (hne : Edit.generatedAt inserts p ≠ []) : ∃ code, Edit.generatedAt inserts p = lexFragment code ∧ Insertion s p code
      ∧ InsertableAt s p code := by
  obtain ⟨e, he, rfl⟩ := Edit.exists_generatedAt hne
  have hgen := Edit.generatedAt_mem (inject_distinct h.answer) he
  obtain ⟨p, code, rfl, hinsertion⟩ := inject_insertions h hnames e he
  obtain ⟨p', code', heq, hins⟩ := inject_code h.indented h.plain h.answer _ he
  have hplace : p = p' := congrArg (·.span.start) heq
  have htoks : lexFragment code = lexFragment code' := congrArg Edit.replacement heq
  have hsame : code = code' := by
    apply String.toList_injective
    rw [← chars_fragment, htoks, chars_fragment]
  subst hplace hsame
  exact ⟨code, hgen, hinsertion, hins⟩

theorem behindCode_eq (h : IsInjection s indent r inserts) {t : Token} (ht : s.tokens.toList[p]? = some t) :
    behindCode s.tokens.toList inserts p = t :: wovenFrom s.tokens.toList inserts (p + 1) := by
  rw [behindCode, h.covers_eq_false, if_neg Bool.false_ne_true, ht]
  rfl

theorem fits (h : IsInjection s indent r inserts) (hlegible : Legible .html none s.tokens.toList)
    (htext : ∀ u ∈ s.tokens.toList, u.text.toList ≠ []) (hins : Insertion s p code) {ks : List Kind}
    (hinert : InertText code.toList ks) :
    Fits ((s.tokens.toList.take p).foldl seenAfter none) (lexFragment code)
      (charsOf (behindCode s.tokens.toList inserts p)) := by
  -- a variable fits in front of a token that begins with a margin
  have hvar : ∀ {n : Nat} {k : Kind}, EndsWithVariable code → s.nextSignificant? p = some n → s.kind? n = some k →
      k ∈ [.comma, .rightParen, .rightBrace] → BeginsFree ((s.tokens.toList.take p).foldl seenAfter none) code →
      Fits ((s.tokens.toList.take p).foldl seenAfter none) (lexFragment code)
        (charsOf (behindCode s.tokens.toList inserts p)) := by
    intro n k hends hnext hk hclosing hfst
    obtain ⟨t, c, w, ht, hcw, hmargin⟩ := margin_of_next hlegible htext hnext hk hclosing
    rw [h.behindCode_eq ht, charsOf_cons, hcw]
    exact (hends.fits hinert hfst).1 c _ hmargin
  cases hins with
  | top here brace ends =>
    have hseen := seen_of_trivia (p := p) (by omega) (fun m h₁ h₂ => by omega) brace rfl
    rw [hseen]
    exact (ends.fits (by decide) hinert (.inl rfl)).1 _
  | beforeParameter lt trivia mark list here sig ends =>
    obtain ⟨-, hsig, hctx⟩ := kind_of_isListOpen list
    rw [seen_of_trivia lt trivia mark hsig]
    exact (ends.fits (by decide) hinert (.inl hctx)).1 _
  | behindMark here mark list next kind closing ends =>
    obtain ⟨-, hsig, hctx⟩ := kind_of_isListOpen list
    have hseen := seen_of_trivia (p := p) (by omega) (fun m h₁ h₂ => by omega) mark hsig
    rcases ends with ends | ends
    · rw [hseen]
      exact (ends.fits (by decide) hinert (.inl hctx)).1 _
    · refine hvar ends next kind ?_ (.inl (by rw [hseen]; exact hctx))
      have hsub : ∀ k ∈ [Kind.comma, .rightParen], k ∈ [.comma, .rightParen, .rightBrace] := by decide
      exact hsub _ closing
  | behindParameter here before sig next kind begins unreserved ends =>
    exact hvar ends next kind (by decide) (.inr unreserved)
  | beforeParent here parent begins unreserved ends => exact (ends.fits (by decide) hinert (.inr unreserved)).1 _
  | atEnd next kind blank begins unreserved ends => exact (ends.fits (by decide) hinert (.inr unreserved)).1 _

theorem front (hlegible : Legible .html none s.tokens.toList) (htext : ∀ u ∈ s.tokens.toList, u.text.toList ≠ [])
    {t : Token} (ht : s.tokens.toList[i]? = some t) (hins : Insertion s (i + 1) code)
    (hmode : ∃ u, s.tokens.toList[i + 1]? = some u ∧ u.kind.mode = .php) (rest : List Char) :
    t.Parts (charsOf (s.tokens.toList.drop (i + 1))) (code.toList ++ rest) := by
  obtain ⟨u, hu, hphp⟩ := hmode
  have hmark : ∀ {k : Kind}, s.kind? i = some k → k ∈ markKinds →
      t.Parts (charsOf (s.tokens.toList.drop (i + 1))) (code.toList ++ rest) := by
    intro k hk hkind
    rw [kind?, ← tokens_getElem?, ht, Option.map_some, Option.some.injEq] at hk
    exact hlegible.front_mark ht (hk ▸ hkind) _ _
  -- code that begins apart, in front of a token that is no part of a number
  have hapart : ∀ {c d : Char} {w : List Char}, nextIs (· == c) code.toList → c ∈ ['\n', ' ', ',', ')', '$'] →
      u.text.toList = d :: w → binds d = false ∧ isNumeral d = false → (t.isLineComment → c = '\n') →
      (t.takesFeed → isBlank c = false) → t.Parts (charsOf (s.tokens.toList.drop (i + 1))) (code.toList ++ rest) := by
    intro c d w hbegins hc hutext hd hline hfeed
    obtain ⟨x, cs, hcode, hx⟩ := cons_of_nextIs hbegins
    rw [hcode, beq_iff_eq.mp hx]
    exact hlegible.front_apart ht hu hutext hd hc hline hfeed hphp (cs ++ rest)
  have hmargin : ∀ {n : Nat} {k : Kind}, s.nextSignificant? (i + 1) = some n → s.kind? n = some k →
      k ∈ [.comma, .rightParen, .rightBrace] → ∃ d w, u.text.toList = d :: w ∧ binds d = false ∧ isNumeral d = false := by
    intro n k hnext hk hclosing
    obtain ⟨x, d, w, hx, hdw, hd⟩ := margin_of_next hlegible htext hnext hk hclosing
    rw [hu] at hx
    cases hx
    obtain ⟨-, -, -, h₄, h₅⟩ := isMargin_spec hd
    exact ⟨d, w, hdw, h₄, h₅⟩
  have hcom := hlegible.behind_lineComment ht hu
  cases hins with
  | top here brace ends =>
    obtain rfl := Nat.succ.inj here
    exact hmark brace (by decide)
  | @beforeParameter q k x lt trivia mark list here sig ends =>
    obtain ⟨hkind, hsig, -⟩ := kind_of_isListOpen list
    by_cases hq : q = i
    · exact hmark (hq ▸ mark) hkind
    · -- in front of a parameter: the token behind a line comment would be a close tag in a list
      have htriv : t.isTrivia :=
        trivia.isTrivia (by omega) i.lt_succ_self (by rw [← tokens_getElem?]; exact ht)
      rw [← tokens_getElem?, hu] at here
      cases here
      have hline : t.isLineComment = false := by
        rw [← Bool.not_eq_true]
        intro hline
        rcases hcom hline with hblank | htag
        · rw [Token.isTrivia, hblank] at sig
          cases sig
        · rw [← seen_of_trivia lt trivia mark hsig, hlegible.list_closed hu htag] at list
          cases list
      have hne : charsOf (s.tokens.toList.drop (i + 1)) ≠ [] := by
        refine charsOf_ne_nil (fun hnil => ?_) fun x hx => htext x (mem_of_mem_drop hx)
        have hlt := lt_getElem? hu
        have := drop_eq_nil_iff.mp hnil
        omega
      exact hlegible.front_trivia ht (htext t (mem_of_getElem? ht)) htriv hline hne _
  | behindMark here mark list next kind closing ends =>
    obtain rfl := Nat.succ.inj here
    exact hmark mark (kind_of_isListOpen list).1
  | @behindParameter q n x here before sig next kind begins unreserved ends =>
    obtain rfl := Nat.succ.inj here
    rw [← tokens_getElem?, ht] at before
    cases before
    obtain ⟨d, w, hdw, hd⟩ := hmargin next kind (by decide)
    refine hapart begins (by decide) hdw hd (fun hline => ?_) fun _ => rfl
    rw [Token.isLineComment, Bool.and_eq_true, beq_iff_eq] at hline
    rw [Token.isTrivia, hline.1] at sig
    cases sig
  | beforeParent here parent begins unreserved ends =>
    rw [← tokens_getElem?, hu] at here
    cases here
    obtain ⟨-, d, w, hdw, hd⟩ := not_reserved_parent parent
    refine hapart begins (by decide) hdw hd (fun hline => ?_) fun _ => rfl
    rw [Token.isWord, Bool.and_eq_true] at parent
    rcases hcom hline with hkind | hkind <;> rw [hkind] at parent <;> cases parent.1
  | atEnd next kind blank begins unreserved ends =>
    obtain ⟨d, w, hdw, hd⟩ := hmargin next kind (by decide)
    refine hapart begins (by decide) hdw hd (fun _ => rfl) fun hfeed => ?_
    -- behind such an open tag no body ends
    have hkind : s.kind? (i + 1) ∈ [some .rightBrace, some .whitespace] := by
      rcases blank with rfl | hblank
      · simp [kind]
      · simp [hblank]
    have hend := hlegible.mayEnd_at ht hfeed
    rw [drop_of_getElem? hu, charsOf_cons, hdw, cons_append, mayEnd_of_kind hlegible hu hdw hkind] at hend
    cases hend

theorem pending (h : IsInjection s indent r inserts) (hins : Insertion s p code) {ks : List Kind}
    (hinert : InertText code.toList ks) (last : Option Kind) :
    Pending s.tokens.toList inserts p ((lexFragment code).foldl seenAfter last) := by
  intro j t hpj hbtw _ ht hsig
  have htrivia : s.TriviaIn p j := by
    intro m hpm hmj
    rcases (hbtw m hpm hmj).1 with hcov | ⟨u, hu, htriv⟩
    · rw [h.covers_eq_false] at hcov
      cases hcov
    · exact ⟨u, by rw [← tokens_getElem?]; exact hu, htriv⟩
  have hget : s.get? j = some t := by rw [← tokens_getElem?]; exact ht
  -- the kind behind which the code was put is still the last one
  have hbehind : ∀ {q : Nat} {k : Kind}, q < p → s.TriviaIn (q + 1) p → s.kind? q = some k → k.isTrivia = false →
      (s.tokens.toList.take j).foldl seenAfter none = some k := by
    intro q k hqp hq hk hksig
    refine seen_of_trivia (by omega) (fun m h₁ h₂ => ?_) hk hksig
    by_cases hm : m < p
    · exact hq m h₁ hm
    · exact htrivia m (by omega) h₂
  -- closing brackets are neither words nor tags
  have hclosing : ∀ {n : Nat} {k : Kind}, s.nextSignificant? p = some n → s.kind? n = some k → k.isWord = false →
      k ≠ .closeTag → t.isContextual = false ∧ t.kind ≠ .closeTag := by
    intro n k hn hk hword htag
    have hsame := next_of_triviaIn hpj htrivia hget hsig
    rw [hn, Option.some.injEq] at hsame
    rw [hsame, kind?_get? hget, Option.some.injEq] at hk
    rw [Token.isContextual, hk, hword]
    exact ⟨rfl, htag⟩
  have hdone : t.isContextual = false ∧ t.kind ≠ .closeTag → ∀ last' : Option Kind,
      (t.isContextual → contextOf last' = none) ∧ (t.kind = .closeTag →
        isListOpen ((lexFragment code).foldl seenAfter last) = true → isListOpen last') := by
    rintro ⟨hword, htag⟩ last'
    refine ⟨fun h => ?_, fun h => absurd h htag⟩
    rw [hword] at h
    cases h
  cases hins with
  | top here brace ends =>
    rw [hbehind (by omega) (fun m h₁ h₂ => by omega) brace rfl]
    refine ⟨fun _ => rfl, fun _ hopen => ?_⟩
    have hfree : BeginsFree none code := .inl rfl
    obtain ⟨d, hd, hlast⟩ := (ends.fits (by decide) hinert hfree).2
    rw [hlast] at hopen
    have hclosed : ∀ d ∈ [';', '\x7d'], isListOpen (soleMark? d) = false := by decide
    rw [hclosed d hd] at hopen
    cases hopen
  | beforeParameter lt trivia mark list here sig ends =>
    obtain ⟨-, hksig, hctx⟩ := kind_of_isListOpen list
    rw [hbehind lt trivia mark hksig]
    exact ⟨fun _ => hctx, fun _ _ => list⟩
  | behindMark here mark list next kind closing ends =>
    obtain ⟨-, hksig, hctx⟩ := kind_of_isListOpen list
    rw [hbehind (by omega) (fun m h₁ h₂ => by omega) mark hksig]
    exact ⟨fun _ => hctx, fun _ _ => list⟩
  | behindParameter here before sig next kind begins unreserved ends =>
    exact hdone (hclosing next kind rfl (by decide)) _
  | beforeParent here parent begins unreserved ends =>
    have hself := next_of_triviaIn le_rfl (fun m h₁ h₂ => by omega) here (isTrivia_of_isWord parent).1
    rw [next_of_triviaIn hpj htrivia hget hsig, Option.some.injEq] at hself
    rw [← hself, hget] at here
    cases here
    refine hdone ⟨(not_reserved_parent parent).1, fun htag => ?_⟩ _
    rw [Token.isWord, htag] at parent
    cases parent
  | atEnd next kind blank begins unreserved ends => exact hdone (hclosing next kind rfl (by decide)) _

variable (h : IsInjection s indent r inserts) (hnames : ∀ v ∈ r.entries, isIdentifier v.name.toList)
  (hlegible : Legible .html none s.tokens.toList) (htext : ∀ u ∈ s.tokens.toList, u.text.toList ≠ [])

include h hnames hlegible htext

theorem joinable : Joinable s.tokens.toList inserts := by
  have hplace : ∀ p, Edit.generatedAt inserts p ≠ [] → ∃ t, s.tokens.toList[p]? = some t ∧ t.kind.mode = .php := by
    intro p hne
    obtain ⟨code, -, -, hins⟩ := h.insertion_at hnames hne
    obtain ⟨t, ht⟩ := get?_of_lt hins.lt
    refine ⟨t, by rw [tokens_getElem?, ht], ?_⟩
    rcases hins.place with ⟨q, k, rfl, hk, hnext⟩ | ⟨k, hk, hmode⟩
    · obtain ⟨u, hu, rfl⟩ := Option.map_eq_some_iff.mp hk
      rw [← tokens_getElem?] at ht hu
      rw [hlegible.mode_next hu ht, hnext]
    · rw [kind?_get? ht, Option.some.injEq] at hk
      rw [hk, hmode]
  refine ⟨fun i hcov => ?_, fun i t _ hcov => ?_, hplace, fun p hne => ?_, fun i t ht _ hne => ?_, fun p hne last => ?_⟩
  · rw [h.covers_eq_false] at hcov
    cases hcov
  · rw [h.covers_eq_false] at hcov
    cases hcov
  · obtain ⟨code, hcode, hinsertion, hins⟩ := h.insertion_at hnames hne
    obtain ⟨ks, hinert, -⟩ := hins.inert
    rw [hcode]
    exact h.fits hlegible htext hinsertion hinert
  · obtain ⟨code, hcode, hinsertion, hins⟩ := h.insertion_at hnames hne
    have hlt : i + 1 < s.tokens.toList.length := by
      rw [Array.length_toList]
      exact hins.lt
    rw [wovenFrom_eq hlt, hcode, charsOf_append, chars_fragment]
    exact (front hlegible htext ht hinsertion (hplace _ hne) _).imp_left fun h _ => h
  · obtain ⟨code, hcode, hinsertion, hins⟩ := h.insertion_at hnames hne
    obtain ⟨ks, hinert, -⟩ := hins.inert
    rw [hcode]
    exact h.pending hinsertion hinert last

theorem legible : Legible .html none (Edit.weave s.tokens.toList inserts) :=
  weave_legible (h.joinable hnames hlegible htext) hlegible htext

end IsInjection

end

end MageUplift
