import MageUplift.Proofs.InjectedTokens
import MageUplift.Proofs.TokenRereading

/-!
# The significant tokens of generated code

The code of the injector is put together from pieces: blanks and doc comments, classes and variables, statements.
Each piece is read as the same tokens wherever it stands (`Reads`), so the tokens of all the code are those of its
pieces one after the other.
-/

namespace MageUplift

open List
open String (toList_append)

variable {c d : Char} {cs b rest a p bs : List Char} {v : Collaborator} {k : Kind} {name : String} {ts : List Token}
  {α : Type} {ps : List (List Char)}

namespace Wiring

open Php TokenStream
open Call (Collaborator)

/-! ## §1. Text that is read as tokens. -/

theorem isNamePart_of_isBlank (h : isBlank c) : isNamePart c = false := by
  have hblanks : ∀ c ∈ [' ', '\t', '\n', '\r', '\x0b', '\x0c'], isNamePart c = false := by decide
  exact hblanks c (mem_blanks h)

theorem isNamePart_of_soleMark? (h : soleMark? c = some k) : isNamePart c = false := by
  unfold soleMark? at h
  split at h
  all_goals first | decide | cases h

/-- Behind anything that does not name a member, and in front of anything that does not go on with a name, the text is
read as the tokens. -/
structure Reads (cs : List Char) (ts : List Token) : Prop where
  starts : nextIs isNamePart cs = false
  read : ∀ last rest, contextOf last = none → nextIs isNamePart rest = false →
    ∃ last', contextOf last' = none ∧ codeTokens last (cs ++ rest) = ts ++ codeTokens last' rest

namespace Reads

theorem tokens (h : Reads cs ts) : codeTokens none cs = ts := by
  obtain ⟨last', -, heq⟩ := h.read none [] rfl rfl
  rwa [append_nil, codeTokens_nil, append_nil] at heq

theorem append {x y : List Token} (ha : Reads a x) (hb : Reads b y) : Reads (a ++ b) (x ++ y) where
  starts := by
    cases a with
    | nil => exact hb.starts
    | cons c a => exact ha.starts
  read := by
    intro last rest hlast hrest
    have hnext : nextIs isNamePart (b ++ rest) = false := by
      cases b with
      | nil => exact hrest
      | cons c b => exact hb.starts
    obtain ⟨last₁, hlast₁, h₁⟩ := ha.read last (b ++ rest) hlast hnext
    obtain ⟨last₂, hlast₂, h₂⟩ := hb.read last₁ rest hlast₁ hrest
    exact ⟨last₂, hlast₂, by rw [append_assoc, h₁, h₂, append_assoc]⟩

theorem blanks (hb : ∀ x ∈ b, isBlank x) : Reads b [] where
  starts := by
    cases b with
    | nil => rfl
    | cons c b => exact isNamePart_of_isBlank (hb c mem_cons_self)
  read := fun last rest hlast _ => ⟨last, hlast, codeTokens_blanks hb last rest⟩

theorem comment {body : List Char} (hbody : '/' ∉ body) : Reads ('/' :: '*' :: (body ++ ['*', '/'])) [] where
  starts := rfl
  read := fun last rest hlast _ => ⟨last, hlast, codeTokens_comment (InertText.commentEnd?_append 1 hbody) last rest⟩

theorem mark (hc : soleMark? c = some k) (hk : k.isNaming = false) : Reads [c] [⟨k, .ofList [c]⟩] where
  starts := isNamePart_of_soleMark? hc
  read := fun last rest _ _ =>
    ⟨some k, contextOf_eq_none (fun k' hk' => by cases hk'; exact hk), codeTokens_mark hc last rest⟩

theorem join {l : List α} {f : α → String} {g : α → List Token} (h : ∀ x ∈ l, Reads (f x).toList (g x)) :
    Reads (String.join (l.map f)).toList (l.flatMap g) := by
  induction l with
  | nil => exact blanks nofun
  | cons x l ih =>
    rw [map_cons, String.join_cons, toList_append, flatMap_cons]
    exact (h x mem_cons_self).append (ih (forall_mem_cons.mp h).2)

theorem intercalate {sep : String} {between : List Token} {l : List α} {f : α → String} {g : α → List Token}
    (hsep : Reads sep.toList between) (h : ∀ x ∈ l, Reads (f x).toList (g x)) :
    Reads (sep.intercalate (l.map f)).toList (between.intercalate (l.map g)) := by
  induction l with
  | nil => exact blanks nofun
  | cons x l ih =>
    have hx := h x mem_cons_self
    cases l with
    | nil => simpa [String.intercalate_singleton] using hx
    | cons y l =>
      have hl := ih (forall_mem_cons.mp h).2
      rw [map_cons, map_cons, String.intercalate_cons_cons, toList_append, toList_append,
        ← map_cons]
      simpa [List.intercalate] using (hx.append hsep).append hl

end Reads

/-! ## §2. Pieces of code. -/

/-- A name that can be one, and a class by its full name. -/
structure Proper (v : Collaborator) : Prop where
  name : isIdentifier v.name.toList = true
  type : isQualifiedClassName v.type = true

theorem Proper.plain (h : Proper v) : v.Plain :=
  ⟨nameText_identifier h.name, isClassText_qualified h.type⟩

def variableToken (name : String) : Token := ⟨.variableName, "$" ++ name⟩

theorem variableToken_eq (name : String) : (⟨.variableName, .ofList ('$' :: name.toList)⟩ : Token)
    = variableToken name := by
  rw [variableToken, Token.mk.injEq]
  refine ⟨rfl, String.toList_injective ?_⟩
  rw [String.toList_ofList, toList_append]
  rfl

theorem Reads.variable (h : isIdentifier name.toList) :
    Reads ('$' :: name.toList) [variableToken name] where
  starts := rfl
  read := fun last rest _ hrest =>
    ⟨some .variableName, rfl, by rw [cons_append, codeTokens_variable h hrest, variableToken_eq]; rfl⟩

theorem numberRule_of_isDigit (hc : c.isDigit) (last : Option Kind) (cs : List Char) :
    ∃ more, numberRule last c cs = some (.code .number more []) := by
  unfold numberRule
  split <;> exact ⟨_, rfl⟩

theorem isDigit_of_isNamePart (h : isNamePart c) (hstart : isNameStart c = false) : c.isDigit := by
  simp only [isNamePart, isNameStart, Char.isAlphanum, Bool.or_eq_true, Bool.or_eq_false_iff] at h hstart
  obtain ⟨⟨h₁, h₂⟩, h₃⟩ := hstart
  simpa [h₁, h₂, h₃] using h

theorem phpLexeme_digit {w y : List Char} (hc : c.isDigit) (hd : d = ' ' ∨ d = ';') (last : Option Kind) :
    ∃ more, phpLexeme last c w = .code .number more [] ∧ more ≤ w.length
      ∧ phpLexeme last c (w ++ d :: y) = .code .number more [] := by
  have hrule : numberRule ∈ wordRules := by simp [wordRules]
  obtain ⟨more, hmore⟩ := numberRule_of_isDigit hc last w
  have hlen : 1 + more ≤ 1 + w.length := (Rule.reads (by simp [phpRules]) hmore).length_le
  refine ⟨more, phpLexeme_rule hrule hmore, by omega, phpLexeme_rule hrule ?_⟩
  have hends : nextIs binds (d :: y) = false ∧ nextIs isNumeral (d :: y) = false := by
    rcases hd with rfl | rfl <;> exact ⟨by rfl, by rfl⟩
  have hend : NumberEnd more w [] (d :: y) := ⟨rfl, hends.1, .inl ⟨rfl, hends.2⟩⟩
  refine hend.numberRule_eq (by rwa [append_nil]) ?_
  show 1 + more = more + 1
  omega

theorem codeTokens_nameText {w y : List Char} (hw : IsNameText w) (hd : d = ' ' ∨ d = ';') (last : Option Kind) :
    (∃ last', codeTokens last (w ++ d :: y) = codeTokens last w ++ codeTokens last' (d :: y))
      ∧ ∀ t ∈ codeTokens last w, t.kind ≠ .variableName := by
  induction hn : w.length using Nat.strongRecOn generalizing w last with
  | ind n ih =>
    cases w with
    | nil =>
      rw [codeTokens_nil]
      exact ⟨⟨last, rfl⟩, nofun⟩
    | cons c w =>
      have hrest : ∀ x ∈ w, isNamePart x := (forall_mem_cons.mp hw).2
      cases hstart : isNameStart c with
      | true =>
        have hend : nameRun (d :: y) = 0 := by rcases hd with rfl | rfl <;> rfl
        have hword : codeTokens last (c :: w) = [⟨wordKind last (.ofList (c :: w)), .ofList (c :: w)⟩] := by
          have := @codeTokens_word last _ _ [] hstart hrest rfl
          rwa [append_nil, codeTokens_nil] at this
        rw [hword, cons_append, codeTokens_word hstart hrest hend]
        refine ⟨⟨_, rfl⟩, fun t ht => ?_⟩
        rw [mem_singleton.mp ht]
        rcases wordKind_cases last (.ofList (c :: w)) with hk | ⟨k, hk⟩ <;> rw [hk] <;> nofun
      | false =>
        have hdigit := isDigit_of_isNamePart (hw c mem_cons_self) hstart
        obtain ⟨more, hshort, hle, hlong⟩ := phpLexeme_digit (w := w) (y := y) hdigit hd last
        -- the number, and what is left of the name
        have hlen : (w.take more).length = more := by rw [length_take]; omega
        obtain ⟨⟨last', htail⟩, hkinds⟩ := ih (w.drop more).length (by rw [← hn, length_drop, length_cons]; omega)
          (w := w.drop more) (fun x hx => hrest x (mem_of_mem_drop hx)) (some .number) rfl
        have h₁ : codeTokens last (c :: w) = ⟨.number, .ofList (c :: w.take more)⟩
          :: codeTokens (some .number) (w.drop more) := by
          have := @codeTokens_code last c (w.take more) (w.drop more) .number
            (by rw [take_append_drop, hlen]; exact hshort) rfl
          rwa [take_append_drop] at this
        have h₂ : codeTokens last (c :: w ++ d :: y) = ⟨.number, .ofList (c :: w.take more)⟩
            :: codeTokens (some .number) (w.drop more ++ d :: y) := by
          rw [show c :: w ++ d :: y = c :: (w.take more ++ (w.drop more ++ d :: y)) by
            rw [← append_assoc, take_append_drop]; rfl]
          refine codeTokens_code ?_ rfl
          rw [← append_assoc, take_append_drop, hlen]
          exact hlong
        rw [h₁, h₂, htail]
        refine ⟨⟨last', rfl⟩, fun t ht => ?_⟩
        rcases mem_cons.mp ht with rfl | ht
        · nofun
        · exact hkinds t ht

theorem codeTokens_selected (hname : isIdentifier name.toList) :
    codeTokens (some .arrow) name.toList = [⟨.identifier, name⟩] := by
  have hword := @codeTokens_identifier name [] hname rfl (some .arrow)
  rwa [append_nil, codeTokens_nil] at hword

theorem codeTokens_dollar {cs rest : List Char} (h : nextIs isNameStart cs = false)
    (hrest : nextIs isNameStart rest = false)
    (last : Option Kind) : codeTokens last ('$' :: (cs ++ rest))
      = ⟨.dollar, "$"⟩ :: codeTokens (some .dollar) (cs ++ rest) := by
  have hnext : nextIs isNameStart (cs ++ rest) = false := by
    cases cs with
    | nil => exact hrest
    | cons c cs => exact h
  have hrule : dollarRule last '$' (cs ++ rest) = some (.code .dollar 0 []) := by
    rw [dollarRule, if_pos (beq_self_eq_true '$'), hnext]
    rfl
  exact codeTokens_code (w := []) (phpLexeme_rule (by simp [wordRules]) hrule) rfl

def assignmentTokens (v : Collaborator) : List Token :=
  variableToken "this" :: ⟨.arrow, "->"⟩ :: (codeTokens (some .arrow) v.name.toList ++ ⟨.equals, "="⟩
    :: (codeTokens (some .equals) ('$' :: v.name.toList) ++ [⟨.semicolon, ";"⟩]))

theorem assignmentTokens_eq (hname : isIdentifier v.name.toList) :
    assignmentTokens v
      = [variableToken "this", ⟨.arrow, "->"⟩, ⟨.identifier, v.name⟩, ⟨.equals, "="⟩, variableToken v.name,
      ⟨.semicolon, ";"⟩] := by
  have hvar := @codeTokens_variable (some .equals) _ [] hname rfl
  rw [append_nil, codeTokens_nil, variableToken_eq] at hvar
  rw [assignmentTokens, codeTokens_selected hname, hvar]
  rfl

theorem codeTokens_assigned (hname : IsNameText name.toList) (rest : List Char) :
    ∃ last', codeTokens (some .equals) ('$' :: (name.toList ++ ';' :: rest))
      = codeTokens (some .equals) ('$' :: name.toList) ++ codeTokens last' (';' :: rest) := by
  cases hstart : nextIs isNameStart name.toList with
  | true =>
    have hident : isIdentifier name.toList := isIdentifier_iff.mpr ⟨hstart, hname⟩
    have hshort := @codeTokens_variable (some .equals) _ [] hident rfl
    rw [append_nil, codeTokens_nil] at hshort
    exact ⟨_, by rw [hshort, codeTokens_variable hident rfl]; rfl⟩
  | false =>
    obtain ⟨⟨last', htail⟩, -⟩ := codeTokens_nameText (y := rest) hname (.inr rfl) (some .dollar)
    have hshort := @codeTokens_dollar _ [] hstart rfl (some .equals)
    rw [append_nil] at hshort
    exact ⟨last', by rw [codeTokens_dollar hstart rfl, htail, hshort]; rfl⟩

theorem reads_assignmentCode (hname : IsNameText v.name.toList) :
    Reads (assignmentCode v).toList (assignmentTokens v) where
  starts := by
    rw [assignmentCode]
    simp [nextIs]
    decide
  read := by
    intro last rest _ _
    have htext : (assignmentCode v).toList ++ rest = '$' :: ("this".toList ++ '-' :: '>' :: (v.name.toList
        ++ ' ' :: '=' :: ' ' :: '$' :: (v.name.toList ++ ';' :: rest))) := by
      simp [assignmentCode]
    have hequals : ∀ last cs, codeTokens last ('=' :: ' ' :: cs)
      = ⟨.equals, "="⟩ :: codeTokens (some .equals) (' ' :: cs) :=
      fun last cs => codeTokens_code (w := []) (k := .equals) (by rfl) rfl
    obtain ⟨⟨_, hsel⟩, -⟩ := codeTokens_nameText (y := '=' :: ' ' :: '$' :: (v.name.toList ++ ';' :: rest)) hname
      (.inl rfl) (some .arrow)
    obtain ⟨_, hasg⟩ := codeTokens_assigned hname rest
    refine ⟨some .semicolon, rfl, ?_⟩
    rw [htext, codeTokens_variable (by decide) rfl, codeTokens_arrow, hsel, codeTokens_blank (by decide), hequals,
      codeTokens_blank (by decide), hasg, codeTokens_mark (c := ';') (k := .semicolon) rfl, assignmentTokens]
    simp only [cons_append, append_assoc, nil_append]
    rfl

def parameterTokens (v : Collaborator) : List Token := [⟨.qualifiedName, v.type⟩, variableToken v.name]

theorem nextIs_of_split (h : Text.split '\\' cs = p :: ps) (hp : isIdentifier p) : nextIs isNameStart cs := by
  cases cs with
  | nil =>
    cases h
    cases hp
  | cons c cs =>
    rw [Text.split] at h
    split at h
    · cases h
      cases hp
    · split at h
      all_goals
        cases h
        exact (isIdentifier_iff.mp hp).1

theorem nameRun_pieces (h : Text.split '\\' cs = p :: ps)
    (hp : IsNameText p) (hps : ∀ q ∈ ps, isIdentifier q) (hrest : nameRun rest = 0) :
    nameRun (cs ++ rest) = cs.length := by
  induction cs generalizing p ps with
  | nil => exact hrest
  | cons c cs ih =>
    rw [Text.split] at h
    split at h
    · rename_i hc
      obtain ⟨-, rfl⟩ := cons.inj h
      cases hsplit : Text.split '\\' cs with
      | nil => exact absurd hsplit (Text.split_ne_nil '\\' cs)
      | cons q qs =>
        have hq := hps q (hsplit ▸ mem_cons_self)
        have hnext : nextIs isNameStart (cs ++ rest) := by
          have := nextIs_of_split hsplit hq
          cases cs with
          | nil => cases this
          | cons c cs => exact this
        rw [cons_append, nameRun, if_pos (by rw [hc, hnext, Bool.and_self, Bool.or_true]),
          ih hsplit (nameText_identifier hq) fun x hx => hps x (hsplit ▸ mem_cons_of_mem q hx), length_cons]
    · split at h
      · rename_i hnil
        exact absurd hnil (Text.split_ne_nil '\\' cs)
      · rename_i q qs hsplit
        obtain ⟨rfl, rfl⟩ := cons.inj h
        rw [cons_append, nameRun, if_pos (by rw [hp c mem_cons_self, Bool.true_or]),
          ih hsplit (forall_mem_cons.mp hp).2 hps, length_cons]

theorem nameRun_split (h : (Text.split '\\' cs).all isIdentifier) (hrest : nameRun rest = 0) :
    nextIs isNameStart cs ∧ nameRun (cs ++ rest) = cs.length := by
  cases hsplit : Text.split '\\' cs with
  | nil => exact absurd hsplit (Text.split_ne_nil '\\' cs)
  | cons p ps =>
    rw [hsplit, all_cons, Bool.and_eq_true, all_eq_true] at h
    exact ⟨nextIs_of_split hsplit h.1, nameRun_pieces hsplit (nameText_identifier h.1) h.2 hrest⟩

theorem codeTokens_type {type : String} (h : isQualifiedClassName type) (last : Option Kind)
    (hrest : nameRun rest = 0) :
    codeTokens last (type.toList ++ rest) = ⟨.qualifiedName, type⟩ :: codeTokens (some .qualifiedName) rest := by
  rw [isQualifiedClassName] at h
  split at h
  · rename_i cs htext
    obtain ⟨hstart, hrun⟩ := nameRun_split h hrest
    have hnext : nextIs isNameStart (cs ++ rest) := by
      cases cs with
      | nil => cases hstart
      | cons c cs => exact hstart
    have hlex : phpLexeme last '\\' (cs ++ rest) = .code .qualifiedName cs.length [] := by
      rw [phpLexeme_separator last hnext, hrun]
    rw [htext, cons_append, codeTokens_code hlex rfl, ← htext, String.ofList_toList]
  · cases h

theorem reads_parameterCode (hv : Proper v) : Reads (parameterCode v).toList (parameterTokens v) where
  starts := by
    obtain ⟨path, htype, -⟩ := isClassText_qualified hv.type
    rw [parameterCode, toList_append, toList_append, htype]
    rfl
  read := by
    intro last rest _ hrest
    have htext : (parameterCode v).toList ++ rest = v.type.toList ++ ' ' :: '$' :: (v.name.toList ++ rest) := by
      simp [parameterCode]
    refine ⟨some .variableName, rfl, ?_⟩
    rw [htext, codeTokens_type hv.type last rfl, codeTokens_blank (by decide), codeTokens_variable hv.name hrest,
      variableToken_eq]
    rfl

def propertyTokens (v : Collaborator) : List Token :=
  [⟨.keyword .protectedKw, "protected"⟩, variableToken v.name, ⟨.semicolon, ";"⟩]

theorem Reads.semicolon : Reads [';'] [⟨.semicolon, ";"⟩] := .mark (k := .semicolon) rfl rfl

theorem Reads.comma : Reads [','] [⟨.comma, ","⟩] := .mark (k := .comma) rfl rfl

theorem Reads.word {b : Char} {word : String} (hbs : ∀ x ∈ b :: bs, isBlank x)
    (hword : isIdentifier word.toList) (hkind : wordKind none word = k) (hnaming : k.isNaming = false)
    (hcs : Reads (' ' :: cs) ts) :
    Reads (b :: (bs ++ (word.toList ++ ' ' :: cs))) (⟨k, word⟩ :: ts) where
  starts := isNamePart_of_isBlank (hbs b mem_cons_self)
  read := by
    intro last rest hlast hrest
    obtain ⟨last', hlast', heq⟩ :=
      hcs.read (some k) rest (contextOf_eq_none fun k' hk' => by cases hk'; exact hnaming) hrest
    have hk : wordKind last word = k := by rw [← wordKind_contextOf, hlast, hkind]
    refine ⟨last', hlast', ?_⟩
    have hsplit : b :: (bs ++ (word.toList ++ ' ' :: cs)) ++ rest
      = (b :: bs) ++ (word.toList ++ (' ' :: cs ++ rest)) := by
      simp
    rw [hsplit, codeTokens_blanks hbs, codeTokens_identifier hword rfl, hk, heq, cons_append]

theorem reads_propertyCode {indent : String} (hind : IsIndentText indent.toList) (hv : Proper v) :
    Reads (propertyCode indent v).toList (propertyTokens v) := by
  have hname : Reads (' ' :: '$' :: v.name.toList) [variableToken v.name] :=
    (Reads.blanks (b := [' ']) (by decide)).append (.variable hv.name)
  have hdoc := (propertyDoc_written hind hv.plain).not_mem (show isWritten '/' = false by decide)
  rw [toList_propertyCode]
  exact (Reads.blanks hind.newline).append ((Reads.comment hdoc).append
    ((Reads.word hind.newline (by decide) (by decide +kernel) rfl hname).append
      (Reads.semicolon.append (.blanks (b := ['\n']) (by decide)))))

def constructorTokens (vs : List Collaborator) : List Token :=
  [⟨.keyword .publicKw, "public"⟩, ⟨.keyword .functionKw, "function"⟩, ⟨.identifier, "__construct"⟩, ⟨.leftParen, "("⟩]
    ++ [⟨.comma, ","⟩].intercalate (vs.map parameterTokens) ++ [⟨.rightParen, ")"⟩, ⟨.leftBrace, "\x7b"⟩]
    ++ vs.flatMap assignmentTokens ++ [⟨.rightBrace, "\x7d"⟩]

theorem codeTokens_construct (rest : List Char) :
    codeTokens (some (.keyword .functionKw)) (' ' :: ("__construct(".toList ++ rest))
      = ⟨.identifier, "__construct"⟩ :: ⟨.leftParen, "("⟩ :: codeTokens (some .leftParen) rest := by
  have htext : "__construct(".toList ++ rest = '_' :: ("_construct".toList ++ '(' :: rest) := by simp
  rw [codeTokens_blank (by decide), htext, codeTokens_word (by decide) (by decide) rfl,
    codeTokens_mark (k := .leftParen) rfl]
  rfl

theorem Reads.declaration {bs : List Char} (hbs : ∀ x ∈ bs, isBlank x) :
    Reads ('\n' :: (bs ++ "public function __construct(".toList))
      [⟨.keyword .publicKw, "public"⟩, ⟨.keyword .functionKw, "function"⟩, ⟨.identifier, "__construct"⟩,
      ⟨.leftParen, "("⟩] where
  starts := rfl
  read := by
    intro last rest hlast _
    have hwords : '\n' :: (bs ++ "public function __construct(".toList) ++ rest
        = ('\n' :: bs) ++ ('p'
          :: ("ublic".toList ++ ' ' :: 'f' :: ("unction".toList ++ ' ' :: ("__construct(".toList ++ rest)))) := by
      simp
    have hblank : ∀ x ∈ '\n' :: bs, isBlank x := by
      intro x hx
      rcases mem_cons.mp hx with rfl | hx
      · decide
      · exact hbs x hx
    have hpublic : wordKind last "public" = .keyword .publicKw := by rw [← wordKind_contextOf, hlast]; decide +kernel
    have hfun : wordKind (some (.keyword .publicKw)) "function" = .keyword .functionKw := by decide +kernel
    refine ⟨some .leftParen, rfl, ?_⟩
    rw [hwords, codeTokens_blanks hblank, codeTokens_word (by decide) (by decide) rfl]
    show ⟨wordKind last "public", "public"⟩ :: codeTokens (some (wordKind last "public")) _ = _
    rw [hpublic, codeTokens_blank (by decide), codeTokens_word (by decide) (by decide) rfl]
    show _ :: ⟨wordKind _ "function", "function"⟩ :: codeTokens (some (wordKind _ "function")) _ = _
    rw [hfun, codeTokens_construct]
    rfl

theorem Reads.indented {a : List Char} (ha : ∀ x ∈ a, isBlank x) (h : Reads cs ts)
    (hb : ∀ x ∈ b, isBlank x) : Reads (a ++ cs ++ b) ts := by
  have := ((Reads.blanks ha).append h).append (.blanks hb)
  rwa [append_nil, nil_append] at this

theorem reads_constructorCode {indent inner : String} {vs : List Collaborator} (hind : IsIndentText indent.toList)
    (hinner : IsIndentText inner.toList) (hvs : ∀ v ∈ vs, Proper v) :
    Reads (constructorCode indent inner vs).toList (constructorTokens vs) := by
  have hparams : Reads (",\n".intercalate (vs.map fun v => inner ++ parameterCode v)).toList
      ([⟨.comma, ","⟩].intercalate (vs.map parameterTokens)) :=
    .intercalate (Reads.comma.append (.blanks (b := ['\n']) (by decide))) fun v hv => by
      rw [toList_append]
      exact (Reads.blanks hinner.blank).append (reads_parameterCode (hvs v hv))
  have hassignments : Reads (String.join (vs.map fun v => inner ++ assignmentCode v ++ "\n")).toList
      (vs.flatMap assignmentTokens) :=
    .join fun v hv => by
      rw [toList_append, toList_append]
      exact .indented hinner.blank (reads_assignmentCode (nameText_identifier (hvs v hv).name)) (by decide)
  have hbrace := Reads.indented (a := [' ']) (by decide) (.mark (c := '\x7b') (k := .leftBrace) rfl rfl) (b := ['\n'])
    (by decide)
  have hdoc := (constructorDoc_written hind fun v hv => (hvs v hv).plain).not_mem (show isWritten '/' = false by decide)
  rw [toList_constructorCode]
  exact ((((((Reads.blanks hind.newline).append (.comment hdoc)).append (.declaration hind.blank)).append
    (.indented (a := ['\n']) (by decide) hparams hind.newline)).append
    ((Reads.mark (c := ')') (k := .rightParen) rfl rfl).append hbrace)).append
    (.indented (a := []) nofun hassignments hind.blank)).append
    ((Reads.mark (c := '\x7d') (k := .rightBrace) rfl rfl).append (.blanks (b := ['\n']) (by decide)))

/-! ## §3. Insertions. -/

def insertedParameters (list : ParameterList) (new : List Collaborator) : List Token :=
  match list.parameters.find? fun p => p.facts.optional || p.facts.variadic with
  | some _ => new.flatMap fun v => parameterTokens v ++ [⟨.comma, ","⟩]
  | none =>
    match list.parameters.getLast?, list.trailingComma with
    | some _, some _ => new.flatMap fun v => parameterTokens v ++ [⟨.comma, ","⟩]
    | some _, none => new.flatMap fun v => ⟨.comma, ","⟩ :: parameterTokens v
    | none, _ => [⟨.comma, ","⟩].intercalate (new.map parameterTokens)

theorem reads_parameterInsertion {s : TokenStream} {indent : String} {c : Constructor} (list : ParameterList)
    {new : List Collaborator} (hind : IsIndentText indent.toList) (hc : IsIndentText c.indent.toList)
    (hnew : ∀ v ∈ new, Proper v) :
    Reads (parameterInsertion s indent c list (new.map parameterCode)).2.toList (insertedParameters list new) := by
  have hspec := @parameter_spec s _ _ hind hc list (new.map parameterCode)
  have hcode := fun v hv => reads_parameterCode (hnew v hv)
  have hcomma : ∀ {gap : String}, (∀ x ∈ gap.toList, isBlank x) → Reads ("," ++ gap).toList [⟨.comma, ","⟩] := by
    intro gap hgap
    rw [toList_append]
    exact Reads.comma.append (.blanks hgap)
  unfold insertedParameters
  generalize parameterInsertion s indent c list (new.map parameterCode) = spot at hspec
  cases hspec with
  | before here blank =>
    rw [here, map_map]
    refine .join fun v hv => ?_
    rw [Function.comp_apply, toList_append]
    exact (hcode v hv).append (hcomma blank)
  | behindComma required ends trailing blank =>
    rw [required, ends, trailing, map_map]
    refine .join fun v hv => ?_
    rw [Function.comp_apply, toList_append, toList_append]
    exact (Reads.blanks blank).append ((hcode v hv).append .comma)
  | behindLast required ends trailing blank =>
    rw [required, ends, trailing, map_map]
    refine .join fun v hv => ?_
    rw [Function.comp_apply, toList_append, toList_append]
    exact Reads.comma.append ((Reads.blanks blank).append (hcode v hv))
  | alone required empty leads blank =>
    rw [required, empty, toList_append]
    exact (Reads.blanks leads).append (.intercalate (hcomma blank) hcode)

theorem reads_assignmentInsertion {s : TokenStream} {indent : String} {c : Constructor} {new : List Collaborator}
    (hind : IsIndentText indent.toList) (hc : IsIndentText c.indent.toList)
    (hnew : ∀ v ∈ new, IsNameText v.name.toList) :
    Reads (assignmentInsertion s indent c new).2.toList (new.flatMap assignmentTokens) := by
  have hspec := @assignment_spec s _ _ hind hc new
  generalize assignmentInsertion s indent c new = spot at hspec
  cases hspec with
  | beforeParent here blank =>
    refine .join fun v hv => ?_
    rw [toList_append]
    exact .indented (a := []) nofun (reads_assignmentCode (hnew v hv)) blank
  | atEnd noCall blank ends =>
    rw [toList_append]
    refine .indented (a := []) nofun (.join fun v hv => ?_) ends
    rw [toList_append]
    exact (Reads.blanks blank).append (reads_assignmentCode (hnew v hv))

theorem reads_missingProperties {s : TokenStream} {indent : String} {m : Members} {r : Requirements}
    (hind : IsIndentText indent.toList) (hr : ∀ v ∈ r.entries, Proper v) :
    Reads (missingProperties s indent m r).toList ((undeclared s m r).flatMap propertyTokens) :=
  .join fun v hv => reads_propertyCode hind (hr v (mem_filter.mp hv).1)

/-! ## §4. What stands where. -/

theorem generatedAt_insertCode (new : List α) (place : List α → Nat × String) (rest : List (Edit Token)) (i : Nat) :
    Edit.generatedAt (insertCode new place ++ rest) i
      = (if new ≠ [] ∧ i = (place new).1 then lexFragment (place new).2 else []) ++ Edit.generatedAt rest i := by
  rw [insertCode]
  split
  · rename_i hnil
    rw [if_neg fun h => h.1 (List.isEmpty_iff.mp hnil)]
    rfl
  · rename_i hne
    have hne : new ≠ [] := fun h => hne (List.isEmpty_iff.mpr h)
    simp only [cons_append, nil_append, hne, ne_eq, not_false_eq_true, true_and]
    exact Edit.generatedAt_insert rest rfl

theorem generatedAt_header (cls : ClassBody) (header : String) (i : Nat) :
    Edit.generatedAt (headerInsertion cls header) i = if i = cls.left + 1 then lexFragment header else [] := by
  rw [headerInsertion]
  split
  · rename_i hempty
    rw [String.isEmpty_iff.mp hempty, show lexFragment "" = [] by decide +kernel, ite_self]
    rfl
  · rw [Edit.generatedAt_insert [] rfl, Edit.generatedAt_nil, append_nil]
    rfl

theorem generatedAt_extension (s : TokenStream) (indent : String) (c : Constructor) (r : Requirements) (cls : ClassBody)
    (header : String) (i : Nat) :
    Edit.generatedAt (extendConstructor s indent c (parameterList s c) r ++ headerInsertion cls header) i
      = (if missingParameters (parameterList s c) r ≠ [] ∧ i = (parameterInsertion s indent c (parameterList s c)
            ((missingParameters (parameterList s c) r).map parameterCode)).1
          then lexFragment (parameterInsertion s indent c (parameterList s c)
            ((missingParameters (parameterList s c) r).map parameterCode)).2 else [])
        ++ (if unassigned s c r ≠ [] ∧ i = (assignmentInsertion s indent c (unassigned s c r)).1
          then lexFragment (assignmentInsertion s indent c (unassigned s c r)).2 else [])
        ++ if i = cls.left + 1 then lexFragment header else [] := by
  have hextend : extendConstructor s indent c (parameterList s c) r
      = insertCode ((missingParameters (parameterList s c) r).map parameterCode)
      (parameterInsertion s indent c (parameterList s c))
        ++ insertCode (unassigned s c r) (assignmentInsertion s indent c) := rfl
  rw [hextend, append_assoc, generatedAt_insertCode, generatedAt_insertCode, generatedAt_header, append_assoc]
  simp only [ne_eq, map_eq_nil_iff]

end Wiring

end MageUplift
