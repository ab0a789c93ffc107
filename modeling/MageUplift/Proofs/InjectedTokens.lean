import MageUplift.Proofs.CodeTokens

/-!
# The tokens of injected code

What the injector adds to a class forms no legacy call, and spoils the reading of none that is there. The first
significant token of an insertion cannot continue a call, no double colon is inserted, and around each place of an
insertion the tokens are known: a new parameter stands behind the parenthesis or a comma of the constructor's list or
directly before the next one, an assignment before `parent` or the closing brace, everything else directly behind the
brace of the class.
-/

namespace MageUplift

open Php TokenStream Call Wiring List Option
open String (toList_append)

variable {s : TokenStream} {indent word code inner : String} {v : Collaborator} {t : Token} {p : Parameter}
  {vs : List Collaborator} {d : Char} {k : Kind} {r : Requirements} {edits : List (Edit Token)}
variable {c : Constructor} {cls : ClassBody} {ks : List Kind} {left right : Nat}

/-! ## §1. The constructor by its name. -/

namespace Wiring

/-- The list of the constructor stands behind its name, inside the class, and in front of the body. -/
structure Constructor.Named (s : TokenStream) (cls : ClassBody) (c : Constructor) : Prop where
  name : ∃ name t, s.followedBy? name .leftParen = some c.left ∧ s.get? name = some t ∧ t.isWord "__construct" = true
  inside : cls.left < c.left
  body : c.right < c.bodyLeft
  bodyInside : c.bodyLeft < cls.right

theorem members_named {m : Members} (h : members s cls = .ok m) (hc : m.ctor = some c) : c.Named s cls := by
  rcases membersFrom_read h hc with hnone | ⟨j, name, hj, hname, hread⟩
  · cases hnone
  have hlt := lt_constructorName? hname
  have hword := (filter_eq_some_iff.mp hname).2
  rw [Option.any_eq_true] at hword
  obtain ⟨t, ht, hword⟩ := hword
  obtain ⟨hleft, -, hend, hlimit, -⟩ := readConstructor_iff.mp hread
  have hltLeft := lt_of_followedBy? hleft
  have hstop := le_signatureEnd s cls.right (c.right + 1)
  rw [hend] at hstop
  exact ⟨⟨name, t, hleft, ht, hword⟩, by omega, hstop, hlimit⟩

end Wiring

theorem classBody_brace (h : classBody s = .ok cls) : s.kind? cls.left = some .leftBrace := by
  obtain ⟨_, _, -, -, hbody, -⟩ := classBody_eq_ok_iff.mp h
  exact (bodyLeft?_iff.mp hbody).2.1

/-! ## §2. Around the parameters of a list. -/

theorem next_of_no_parameter {start stop : Nat} (hle : start ≤ stop)
    (ht : s.get? stop = some t) (hsig : t.isTrivia = false) (h : parameter? s start stop = none) :
    s.nextSignificant? start = some stop := by
  obtain ⟨n, hnext, hn⟩ := exists_next hle ht hsig
  by_cases hstop : n = stop
  · exact hstop ▸ hnext
  -- an earlier significant token would begin a parameter, and the last one before `stop` would end it
  · obtain ⟨-, ⟨u, hu, husig⟩, -⟩ := next_spec hnext
    obtain ⟨last, hlast, hle'⟩ := exists_prev (j := stop) (by omega) (lt_get? ht).le hu husig
    have hfilter : (some n).filter (fun i => decide (i < stop)) = some n :=
      filter_eq_some_iff.mpr ⟨rfl, by simp; omega⟩
    have hfilter' : (some last).filter (fun i => decide (n ≤ i)) = some last :=
      filter_eq_some_iff.mpr ⟨rfl, by simpa using hle'⟩
    unfold parameter? at h
    rw [hnext, hlast, hfilter] at h
    simp only [bind_eq_bind, bind_some, hfilter'] at h
    cases h

theorem parameter?_triviaIn {start stop : Nat} (hstop : stop ≤ s.size)
    (h : parameter? s start stop = some p) : s.TriviaIn start p.first ∧ s.TriviaIn (p.last + 1) stop := by
  obtain ⟨hfst, hlast, -⟩ := parameter?_spec h
  refine ⟨(next_spec hfst).2.2, fun m h₁ h₂ => ?_⟩
  exact prev_spec hlast m h₁ h₂ (by omega)

theorem close_lt_of_inside {i close : Nat} (hlist : s.matchingClose? left = some right)
    (hli : left < i) (hir : i < right) (hclose : s.matchingClose? i = some close) : close < right := by
  obtain ⟨k, hopen, -⟩ := opener_close hclose
  obtain ⟨close', hclose', hlt⟩ := close_inside hlist hli hir hopen
  rw [hclose] at hclose'
  cases hclose'
  exact hlt

/-- In front of `p` there is, behind trivia, the parenthesis at `left` or a comma. -/
def BehindSeparator (s : TokenStream) (left p : Nat) : Prop :=
  ∃ q, q < p ∧ s.TriviaIn (q + 1) p ∧ (q = left ∨ s.kind? q = some .comma)

section

variable {s : TokenStream} {c : Constructor}

variable (hlist : s.matchingClose? c.left = some c.right)

include hlist

theorem parameterList_behind : ∀ p ∈ (parameterList s c).parameters, BehindSeparator s c.left p.first := by
  intro p hp
  obtain ⟨a, b, hitem, hp⟩ := (parameterList_listed hlist).of_mem hp
  have hsize := (lt_close hlist).2
  have hlo := (parameter?_bounds hp).1
  have hb : b ≤ s.size := hitem.ends.elim (by omega) (by omega)
  have htriv := (parameter?_triviaIn hb hp).1
  obtain rfl | ⟨comma, rfl, -, hk, -⟩ := hitem.begins
  · exact ⟨c.left, hlo, htriv, .inl rfl⟩
  · exact ⟨comma, hlo, htriv, .inr hk⟩

theorem parameterList_trailing {comma : Nat} (hcomma : (parameterList s c).trailingComma = some comma) :
    s.kind? comma = some .comma ∧ s.nextSignificant? (comma + 1) = some c.right := by
  obtain ⟨hleft, hright, hitem, hnone⟩ := (hcomma ▸ parameterList_listed hlist).behind_trailing (Nat.lt_succ_self _)
  obtain ⟨t, ht, hsig⟩ := isCode_of_close hlist
  refine ⟨?_, next_of_no_parameter hright ht hsig hnone⟩
  obtain hself | ⟨comma', hself, -, hk, -⟩ := hitem.begins
  · omega
  · cases hself
    exact hk

theorem parameterList_last (hnone : (parameterList s c).trailingComma = none)
    (hp : (parameterList s c).parameters.getLast? = some p) : s.nextSignificant? (p.last + 1) = some c.right := by
  obtain ⟨a, hp⟩ := ((hnone ▸ parameterList_listed hlist).last_item (Nat.lt_succ_self _)).2 p hp
  obtain ⟨t, ht, hsig⟩ := isCode_of_close hlist
  exact next_of_triviaIn (parameter?_bounds hp).2.2
    (parameter?_triviaIn (lt_close hlist).2.le hp).2 ht hsig

theorem parameterList_nil (hnil : (parameterList s c).parameters = []) :
    ∃ n, s.nextSignificant? (c.left + 1) = some n ∧ (n = c.right ∨ s.kind? n = some .comma) := by
  obtain ⟨b, hle, hitem, hnone⟩ := (hnil ▸ parameterList_listed hlist).of_nil
  obtain rfl | ⟨-, hk⟩ := hitem.ends
  · obtain ⟨t, ht, hsig⟩ := isCode_of_close hlist
    exact ⟨c.right, next_of_no_parameter hle ht hsig hnone, .inl rfl⟩
  · obtain ⟨t, ht, hsig⟩ := isCode_of_kind? hk rfl
    exact ⟨b, next_of_no_parameter hle ht hsig hnone, .inr hk⟩

end

/-! ## §3. The places of the injector. -/

/-- The parentheses are those of a list that follows the name of a constructor. -/
structure IsConstructorList (s : TokenStream) (left right : Nat) : Prop where
  closes : s.matchingClose? left = some right
  name : ∃ name t, s.followedBy? name .leftParen = some left ∧ s.get? name = some t ∧ t.isWord "__construct" = true

/-- What stands around a place of the injector. -/
inductive InjectedPlace (s : TokenStream) (p : Nat) : Prop where
  /-- Behind a comma or the brace of the class. -/
  | behindMark {q : Nat} (lt : q < p) (trivia : s.TriviaIn (q + 1) p)
      (mark : s.kind? q = some .comma ∨ s.kind? q = some .leftBrace)
  | behindList {q right : Nat} (lt : q < p) (trivia : s.TriviaIn (q + 1) p) (list : IsConstructorList s q right)
  | beforeListEnd {left n : Nat} (next : s.nextSignificant? p = some n) (list : IsConstructorList s left n)
  /-- Before the end of the constructor, or the call of the parent's. -/
  | beforeMark {n : Nat} {t : Token} (next : s.nextSignificant? p = some n) (here : s.get? n = some t)
      (mark : t.kind = .rightBrace ∨ (t.isWord "parent" = true ∧ (s.followedBy? n .doubleColon).isSome = true))

def NoColonsNext (s : TokenStream) (p : Nat) : Prop :=
  ∃ n k, s.nextSignificant? p = some n ∧ s.kind? n = some k ∧ k ≠ .doubleColon

theorem IsConstructorList.kind_left (h : IsConstructorList s left right) : s.kind? left = some .leftParen := by
  obtain ⟨name, t, hleft, -⟩ := h.name
  exact (followedBy?_spec hleft).2.1

theorem IsConstructorList.kind_right (h : IsConstructorList s left right) : s.kind? right = some .rightParen := by
  obtain ⟨k, hopen, hclose⟩ := opener_close h.closes
  rw [h.kind_left] at hopen
  cases hopen
  exact hclose

theorem InjectedPlace.around {p q n : Nat} (h : InjectedPlace s q) (hq : q ≤ s.size)
    (hprev : s.prevSignificant? q = some p) (hnext : s.nextSignificant? q = some n) :
    (s.kind? p = some .comma ∨ s.kind? p = some .leftBrace) ∨ (∃ right, IsConstructorList s p right)
      ∨ (∃ left, IsConstructorList s left n)
      ∨ ∃ t, s.get? n = some t
        ∧ (t.kind = .rightBrace ∨ (t.isWord "parent" ∧ (s.followedBy? n .doubleColon).isSome)) := by
  have hmark : ∀ {p' : Nat} {k : Kind}, p' < q → s.TriviaIn (p' + 1) q → s.kind? p' = some k → k.isTrivia = false →
      p' = p := by
    intro p' k hlt htriv hk hsig
    obtain ⟨t, ht, hkind⟩ := map_eq_some_iff.mp hk
    have hsame := prev_of_triviaIn hlt hq htriv ht (by rw [Token.isTrivia, hkind]; exact hsig)
    rw [hprev, some.injEq] at hsame
    exact hsame.symm
  cases h with
  | behindMark lt trivia mark =>
    rcases mark with hcomma | hbrace
    · exact .inl (.inl (hmark lt trivia hcomma rfl ▸ hcomma))
    · exact .inl (.inr (hmark lt trivia hbrace rfl ▸ hbrace))
  | behindList lt trivia list => exact .inr (.inl ⟨_, hmark lt trivia list.kind_left rfl ▸ list⟩)
  | beforeListEnd next list =>
    rw [hnext, some.injEq] at next
    exact .inr (.inr (.inl ⟨_, next ▸ list⟩))
  | beforeMark next here mark =>
    rw [hnext, some.injEq] at next
    subst next
    exact .inr (.inr (.inr ⟨_, here, mark⟩))

theorem parameterInsertion_around (hlist : IsConstructorList s c.left c.right)
    (indent : String) (new : List String) :
    InjectedPlace s (parameterInsertion s indent c (parameterList s c) new).1
      ∧ (((parameterList s c).parameters.find? fun p => p.facts.optional || p.facts.variadic) = none →
        NoColonsNext s (parameterInsertion s indent c (parameterList s c) new).1) := by
  unfold parameterInsertion
  dsimp only
  split
  · rename_i boundary hbound
    refine ⟨?_, fun hnone => by rw [hnone] at hbound; cases hbound⟩
    obtain ⟨q, hq, htriv, hmark⟩ := parameterList_behind hlist.closes boundary (mem_of_find?_eq_some hbound)
    rcases hmark with rfl | hcomma
    · exact .behindList hq htriv hlist
    · exact .behindMark hq htriv (.inl hcomma)
  · split
    · rename_i comma _ hcomma
      have hnext := (parameterList_trailing hlist.closes hcomma).2
      exact ⟨.beforeListEnd hnext hlist, fun _ => ⟨_, _, hnext, hlist.kind_right, by decide⟩⟩
    · rename_i last hlast hnone
      have hnext := parameterList_last hlist.closes hnone hlast
      exact ⟨.beforeListEnd hnext hlist, fun _ => ⟨_, _, hnext, hlist.kind_right, by decide⟩⟩
    · rename_i hnone
      refine ⟨.behindList c.left.lt_succ_self (fun m h₁ h₂ => by omega) hlist, fun _ => ?_⟩
      obtain ⟨n, hnext, hn⟩ := parameterList_nil hlist.closes (getLast?_eq_none_iff.mp hnone)
      rcases hn with rfl | hcomma
      · exact ⟨_, _, hnext, hlist.kind_right, by decide⟩
      · exact ⟨_, _, hnext, hcomma, by decide⟩

theorem blank_trailing (s : TokenStream) (left : Nat) :
    ∀ i m, trailingBlankStart s left i ≤ m → m < i → s.kind? m = some .whitespace
  | 0, m, _, h₂ => by omega
  | i + 1, m, h₁, h₂ => by
    rw [trailingBlankStart] at h₁
    split at h₁
    · rename_i hblank
      rw [Bool.and_eq_true, hasKind, beq_iff_eq] at hblank
      by_cases hm : m = i
      · exact hm ▸ hblank.2
      · exact blank_trailing s left i m h₁ (by omega)
    · omega

theorem triviaIn_trailing (s : TokenStream) (left i : Nat) : s.TriviaIn (trailingBlankStart s left i) i := by
  intro m h₁ h₂
  obtain ⟨t, ht, hkind⟩ := map_eq_some_iff.mp (blank_trailing s left i m h₁ h₂)
  exact ⟨t, ht, by rw [Token.isTrivia, hkind]; rfl⟩

theorem isTrivia_of_isWord (h : t.isWord word) : t.isTrivia = false ∧ t.kind ≠ .doubleColon := by
  have hname : ∀ k : Kind, k.isName → k.isTrivia = false ∧ k ≠ .doubleColon := by
    intro k hk
    cases k <;> first | exact ⟨rfl, by decide⟩ | cases hk
  rw [Token.isWord, Bool.and_eq_true] at h
  exact hname t.kind h.1

theorem Wiring.Constructor.WellBracketed.next_trailingBlankStart (h : c.WellBracketed s) :
    s.nextSignificant? (trailingBlankStart s c.bodyLeft c.bodyRight) = some c.bodyRight
      ∧ s.kind? c.bodyRight = some .rightBrace := by
  obtain ⟨k, hopen, hclose⟩ := opener_close h.body
  rw [h.isBrace] at hopen
  cases hopen
  obtain ⟨t, ht, hsig⟩ := isCode_of_close h.body
  exact ⟨next_of_triviaIn (trailing_bounds s (lt_close h.body).1).2
    (triviaIn_trailing s _ _) ht hsig, hclose⟩

theorem assignmentInsertion_around (hc : c.WellBracketed s) (indent : String)
    (new : List Collaborator) : InjectedPlace s (assignmentInsertion s indent c new).1
      ∧ NoColonsNext s (assignmentInsertion s indent c new).1 := by
  unfold assignmentInsertion
  dsimp only
  split
  · rename_i call hcall
    obtain ⟨t, ht, hword, hcolons⟩ := isWord_parentCall (parentCall_spec hcall).2.2
    have hnext : s.nextSignificant? call = some call :=
      next_eq_some le_rfl ht (isTrivia_of_isWord hword).1 fun m h₁ h₂ => by omega
    exact ⟨.beforeMark hnext ht (.inr ⟨hword, hcolons⟩), call, _, hnext, kind?_get? ht, (isTrivia_of_isWord hword).2⟩
  · obtain ⟨hnext, hclose⟩ := hc.next_trailingBlankStart
    obtain ⟨t, ht, hkind⟩ := map_eq_some_iff.mp hclose
    exact ⟨.beforeMark hnext ht (.inl hkind), _, _, hnext, hclose, by decide⟩

/-! ## §4. How generated code begins. -/

/-- What an insertion can begin with. -/
def injectedKinds : List Kind :=
  [.comma, .qualifiedName, .operator, .variableName, .keyword .publicKw, .keyword .protectedKw]

def BeginsInjected (cs : List Char) : Prop := ∃ t rest, codeTokens none cs = t :: rest ∧ t.kind ∈ injectedKinds

namespace BeginsInjected

theorem blanks {bs cs : List Char} (hbs : ∀ b ∈ bs, isBlank b) (h : BeginsInjected cs) :
    BeginsInjected (bs ++ cs) := by
  unfold BeginsInjected
  rwa [codeTokens_blanks hbs]

theorem comma (cs : List Char) : BeginsInjected (',' :: cs) :=
  ⟨_, _, codeTokens_mark (k := .comma) rfl none cs, by decide⟩

theorem className (cs : List Char) : BeginsInjected ('\\' :: cs) := by
  obtain ⟨k, text, rest, htoks, hk⟩ := codeTokens_separator none cs
  refine ⟨_, rest, htoks, ?_⟩
  rcases hk with rfl | rfl <;> simp [injectedKinds]

theorem this (cs : List Char) : BeginsInjected ("$this".toList ++ '-' :: cs) := by
  have htext : "$this".toList ++ '-' :: cs = '$' :: ("this".toList ++ '-' :: cs) := rfl
  rw [htext]
  exact ⟨_, _, codeTokens_variable (by decide) rfl, by simp [injectedKinds]⟩

theorem comment {body cs : List Char} (hbody : '/' ∉ body) (h : BeginsInjected cs) :
    BeginsInjected ('/' :: '*' :: (body ++ '*' :: '/' :: cs)) := by
  have hinert := InertText.commentEnd?_append 1 hbody
  have htext : '/' :: '*' :: (body ++ '*' :: '/' :: cs) = '/' :: '*' :: (body ++ ['*', '/'] ++ cs) := by simp
  unfold BeginsInjected
  rwa [htext, codeTokens_comment hinert]

theorem modifier (hname : isIdentifier word.toList) (hkind : wordKind none word ∈ injectedKinds)
    (cs : List Char) : BeginsInjected (word.toList ++ ' ' :: cs) :=
  ⟨⟨wordKind none word, word⟩, _, codeTokens_identifier hname rfl none, hkind⟩

end BeginsInjected

def Begins (code : String) : Prop := ∀ rest, BeginsInjected (code.toList ++ rest)

theorem Begins.here (h : Begins code) : BeginsInjected code.toList :=
  append_nil code.toList ▸ h []

theorem Begins.append {a : String} (b : String) (h : Begins a) : Begins (a ++ b) := fun rest => by
  rw [toList_append, append_assoc]
  exact h _

theorem Begins.blanks {a b : String} (ha : ∀ x ∈ a.toList, isBlank x) (h : Begins b) : Begins (a ++ b) := fun rest => by
  rw [toList_append, append_assoc]
  exact .blanks ha (h rest)

theorem propertyCode_begins (hind : IsIndentText indent.toList) (hv : v.Plain) : Begins (propertyCode indent v) := by
  intro rest
  have hdoc := (propertyDoc_written hind hv).not_mem (show isWritten '/' = false by decide)
  rw [toList_propertyCode]
  simp only [append_assoc, cons_append, nil_append]
  rw [← cons_append]
  refine .blanks hind.newline (.comment hdoc ?_)
  rw [← cons_append]
  exact .blanks hind.newline (.modifier (by decide) (by decide +kernel) _)

theorem constructorCode_begins (hind : IsIndentText indent.toList)
    (hvs : ∀ v ∈ vs, v.Plain) : Begins (constructorCode indent inner vs) := by
  intro rest
  have hdoc := (constructorDoc_written hind hvs).not_mem (show isWritten '/' = false by decide)
  have hname : "public function __construct(".toList = "public".toList ++ ' ' :: "function __construct(".toList := rfl
  rw [toList_constructorCode, hname]
  simp only [append_assoc, cons_append, nil_append]
  rw [← cons_append]
  refine .blanks hind.newline (.comment hdoc ?_)
  rw [← cons_append]
  exact .blanks hind.newline (.modifier (by decide) (by decide +kernel) _)

/-! ## §5. No double colon in generated code. -/

def IsColonFree (cs : List Char) : Prop := ':' ∉ cs

instance (cs : List Char) : Decidable (IsColonFree cs) := inferInstanceAs (Decidable (':' ∉ cs))

namespace IsColonFree

theorem append_iff {a b : List Char} : IsColonFree (a ++ b) ↔ IsColonFree a ∧ IsColonFree b := by
  simp [IsColonFree]

theorem of_written {cs : List Char} (h : IsWritten cs) : IsColonFree cs := h.not_mem (by decide)

theorem propertyCode (hind : IsIndentText indent.toList) (h : v.Plain) :
    IsColonFree (propertyCode indent v).toList := by
  have hblanks := of_written (.of_blanks hind.blank)
  have hname := of_written (.of_name h.name)
  have hdoc := of_written (propertyDoc_written hind h)
  unfold IsColonFree at hblanks hname hdoc ⊢
  simp [toList_propertyCode, hblanks, hname, hdoc]

theorem constructorCode (hind : IsIndentText indent.toList)
    (hinner : IsIndentText inner.toList) (hvs : ∀ v ∈ vs, v.Plain) :
    IsColonFree (constructorCode indent inner vs).toList := by
  have hblanks := of_written (.of_blanks hind.blank)
  have hdoc := of_written (constructorDoc_written hind hvs)
  rw [toList_constructorCode]
  refine append_iff.mpr
    ⟨append_iff.mpr ⟨append_iff.mpr ⟨append_iff.mpr ⟨?_, of_written (parameterLines_written hind hinner hvs)⟩,
    by decide⟩, of_written (assignmentLines_written hind hinner hvs)⟩, by decide⟩
  unfold IsColonFree at hblanks hdoc ⊢
  simp [hblanks, hdoc]

end IsColonFree

/-! ## §6. The code of each insertion. -/

theorem parameterCode_begins (h : v.Plain) : Begins (parameterCode v) := by
  intro rest
  obtain ⟨path, htype, -⟩ := h.type
  have hcode : (parameterCode v).toList ++ rest = '\\' :: (path ++ (" $" ++ v.name).toList ++ rest) := by
    rw [parameterCode, String.append_assoc, toList_append, htype]
    simp
  rw [hcode]
  exact .className _

theorem assignmentCode_begins (v : Collaborator) : Begins (assignmentCode v) := by
  intro rest
  have hcode : (assignmentCode v).toList ++ rest
      = "$this".toList ++ '-' :: (">" ++ v.name ++ " = $" ++ v.name ++ ";").toList ++ rest := by
    simp [assignmentCode, toList_append]
  rw [hcode, append_assoc, cons_append]
  exact .this _

def EndsQuiet (cs : List Char) : Prop := ∃ ts t, codeTokens none cs = ts ++ [t] ∧ isMage t = false

theorem endsQuiet_of_mark {x bs : List Char} (h : InertText (x ++ d :: bs) ks)
    (hd : soleMark? d = some k) (hk : k.isName = false) (hbs : ∀ b ∈ bs, isBlank b) : EndsQuiet (x ++ d :: bs) := by
  have hmark : d ≠ '*' ∧ d ≠ '/' := by
    constructor <;> rintro rfl <;> cases hd
  have hslash : '/' ∉ bs := fun hmem => absurd (hbs '/' hmem) (by decide)
  obtain ⟨ks', hx⟩ := h.before_mark hmark hslash
  obtain ⟨ts, hts⟩ := codeTokens_last hx hd hbs none
  refine ⟨ts, _, hts, ?_⟩
  unfold isMage
  cases k <;> first | rfl | cases hk

theorem ParametersAt.endsQuiet {list : ParameterList} {new : List String} {spot : Nat × String}
    (h : ParametersAt c list new spot) (hne : new ≠ []) (hinert : InertText spot.2.toList ks)
    (hsome : (list.parameters.find? fun p => p.facts.optional || p.facts.variadic) ≠ none) : EndsQuiet spot.2.toList := by
  cases h with
  | behindComma required | behindLast required | alone required => exact absurd required hsome
  | @before p gap here blank =>
    obtain ⟨front, code, rfl⟩ : ∃ front code, new = front ++ [code] := ⟨_, _, (dropLast_concat_getLast hne).symm⟩
    -- the code of the last parameter ends with the comma and blanks
    have htext : (String.join ((front ++ [code]).map fun code => code ++ ("," ++ gap))).toList
        = (String.join (front.map fun code => code ++ ("," ++ gap))).toList ++ code.toList ++ ',' :: gap.toList := by
      simp [String.toList_join]
    rw [htext] at hinert ⊢
    exact endsQuiet_of_mark hinert rfl rfl blank

/-! ## §7. The injector. -/

/-- What is known of an insertion of the injector. -/
structure InjectedTokens (s : TokenStream) (p : Nat) (code : String) : Prop where
  begins : BeginsInjected code.toList
  colonFree : IsColonFree code.toList
  ends : NoColonsNext s p ∨ EndsQuiet code.toList
  place : InjectedPlace s p

theorem header_tokens (hcls : classBody s = .ok cls) {x : String}
    (hbegins : BeginsInjected code.toList) (hfree : IsColonFree code.toList)
    (hinert : InertText code.toList ks) (hcode : code = x ++ .ofList [d, '\n']) (hd : soleMark? d = some k)
    (hk : k.isName = false) : InjectedTokens s (cls.left + 1) code := by
  have htext : code.toList = x.toList ++ d :: ['\n'] := by
    rw [hcode, toList_append, String.toList_ofList]
  refine ⟨hbegins, hfree, .inr ?_,
    .behindMark (Nat.lt_succ_self _) (fun m h₁ h₂ => by omega) (.inr (classBody_brace hcls))⟩
  rw [htext] at hinert ⊢
  exact endsQuiet_of_mark hinert hd hk (by decide)

theorem inject_tokens
    (hind : IsIndentText indent.toList) (hr : ∀ v ∈ r.entries, v.Plain) (h : inject s indent r = .ok edits) :
    ∀ e ∈ edits, ∃ p code, e = .insert p (lexFragment code) ∧ InjectedTokens s p code := by
  intro e he
  have hprops : ∀ {deeper : String} {m : Members}, IsIndentText deeper.toList →
      InertText (missingProperties s deeper m r).toList [] ∧ IsColonFree (missingProperties s deeper m r).toList
        ∧ (undeclared s m r ≠ [] → Begins (missingProperties s deeper m r)) := by
    intro deeper m hdeeper
    have hplain : ∀ v ∈ undeclared s m r, v.Plain := fun v hv => hr v (mem_filter.mp hv).1
    refine ⟨missing_inert hdeeper hr, fun hcolon => ?_,
      fun hne => join_starts (fun _ b => .append b) hne fun v hv => propertyCode_begins hdeeper (hplain v hv)⟩
    refine forall_mem_join (P := (· ≠ ':')) (fun v hv x hx heq => ?_) _ hcolon rfl
    exact IsColonFree.propertyCode hdeeper (hplain v hv) (heq ▸ hx)
  cases injectedEdit_of_mem h he with
  | @constructor cls m hcls hm =>
    have hdeeper := classBody_deeper hcls hind
    have hinner : IsIndentText (cls.indent ++ indent ++ indent).toList := by
      rw [toList_append]
      exact hdeeper.append hind
    obtain ⟨hinert, hfree, hbegins⟩ := @hprops _ m hdeeper
    have hboth := hinert.append (constructorCode_inert hdeeper hinner hr)
    rw [← toList_append] at hboth
    obtain ⟨x, hx⟩ : ∃ x, constructorCode (cls.indent ++ indent) (cls.indent ++ indent ++ indent) r.entries
        = x ++ .ofList ['\x7d', '\n'] := ⟨_, rfl⟩
    refine ⟨_, _, rfl, header_tokens (x := missingProperties s (cls.indent ++ indent) m r ++ x) (d := '\x7d') hcls
      ?_ ?_ hboth ?_ rfl rfl⟩
    · by_cases hnone : undeclared s m r = []
      · rw [missingProperties_of_nil hnone, String.empty_append]
        exact (constructorCode_begins hdeeper hr).here
      · exact ((hbegins hnone).append _).here
    · rw [toList_append, IsColonFree.append_iff]
      exact ⟨hfree, .constructorCode hdeeper hinner hr⟩
    · rw [hx, String.append_assoc]
  | @properties cls m hcls hm hne =>
    obtain ⟨hinert, hfree, hbegins⟩ := @hprops _ m (classBody_deeper hcls hind)
    -- the last property ends the code
    obtain ⟨before, v, hlast⟩ : ∃ before v, undeclared s m r = before ++ [v] :=
      ⟨_, _, (dropLast_concat_getLast hne).symm⟩
    obtain ⟨x, hx⟩ : ∃ x, propertyCode (cls.indent ++ indent) v = x ++ .ofList [';', '\n'] := ⟨_, rfl⟩
    have hcode : missingProperties s (cls.indent ++ indent) m r
        = String.join (before.map (propertyCode (cls.indent ++ indent))) ++ x ++ .ofList [';', '\n'] := by
      apply String.toList_injective
      rw [missingProperties, hlast, String.append_assoc, ← hx]
      simp [String.toList_join]
    exact ⟨_, _, rfl, header_tokens (d := ';') hcls (hbegins hne).here hfree hinert hcode rfl rfl⟩
  | @parameters cls m c hcls hm hc new hnew hne spot hspot =>
    have hbrs := members_ctor hm hc
    have hplain : ∀ code ∈ new.map parameterCode, IsWritten code.toList ∧ Begins code := by
      intro code hcode
      obtain ⟨v, hv, rfl⟩ := List.mem_map.mp hcode
      have hplain := hr v (mem_filter.mp (hnew ▸ hv)).1
      exact ⟨parameterCode_written hplain, parameterCode_begins hplain⟩
    replace hne : new.map parameterCode ≠ [] := fun hnil => hne (map_eq_nil_iff.mp hnil)
    generalize new.map parameterCode = new at hspot hplain hne
    have hcode := hspot ▸ @parameter_spec s _ _ hind hbrs.isIndentText (parameterList s c) new
    have hwrit := hcode.written fun code hcode => (hplain code hcode).1
    obtain ⟨hplace, hnext⟩ := hspot ▸ parameterInsertion_around ⟨hbrs.parameters, (members_named hm hc).name⟩ indent new
    have hbegins : Begins spot.2 := hcode.starts (fun _ b => .append b) (fun _ _ => .blanks) .comma hne fun code hcode =>
      (hplain code hcode).2
    refine ⟨_, _, rfl, hbegins.here, .of_written hwrit, ?_, hplace⟩
    by_cases hbound : ((parameterList s c).parameters.find? fun p => p.facts.optional || p.facts.variadic) = none
    · exact .inl (hnext hbound)
    · exact .inr (hcode.endsQuiet hne (.softs hwrit.soft) hbound)
  | @assignments cls m c hcls hm hc new hnew hne spot hspot =>
    have hbrs := members_ctor hm hc
    have hcode := hspot ▸ @assignment_spec s _ _ hind hbrs.isIndentText new
    obtain ⟨hplace, hnext⟩ := hspot ▸ assignmentInsertion_around hbrs indent new
    have hbegins : Begins spot.2 := hcode.starts (fun _ b => .append b) (fun _ _ => .blanks) hne assignmentCode_begins
    exact ⟨_, _, rfl, hbegins.here, .of_written (hcode.written fun v hv => hr v (mem_filter.mp (hnew ▸ hv)).1),
      .inl hnext, hplace⟩

theorem inject_distinct
    (h : inject s indent r = .ok edits) : edits.Pairwise fun a b => a.span.start ≠ b.span.start := by
  by_cases hempty : r.isEmpty
  · cases (inject_of_isEmpty hempty s indent).symm.trans h
    exact .nil
  obtain ⟨cls, m, hcls, hm, hcases⟩ := inject_cases (Bool.not_eq_true _ ▸ hempty) h
  -- an insertion has at most one element, so only different ones have to be compared
  have hheader : ∀ header, (headerInsertion cls header).Pairwise fun a b => a.span.start ≠ b.span.start := by
    intro header
    unfold headerInsertion
    split
    · exact .nil
    · exact pairwise_singleton _ _
  rcases hcases with ⟨-, rfl⟩ | ⟨c, hc, rfl⟩
  · exact hheader _
  · have hbrs := members_ctor hm hc
    obtain ⟨-, hin, hbody, -⟩ := members_named hm hc
    have hinsert : ∀ {α : Type} (new : List α) (place : List α → Nat × String),
        (insertCode new place).Pairwise fun a b => a.span.start ≠ b.span.start := by
      intro α new place
      unfold insertCode
      split
      · exact .nil
      · exact pairwise_singleton _ _
    have hparams := fun new => parameterSpot_bounds hbrs indent new
    have hassignments := fun new => assignment_bounds hbrs indent new
    unfold extendConstructor
    rw [pairwise_append, pairwise_append]
    refine ⟨⟨hinsert _ _, hinsert _ _, fun a ha b hb => ?_⟩, hheader _, fun a ha b hb => ?_⟩
    · obtain ⟨rfl, -⟩ := mem_insertCode ha
      obtain ⟨rfl, -⟩ := mem_insertCode hb
      exact ((hparams _).2.trans_lt (hbody.trans (hassignments _).1)).ne
    · obtain ⟨rfl, -⟩ := mem_headerInsertion hb
      have hright := lt_close hbrs.parameters
      rw [mem_append] at ha
      rcases ha with ha | ha
      · obtain ⟨rfl, -⟩ := mem_insertCode ha
        exact (Nat.lt_of_le_of_lt hin (hparams _).1).ne'
      · obtain ⟨rfl, -⟩ := mem_insertCode ha
        exact ((show cls.left + 1 < c.bodyLeft by omega).trans (hassignments _).1).ne'

end MageUplift
