import MageUplift.Call.Match
import MageUplift.Proofs.Brackets

/-!
# The anatomy of a recognised call

`matchAt?` looks at a call through twelve patterns, but the calls have only two anatomies. Either the
head is the whole call (`Anatomy.closed`), its brackets are closed inside it, and nothing else is edited;
or the head ends with the parenthesis of the argument list (`Anatomy.opened`), and at most one more edit
touches that list, at its only comma or just before its closing parenthesis.

The tokens of a head follow each other with nothing but trivia in between (`Follows`), so a head holds no
comma, no brace, and no closer that belongs to a bracket outside.
-/

namespace MageUplift.Php.TokenStream

open List Option

variable {s : TokenStream} {i j : Nat}

/-! ## §1. Searches. -/

theorem kind?_get? {t : Token} (h : s.get? i = some t) : s.kind? i = some t.kind := by
  rw [kind?, h]
  rfl

theorem text_of_get? {t : Token} (h : s.get? i = some t) : s.text i = t.text := by
  rw [text, h]
  rfl

theorem findFrom?_spec {p : Token → Bool} (h : s.findFrom? p i = some j) :
    i ≤ j ∧ (∃ t, s.get? j = some t ∧ p t)
      ∧ ∀ m, i ≤ m → m < j → ∃ t, s.get? m = some t ∧ p t = false := by
  fun_induction findFrom? s p i with
  | case1 i hi hp =>
    rw [some.injEq] at h
    subst h
    exact ⟨Nat.le_refl _, ⟨s.tokens[i], by simp [get?, hi], hp⟩, fun m h₁ h₂ => absurd h₁ (by omega)⟩
  | case2 i hi hp ih =>
    obtain ⟨hle, hj, hbef⟩ := ih h
    refine ⟨by omega, hj, fun m h₁ h₂ => ?_⟩
    by_cases hm : m = i
    · subst hm
      exact ⟨s.tokens[m], by simp [get?, hi], by simpa using hp⟩
    · exact hbef m (by omega) h₂
  | case3 => cases h

theorem next_spec (h : s.nextSignificant? i = some j) :
    i ≤ j ∧ (∃ t, s.get? j = some t ∧ t.isTrivia = false)
      ∧ ∀ m, i ≤ m → m < j → ∃ t, s.get? m = some t ∧ t.isTrivia := by
  obtain ⟨hle, ⟨t, ht, hp⟩, hbef⟩ := findFrom?_spec h
  refine ⟨hle, ⟨t, ht, by simpa using hp⟩, fun m h₁ h₂ => ?_⟩
  obtain ⟨t', ht', hp'⟩ := hbef m h₁ h₂
  exact ⟨t', ht', by simpa using hp'⟩

theorem kindsIn_trivia {a b : Nat} (hab : a ≤ b) (h : ∀ m, a ≤ m → m < b → ∃ t, s.get? m = some t ∧ t.isTrivia) :
    (s.kindsIn a b).filter (!·.isTrivia) = [] := by
  induction hn : b - a generalizing a with
  | zero =>
    have : a = b := by omega
    rw [this, kindsIn_self]
    rfl
  | succ n ih =>
    obtain ⟨t, ht, htriv⟩ := h a (Nat.le_refl _) (by omega)
    rw [kindsIn_cons (kind?_get? ht) (by omega)]
    have : t.kind.isTrivia := htriv
    rw [filter_cons_of_neg (by simp [this])]
    exact ih (by omega) (fun m h₁ h₂ => h m (by omega) h₂) (by omega)

theorem followedBy?_spec {k : Kind} (h : s.followedBy? i k = some j) :
    i < j ∧ s.kind? j = some k ∧ k.isTrivia = false
      ∧ (s.kindsIn (i + 1) (j + 1)).filter (!·.isTrivia) = [k] := by
  simp only [followedBy?, filter_eq_some_iff, hasKind, beq_iff_eq] at h
  obtain ⟨hnext, hk⟩ := h
  obtain ⟨hle, ⟨t, ht, htriv⟩, hbef⟩ := next_spec hnext
  have htk : t.kind = k := by
    rw [kind?_get? ht, some.injEq] at hk
    exact hk
  have hsig : k.isTrivia = false := htk ▸ htriv
  refine ⟨hle, hk, hsig, ?_⟩
  rw [kindsIn_snoc hk hle, filter_append, kindsIn_trivia hle hbef]
  simp [hsig]

/-! ## §2. Tokens that follow each other. -/

/-- Behind token `i` the significant tokens have the given kinds in order, and the last of them is `j`. -/
inductive Follows (s : TokenStream) : Nat → List Kind → Nat → Prop where
  | nil (i : Nat) : Follows s i [] i
  | cons {i j m : Nat} {k : Kind} {ks : List Kind} (first : s.followedBy? i k = some j)
      (rest : Follows s j ks m) : Follows s i (k :: ks) m

namespace Follows

variable {s : TokenStream} {i j m : Nat} {k : Kind} {ks ls : List Kind}

theorem append (h₁ : Follows s i ks j) (h₂ : Follows s j ls m) : Follows s i (ks ++ ls) m := by
  induction h₁ with
  | nil => exact h₂
  | cons first _ ih => exact .cons first (ih h₂)

theorem snoc (h : Follows s i ks j) (next : s.followedBy? j k = some m) : Follows s i (ks ++ [k]) m :=
  h.append (.cons next (.nil m))

theorem unsnoc (h : Follows s i (ks ++ [k]) m) : ∃ j, Follows s i ks j ∧ s.followedBy? j k = some m := by
  induction ks generalizing i with
  | nil =>
    cases h with
    | cons first rest =>
      cases rest
      exact ⟨i, .nil i, first⟩
  | cons k' ks ih =>
    cases h with
    | cons first rest =>
      obtain ⟨j, hj, hlast⟩ := ih rest
      exact ⟨j, .cons first hj, hlast⟩

theorem le (h : Follows s i ks m) : i ≤ m := by
  induction h with
  | nil => exact Nat.le_refl _
  | cons first _ ih =>
    have := (followedBy?_spec first).1
    omega

theorem significant (h : Follows s i ks m) : (s.kindsIn (i + 1) (m + 1)).filter (!·.isTrivia) = ks := by
  induction h with
  | nil => simp
  | cons first rest ih =>
    obtain ⟨hlt, -, -, hfst⟩ := followedBy?_spec first
    rw [kindsIn_append s (Nat.succ_le_succ (Nat.le_of_lt hlt)) (Nat.succ_le_succ rest.le),
      filter_append, hfst, ih]
    rfl

theorem kind_mem (h : Follows s i ks m) {p : Nat} (hi : i < p) (hm : p ≤ m) (hp : s.kind? p = some k) :
    k.isTrivia ∨ k ∈ ks := by
  by_cases htriv : k.isTrivia
  · exact .inl htriv
  · right
    rw [← h.significant, mem_filter]
    refine ⟨?_, by simpa using htriv⟩
    rw [kindsIn_append s hi (show p ≤ m + 1 by omega),
      kindsIn_cons hp (by omega)]
    exact mem_append_right _ mem_cons_self

theorem lt_size (h : Follows s i ks m) (hi : i < s.size) : m < s.size := by
  induction h with
  | nil => exact hi
  | cons first _ ih => exact ih (lt_kind? (followedBy?_spec first).2.1)

end Follows

theorem close_of_follows {left close : Nat} {ks : List Kind}
    (hleft : s.kind? left = some .leftParen) (path : Follows s left (ks ++ [.rightParen]) close)
    (hks : Balanced ks) : s.matchingClose? left = some close := by
  obtain ⟨mid, hmid, hlast⟩ : ∃ mid, Follows s left ks mid ∧ s.followedBy? mid .rightParen = some close :=
    path.unsnoc
  obtain ⟨hlt, hkind, -, hword⟩ := followedBy?_spec hlast
  have hle := hmid.le
  refine close_iff.mpr ⟨.rightParen, by rw [hleft]; rfl, by omega, hkind, ?_⟩
  have hsig : (s.kindsIn (left + 1) close).filter (!·.isTrivia) = ks := by
    have := path.significant
    rw [kindsIn_snoc hkind (by omega), filter_append] at this
    exact (append_inj_left' this rfl)
  rw [← balanced_significant, hsig]
  exact hks

end MageUplift.Php.TokenStream

namespace MageUplift.Call

open Php TokenStream Magento List Option

variable {s : TokenStream} {i stop : Nat} {k : Kind}

/-! ## §3. Top-level commas. -/

theorem balanced_tail (hk : s.kind? i = some k) (hlt : i < stop)
    (hplain : k.isPlain) (hbal : Balanced (s.kindsIn i stop)) : Balanced (s.kindsIn (i + 1) stop) := by
  unfold Php.Balanced at hbal ⊢
  rwa [kindsIn_cons hk hlt, expected_plain hplain] at hbal

theorem balanced_behind {close : Nat} (hclose : s.matchingClose? i = some close)
    (hlt : close < stop) : Balanced (s.kindsIn i (close + 1))
      ∧ (Balanced (s.kindsIn i stop) → Balanced (s.kindsIn (close + 1) stop)) := by
  obtain ⟨c, hopen, hic, hkc, hmid⟩ := close_iff.mp hclose
  obtain ⟨k, hk, hcloser⟩ := bind_eq_some_iff.mp hopen
  have hword : Balanced (s.kindsIn i (close + 1)) := by
    rw [kindsIn_cons hk (by omega), kindsIn_snoc hkc hic]
    exact hmid.wrap hcloser
  refine ⟨hword, fun hbal => ?_⟩
  unfold Php.Balanced at hbal hword ⊢
  rwa [kindsIn_append s (show i ≤ close + 1 by omega) (show close + 1 ≤ stop by omega), expected_append, hword,
    bind_some] at hbal

theorem isPlain_balanced (hk : s.kind? i = some k) (hlt : i < stop)
    (hbal : Balanced (s.kindsIn i stop)) (hopen : ¬ k.isOpener) : k.isPlain := by
  rcases k.bracket_or_plain with ⟨c, hc⟩ | ⟨-, hclose⟩ | hplain
  · exact absurd (by rw [Kind.isOpener, hc]; rfl) hopen
  · unfold Php.Balanced at hbal
    rw [kindsIn_cons hk hlt, expected_closer_nil hclose] at hbal
    cases hbal
  · exact hplain

theorem close_of_isOpener (hstop : stop ≤ s.size) (hlt : i < stop)
    (hbal : Balanced (s.kindsIn i stop)) (hk : s.kind? i = some k) (hopen : k.isOpener) :
    ∃ close, s.matchingClose? i = some close ∧ close < stop := by
  obtain ⟨c, hc⟩ := isSome_iff_exists.mp hopen
  exact exists_closer hstop hbal (Nat.le_refl i) hlt (by rw [hk]; exact hc)

theorem close_lt_balanced {close : Nat} (hstop : stop ≤ s.size) (hlt : i < stop)
    (hbal : Balanced (s.kindsIn i stop)) (hclose : s.matchingClose? i = some close) : close < stop := by
  obtain ⟨k, hk, -⟩ := opener_close hclose
  obtain ⟨d, hd, hds⟩ := exists_closer hstop hbal (Nat.le_refl i) hlt hk
  rw [hclose, some.injEq] at hd
  rwa [hd]

theorem topCommas?_of_kind? (hk : s.kind? i = some k) (hi : i < stop) :
    topCommas? s stop i
      = if k.isOpener then (s.matchingClose? i).bind fun close => topCommas? s stop (close + 1)
        else (topCommas? s stop (i + 1)).map fun commas => if k = .comma then i :: commas else commas := by
  rw [topCommas?, if_pos hi]
  split
  · simp_all
  · rename_i k' hk'
    rw [hk, some.injEq] at hk'
    subst hk'
    split
    · split
      · rename_i hclose
        rw [hclose, bind_none]
      · rename_i close hclose
        rw [hclose, bind_some]
    · rfl

theorem topCommas?_spec {p : Nat} {commas : List Nat} (h : topCommas? s stop i = some commas) (hp : p ∈ commas) :
    i ≤ p ∧ p < stop ∧ s.kind? p = some .comma := by
  fun_induction topCommas? s stop i generalizing commas with
  | case1 | case2 => cases h
  | case3 i hi k hk hopen close hclose ih =>
    have := lt_close hclose
    obtain ⟨hle, hrest⟩ := ih h hp
    exact ⟨by omega, hrest⟩
  | case4 i hi k hk hopen ih =>
    obtain ⟨rest, hrest, rfl⟩ := map_eq_some_iff.mp h
    by_cases hcomma : k = .comma
    · rw [if_pos hcomma, mem_cons] at hp
      rcases hp with rfl | hp
      · exact ⟨Nat.le_refl _, hi, hcomma ▸ hk⟩
      · obtain ⟨hle, hlt⟩ := ih hrest hp
        exact ⟨by omega, hlt⟩
    · rw [if_neg hcomma] at hp
      obtain ⟨hle, hlt⟩ := ih hrest hp
      exact ⟨by omega, hlt⟩
  | case5 =>
    rw [some.injEq] at h
    subst h
    cases hp

theorem topCommas?_outside {p o d : Nat} {commas : List Nat}
    (h : topCommas? s stop i = some commas) (hp : p ∈ commas) (hi : i ≤ o) (ho : o < p)
    (hd : s.matchingClose? o = some d) : d < p := by
  obtain ⟨c, hopener, -⟩ := opener_close hd
  fun_induction topCommas? s stop i generalizing commas with
  | case1 | case2 => cases h
  | case3 i hlt k hk hopen close hclose ih =>
    have hafter := (topCommas?_spec h hp).1
    by_cases hio : i = o
    · subst hio
      rw [hclose, some.injEq] at hd
      omega
    · by_cases hoc : o < close
      -- a bracket inside the bracket at `i` is closed inside it
      · obtain ⟨d', hd', hlt'⟩ := close_inside hclose (by omega) hoc hopener
        rw [hd, some.injEq] at hd'
        omega
      · have hne : o ≠ close := by
          rintro rfl
          obtain ⟨k', hk', hkc⟩ := opener_close hclose
          rw [hk, bind_some] at hk'
          rw [hkc, bind_some, Kind.closer?_of_closer? hk'] at hopener
          cases hopener
        exact ih h hp (by omega)
  | case4 i hlt k hk hopen ih =>
    obtain ⟨rest, hrest, rfl⟩ := map_eq_some_iff.mp h
    have hio : i ≠ o := by
      rintro rfl
      rw [hk, bind_some] at hopener
      exact hopen (by rw [Kind.isOpener, hopener]; rfl)
    have hmem : p ∈ rest := by
      by_cases hcomma : k = .comma
      · rw [if_pos hcomma, mem_cons] at hp
        exact hp.resolve_left (by omega)
      · rwa [if_neg hcomma] at hp
    exact ih hrest hmem (by omega)
  | case5 =>
    rw [some.injEq] at h
    subst h
    cases hp

/-! ## §4. The parts of a call. -/

theorem head?_spec {head : Head} (h : head? s i = some head) :
    head.mage = i ∧ (∃ t, s.get? i = some t ∧ isMage t) ∧ isMember s i = false
      ∧ s.Follows i [.doubleColon, .identifier] head.method := by
  unfold head? at h
  obtain ⟨t, ht, h⟩ := bind_eq_some_iff.mp h
  split at h
  · rename_i hmage
    obtain ⟨colons, hcolons, h⟩ := bind_eq_some_iff.mp h
    obtain ⟨method, hmeth, h⟩ := bind_eq_some_iff.mp h
    cases h
    rw [Bool.and_eq_true, Bool.not_eq_true'] at hmage
    exact ⟨rfl, ⟨t, ht, hmage.1⟩, hmage.2, .cons hcolons (.cons hmeth (.nil _))⟩
  · cases h

theorem literalArgument?_spec {method : Nat} {arg : LiteralArgument} (h : literalArgument? s method = some arg) :
    s.Follows method [.leftParen, .stringLiteral, .rightParen] arg.close := by
  unfold literalArgument? at h
  obtain ⟨left, hleft, h⟩ := bind_eq_some_iff.mp h
  obtain ⟨literal, hlit, h⟩ := bind_eq_some_iff.mp h
  obtain ⟨close, hclose, h⟩ := bind_eq_some_iff.mp h
  obtain ⟨value, -, h⟩ := bind_eq_some_iff.mp h
  cases h
  exact .cons hleft (.cons hlit (.cons hclose (.nil _)))

theorem arguments?_spec {method : Nat} {args : Arguments} (h : arguments? s method = some args) :
    s.followedBy? method .leftParen = some args.left ∧ s.matchingClose? args.left = some args.close
      ∧ topCommas? s args.close (args.left + 1) = some args.commas := by
  unfold arguments? at h
  obtain ⟨left, hleft, h⟩ := bind_eq_some_iff.mp h
  obtain ⟨close, hclose, h⟩ := bind_eq_some_iff.mp h
  obtain ⟨commas, hcommas, h⟩ := bind_eq_some_iff.mp h
  cases h
  exact ⟨hleft, hclose, hcommas⟩

/-! ## §5. The two anatomies. -/

/-- The pattern reads the store configuration, and so names the scope in the argument list. -/
def Pattern.readsStore : Pattern → Bool
  | .getStoreConfig | .getStoreConfigFlag => true
  | _ => false

/-- The kinds behind `Mage` in the heads that are whole calls: a method of a service, an alias, a
translation, and a getter of the application object. -/
def closedPaths : List (List Kind) :=
  [[.doubleColon, .identifier],
   [.doubleColon, .identifier, .leftParen, .stringLiteral, .rightParen],
   [.doubleColon, .identifier, .leftParen, .stringLiteral, .rightParen, .arrow, .identifier],
   [.doubleColon, .identifier, .leftParen, .rightParen, .arrow, .identifier]]

/-- The kinds behind `Mage` in a head that ends with the parenthesis of the argument list. -/
def openPath : List Kind := [.doubleColon, .identifier, .leftParen]

/-- What a call edits in an argument list with these commas that ends at `close`. -/
inductive TailEdit (inv : Invocation) (close : Nat) (commas : List Nat) : Prop where
  | untouched (pattern : inv.pattern.readsStore = false) (tail : inv.tail = none)
  | atClose (code : String) (noComma : inv.pattern.readsStore = true → commas = [])
      (tail : inv.tail = some ⟨.empty close, code⟩)
  | atComma (comma : Nat) (code : String) (pattern : inv.pattern.readsStore = true)
      (only : commas = [comma]) (tail : inv.tail = some ⟨⟨comma, comma + 1⟩, code⟩)

/-- The tokens of a recognised call and the places of its edits. -/
inductive Anatomy (s : TokenStream) (inv : Invocation) : Prop where
  /-- The head is the whole call. -/
  | closed {path : List Kind} {last : Nat} (mem : path ∈ closedPaths)
      (follows : s.Follows inv.span.start path last) (headEnd : inv.headEnd = last + 1)
      (stop : inv.span.stop = last + 1) (pattern : inv.pattern.readsStore = false)
      (tail : inv.tail = none)
  /-- The head ends with the parenthesis of the argument list. -/
  | opened {left close : Nat} {commas : List Nat} (follows : s.Follows inv.span.start openPath left)
      (closes : s.matchingClose? left = some close) (top : topCommas? s close (left + 1) = some commas)
      (headEnd : inv.headEnd = left + 1) (stop : inv.span.stop = close + 1)
      (tail : TailEdit inv close commas)

/-! ## §6. What the catalog recognises. -/

/-- The services of the patterns that replace the head of a call only, and the methods that they are moved to. -/
def servicePatterns : List (Pattern × Collaborator × String) :=
  [(.dispatchEvent, eventManager, "dispatch"), (.registry, registry, "registry"), (.registry, registry, "register"),
   (.registry, registry, "unregister"), (.log, logger, "critical"), (.log, logger, "debug")]

/-- The edit that names the scope in an argument list. -/
inductive ScopeEdit (args : Arguments) : CodeEdit → Prop where
  | atClose (none : args.commas = []) : ScopeEdit args ⟨.empty args.close, ", " ++ scopeStore⟩
  | atComma {comma : Nat} (one : args.commas = [comma]) :
    ScopeEdit args ⟨⟨comma, comma + 1⟩, ", " ++ scopeStore ++ ","⟩

/-- **The calls that the catalog recognises**: what is read for each pattern, and what is answered. -/
inductive Recognised (table : AliasTable) (s : TokenStream) (head : Head) (method : String) :
    Pattern → Invocation → Prop where
  | translation {arg : LiteralArgument} {arrow member left : Nat} (argument : literalArgument? s head.method = some arg)
      (selects : s.followedBy? arg.close .arrow = some arrow) (names : s.followedBy? arrow .identifier = some member)
      (text : s.text member = "__") (opens : s.followedBy? member .leftParen = some left) :
    Recognised table s head method .helperTranslate
      ⟨.helperTranslate, ⟨head.mage, member + 1⟩, member + 1, "Mage::helper('" ++ arg.value ++ "')->__", "__", none,
      "__", none⟩
  | helper {arg : LiteralArgument} {cls : String} (argument : literalArgument? s head.method = some arg)
      (resolves : table.resolve? .helper arg.value = some cls) :
    Recognised table s head method .helper
      ⟨.helper, ⟨head.mage, arg.close + 1⟩, arg.close + 1, "Mage::helper('" ++ arg.value ++ "')", cls,
       some ⟨helperVariableName cls, cls⟩, Collaborator.property ⟨helperVariableName cls, cls⟩, none⟩
  | model {arg : LiteralArgument} {cls : String} {pattern : Pattern} {kind : AliasKind} (factory : Bool)
      (aliased : (pattern, kind, factory) ∈ [(.getModel, .model, true), (.getSingleton, .model, false),
        (.getResourceModel, .resourceModel, true)])
      (argument : literalArgument? s head.method = some arg) (resolves : table.resolve? kind arg.value = some cls)
      {injected : String} (type : injected = if factory then cls ++ "Factory" else cls)
      {model : Collaborator} (named : model = ⟨variableName injected, injected⟩) :
    Recognised table s head method pattern
      ⟨pattern, ⟨head.mage, arg.close + 1⟩, arg.close + 1, "Mage::" ++ s.text head.method ++ "('" ++ arg.value ++ "')",
       injected, some model, if factory then model.property ++ "->create()" else model.property, none⟩
  | service {pattern : Pattern} {service : Collaborator} {target : String} {left : Nat}
      (serves : (pattern, service) ∈ [(.dispatchEvent, eventManager), (.registry, Call.registry), (.log, logger)])
      (moves : method ∈ pattern.methods → (pattern, service, target) ∈ servicePatterns)
      (opens : s.followedBy? head.method .leftParen = some left) :
    Recognised table s head method pattern
      ⟨pattern, ⟨head.mage, head.method + 1⟩, head.method + 1, "Mage::" ++ method, service.type, some service,
       service.property ++ "->" ++ target, none⟩
  | storeConfig {pattern : Pattern} {getter : String} {args : Arguments} {edit : CodeEdit}
      (reads : (pattern, getter) ∈ [(.getStoreConfig, "getValue"), (.getStoreConfigFlag, "isSetFlag")])
      (arguments : arguments? s head.method = some args) (filled : args.isEmpty s = false) (scope : ScopeEdit args edit) :
    Recognised table s head method pattern
      ⟨pattern, ⟨head.mage, args.close + 1⟩, args.left + 1, "Mage::" ++ s.text head.method, scopeConfig.type,
       some scopeConfig, scopeConfig.property ++ "->" ++ getter ++ "(", some edit⟩
  | exception {args : Arguments} (translated : Bool) (localized : isLocalized s args = translated)
      (arguments : arguments? s head.method = some args) (filled : args.isEmpty s = false) :
    Recognised table s head method .throwException
      ⟨.throwException, ⟨head.mage, args.close + 1⟩, args.left + 1, "Mage::throwException", localizedException, none,
       if translated then "throw new " ++ localizedException ++ "("
       else "throw new " ++ localizedException ++ "(" ++ "__(",
       if translated then none else some ⟨.empty args.close, ")"⟩⟩
  | appStore {left close arrow member : Nat} {getter : String} (opens : s.followedBy? head.method .leftParen = some left)
      (closes : s.followedBy? left .rightParen = some close) (selects : s.followedBy? close .arrow = some arrow)
      (names : s.followedBy? arrow .identifier = some member)
      (known : storeGetters.find? (sameWord · (s.text member)) = some getter) :
    Recognised table s head method .appStore
      ⟨.appStore, ⟨head.mage, member + 1⟩, member + 1, "Mage::app()->" ++ getter, storeManager.type, some storeManager,
       storeManager.property ++ "->" ++ getter, none⟩

section

variable {table : AliasTable} {s : TokenStream} {head : Head} {method : String} {p : Pattern} {inv : Invocation}

theorem matchModel?_recognised {kind : AliasKind} {factory : Bool}
    (halias : (p, kind, factory) ∈ [(.getModel, .model, true), (.getSingleton, .model, false),
      (.getResourceModel, .resourceModel, true)])
    (h : matchModel? table p kind factory s head = some inv) : Recognised table s head method p inv := by
  obtain ⟨arg, harg, h⟩ := bind_eq_some_iff.mp h
  obtain ⟨cls, hcls, h⟩ := bind_eq_some_iff.mp h
  cases h
  exact .model factory halias harg hcls rfl rfl

theorem matchService?_recognised {service : Collaborator} {target : String}
    (hserves : (p, service) ∈ [(.dispatchEvent, eventManager), (.registry, Call.registry), (.log, logger)])
    (hmoves : method ∈ p.methods → (p, service, target) ∈ servicePatterns)
    (h : matchService? p method service target s head = some inv) : Recognised table s head method p inv := by
  obtain ⟨left, hleft, h⟩ := bind_eq_some_iff.mp h
  cases h
  exact .service hserves hmoves hleft

theorem matchStoreConfig?_recognised {getter : String}
    (hreads : (p, getter) ∈ [(.getStoreConfig, "getValue"), (.getStoreConfigFlag, "isSetFlag")])
    (h : matchStoreConfig? p getter s head = some inv) : Recognised table s head method p inv := by
  obtain ⟨args, hargs, h⟩ := bind_eq_some_iff.mp h
  split at h
  · cases h
  · rename_i hfilled
    rw [Bool.not_eq_true] at hfilled
    dsimp only at h
    split at h
    · cases h
      exact .storeConfig hreads hargs hfilled (.atClose ‹_›)
    · cases h
      exact .storeConfig hreads hargs hfilled (.atComma ‹_›)
    · cases h

theorem head_recognised (h : p.matchHead? table s head method = some inv) : Recognised table s head method p inv := by
  cases p with
  | helperTranslate =>
    obtain ⟨arg, harg, h⟩ := bind_eq_some_iff.mp h
    obtain ⟨arrow, harrow, h⟩ := bind_eq_some_iff.mp h
    obtain ⟨member, hmember, h⟩ := bind_eq_some_iff.mp h
    split at h
    · obtain ⟨left, hleft, h⟩ := bind_eq_some_iff.mp h
      cases h
      exact .translation harg harrow hmember ‹_› hleft
    · cases h
  | helper =>
    obtain ⟨arg, harg, h⟩ := bind_eq_some_iff.mp h
    obtain ⟨cls, hcls, h⟩ := bind_eq_some_iff.mp h
    cases h
    exact .helper harg hcls
  | getModel | getSingleton | getResourceModel => exact matchModel?_recognised (by simp) h
  | getStoreConfig | getStoreConfigFlag => exact matchStoreConfig?_recognised (by simp) h
  | dispatchEvent => exact matchService?_recognised (by simp) (fun _ => by simp [servicePatterns]) h
  | registry =>
    refine matchService?_recognised (by simp) (fun hmem => ?_) h
    have hall : ∀ m ∈ Pattern.registry.methods, (Pattern.registry, Call.registry, m) ∈ servicePatterns := by decide
    exact hall method hmem
  | log => exact matchService?_recognised (by simp) (fun _ => by split <;> simp [servicePatterns]) h
  | throwException =>
    obtain ⟨args, hargs, h⟩ := bind_eq_some_iff.mp h
    split at h
    · cases h
    · rename_i hfilled
      cases h
      exact .exception _ rfl hargs (Bool.not_eq_true _ ▸ hfilled)
  | appStore =>
    obtain ⟨left, hleft, h⟩ := bind_eq_some_iff.mp h
    obtain ⟨close, hclose, h⟩ := bind_eq_some_iff.mp h
    obtain ⟨arrow, harrow, h⟩ := bind_eq_some_iff.mp h
    obtain ⟨member, hmember, h⟩ := bind_eq_some_iff.mp h
    obtain ⟨getter, hgetter, h⟩ := bind_eq_some_iff.mp h
    cases h
    exact .appStore hleft hclose harrow hmember hgetter

theorem matchHead?_pattern (h : p.matchHead? table s head method = some inv) :
    inv.pattern = p ∧ (inv.collaborator = none ↔ p = .helperTranslate ∨ p = .throwException) := by
  cases head_recognised h with
  | model _ known | service known | storeConfig known =>
    refine ⟨rfl, iff_of_false nofun ?_⟩
    rintro (rfl | rfl) <;> simp at known
  | _ => exact ⟨rfl, by simp⟩

theorem matchHead?_anatomy (hhead : s.Follows head.mage [.doubleColon, .identifier] head.method)
    (h : p.matchHead? table s head method = some inv) : inv.span.start = head.mage ∧ Anatomy s inv := by
  cases head_recognised h with
  | translation argument selects names =>
    have hpath := ((hhead.append (literalArgument?_spec argument)).snoc selects).snoc names
    exact ⟨rfl, .closed (by decide) hpath rfl rfl rfl rfl⟩
  | helper argument =>
    exact ⟨rfl, .closed (by decide) (hhead.append (literalArgument?_spec argument)) rfl rfl rfl rfl⟩
  | model _ aliased argument =>
    have hpat : p.readsStore = false := by
      cases p <;> first | rfl | simp at aliased
    exact ⟨rfl, .closed (by decide) (hhead.append (literalArgument?_spec argument)) rfl rfl hpat rfl⟩
  | service serves =>
    have hpat : p.readsStore = false := by
      cases p <;> first | rfl | simp at serves
    exact ⟨rfl, .closed (by decide) hhead rfl rfl hpat rfl⟩
  | storeConfig reads arguments _ scope =>
    have hpat : p.readsStore := by
      cases p <;> first | rfl | simp at reads
    obtain ⟨hleft, hclose, hcommas⟩ := arguments?_spec arguments
    refine ⟨rfl, .opened (hhead.snoc hleft) hclose hcommas rfl rfl ?_⟩
    cases scope with
    | atClose none => exact .atClose _ (fun _ => none) rfl
    | atComma one => exact .atComma _ _ hpat one rfl
  | exception translated _ arguments =>
    obtain ⟨hleft, hclose, hcommas⟩ := arguments?_spec arguments
    refine ⟨rfl, .opened (hhead.snoc hleft) hclose hcommas rfl rfl ?_⟩
    cases translated with
    | true => exact .untouched rfl rfl
    | false => exact .atClose ")" nofun rfl
  | appStore opens closes selects names =>
    have hpath := (((hhead.snoc opens).snoc closes).snoc selects).snoc names
    exact ⟨rfl, .closed (by decide) hpath rfl rfl rfl rfl⟩

theorem matchAt?_cases (h : matchAt? table s i = some inv) : ∃ (head : Head) (p : Pattern) (method : String),
      head? s i = some head ∧ p.methods.find? (sameWord · (s.text head.method)) = some method
      ∧ p.matchHead? table s head method = some inv := by
  unfold matchAt? at h
  obtain ⟨head, hhead, h⟩ := bind_eq_some_iff.mp h
  obtain ⟨p, -, h⟩ := exists_of_findSome?_eq_some h
  obtain ⟨method, hmeth, h⟩ := bind_eq_some_iff.mp h
  exact ⟨head, p, method, hhead, hmeth, h⟩

/-- **A recognised call** starts with a `Mage` that is no member and has one of the two anatomies. -/
theorem matchAt?_anatomy (h : matchAt? table s i = some inv) :
    inv.span.start = i ∧ (∃ t, s.get? i = some t ∧ isMage t) ∧ isMember s i = false ∧ Anatomy s inv := by
  obtain ⟨head, p, method, hhead, -, hmatch⟩ := matchAt?_cases h
  obtain ⟨rfl, hmage, hmem, hpath⟩ := head?_spec hhead
  obtain ⟨hstart, hanatomy⟩ := matchHead?_anatomy hpath hmatch
  exact ⟨hstart, hmage, hmem, hanatomy⟩

end

end MageUplift.Call
