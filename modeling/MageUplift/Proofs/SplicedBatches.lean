import MageUplift.Proofs.Confinement
import MageUplift.Proofs.InjectedCode

/-!
# The two batches as a splice

The tokens that a migration puts together are the tokens of the file, some of them dropped and new ones put
in between. Here the pass is brought into the form of `Spliced`: the edits of the calls take whole tokens of
code away and start with new code where they do, and what the injector adds stands in front of code as well.

A line comment needs care, since it takes along whatever follows on its line. A call never starts right
behind one, because the line break is a token of its own; what the injector puts there is soft.
-/

namespace MageUplift

open Php TokenStream Call Wiring Magento List Option Edit

variable {table : AliasTable} {s : TokenStream} {mode : Mode} {i : Nat} {t u : Token} {r : Requirements}
  {tokens new : List Token} {code : String} {edits inserts : List (Edit Token)} {inv : Invocation} {e : Edit Token}
  {m : Migrator}

/-! ## §1. Modes along a sequence of tokens. -/

/-- Each token is one of the mode in which the token before it leaves the reader. -/
inductive Chained : Mode → List Token → Prop where
  | nil (mode : Mode) : Chained mode []
  | cons {mode : Mode} {t : Token} {rest : List Token} (inMode : t.kind.mode = mode)
      (tail : Chained t.kind.nextMode rest) : Chained mode (t :: rest)

theorem Php.Lexical.chained (h : Lexical mode tokens) : Chained mode tokens := by
  induction h with
  | nil mode => exact .nil mode
  | cons inMode _ _ ih => exact .cons inMode ih

theorem Chained.next (h : Chained mode tokens)
    (ht : tokens[i]? = some t) (hu : tokens[i + 1]? = some u) : u.kind.mode = t.kind.nextMode := by
  induction h generalizing i with
  | nil => cases ht
  | cons inMode tail ih =>
    cases i with
    | zero =>
      cases ht
      cases tail with
      | nil => cases hu
      | cons inMode' _ =>
        cases hu
        exact inMode'
    | succ i => exact ih ht hu

theorem Php.Spliced.chained {src res : List Token} (h : Spliced src res) :
    ∀ {mode : Mode}, Chained mode src → Chained mode res := by
  induction h with
  | done => exact fun h => h
  | keep meets rest ih =>
    intro mode hchain
    cases hchain with
    | cons inMode tail => exact .cons inMode (ih tail)
  | drop mode next rest ih =>
    intro _ hchain
    cases hchain with
    | cons inMode tail =>
      rw [← inMode, mode, ← next]
      exact ih tail
  | new inert mode rest ih =>
    intro _ hchain
    have hrest := ih hchain
    cases hchain with
    | cons inMode tail =>
      rw [← inMode, mode] at hrest ⊢
      exact .cons inert.mode (inert.next ▸ hrest)

/-! ## §2. New tokens. -/

/-- Tokens that are new code: they are inert, and a token in front of them cannot take anything along. -/
structure NewCode (new : List Token) : Prop where
  inert : ∀ t ∈ new, t.Inert
  text : ∀ t ∈ new, t.text.toList ≠ []
  free : startsFree (charsOf new) = true

theorem NewCode.nil : NewCode [] := ⟨fun _ ht => (by cases ht), fun _ ht => (by cases ht), rfl⟩

theorem NewCode.charsOf_ne_nil (h : NewCode new) (hne : new ≠ []) : charsOf new ≠ [] := by
  obtain ⟨t, rest, rfl⟩ := exists_cons_of_ne_nil hne
  rw [charsOf_cons]
  exact fun hnil => h.text t mem_cons_self (append_eq_nil_iff.mp hnil).1

theorem startsFree_append {a : List Char} (b : List Char) (ha : startsFree a) (hne : a ≠ []) :
    startsFree (a ++ b) := by
  unfold startsFree at ha ⊢
  rwa [nextIs_append hne]

theorem NewCode.append {a b : List Token} (ha : NewCode a) (hb : NewCode b) : NewCode (a ++ b) := by
  refine ⟨fun t ht => ?_, fun t ht => ?_, ?_⟩
  · exact (mem_append.mp ht).elim (ha.inert t) (hb.inert t)
  · exact (mem_append.mp ht).elim (ha.text t) (hb.text t)
  · by_cases hnil : a = []
    · subst hnil
      exact hb.free
    · rw [charsOf_append]
      exact startsFree_append _ ha.free (ha.charsOf_ne_nil hnil)

theorem NewCode.flatMap {α : Type} {l : List α} {f : α → List Token} (h : ∀ x ∈ l, NewCode (f x)) :
    NewCode (l.flatMap f) := by
  induction l with
  | nil => exact .nil
  | cons x l ih =>
    rw [flatMap_cons]
    exact (h x mem_cons_self).append (ih (forall_mem_cons.mp h).2)

theorem NewCode.ofCode {ks : List Kind} (hinert : InertText code.toList ks)
    (hstarts : StartsCode code) : NewCode (lexFragment code) := by
  refine ⟨(lexFragment_inert hinert).1, steps_text_ne_nil _ _ _ _, ?_⟩
  rw [chars_fragment]
  exact hstarts.2

theorem lexFragment_ne_nil (h : StartsCode code) : lexFragment code ≠ [] := by
  intro hnil
  have := chars_fragment code
  rw [hnil] at this
  exact h.1 this.symm

theorem newCode_generatedAt (h : ∀ e ∈ edits, NewCode e.replacement) (i : Nat) : NewCode (generatedAt edits i) :=
  .append (.flatMap fun e he => h e (mem_filter.mp he).1) (.flatMap fun e he => h e (mem_filter.mp he).1)

/-! ## §3. Two batches. -/

/-- New tokens that may stand in front of position `i`: code stands behind them, and what could be taken
along by a line comment in front of them is soft. -/
structure NewBefore (items : List Token) (i : Nat) (new : List Token) : Prop where
  code : NewCode new
  place : ∃ t, items[i]? = some t ∧ t.kind.mode = .php
  comment : (∀ x ∈ charsOf new, isSoft x = true)
    ∨ ∀ q t, i = q + 1 → items[q]? = some t → t.isLineComment = false

theorem newCode_of_newBefore {items : List Token}
    (h : ∀ i, generatedAt edits i ≠ [] → NewBefore items i (generatedAt edits i)) (i : Nat) :
    NewCode (generatedAt edits i) := by
  by_cases hnone : generatedAt edits i = []
  · exact hnone ▸ .nil
  · exact (h i hnone).code

/-- A batch that replaces code by code. It takes tokens of code away, and starts with something new where it
does; it writes nothing right behind a line comment. -/
structure ReplacesCode (items : List Token) (edits : List (Edit Token)) : Prop where
  new : ∀ i, generatedAt edits i ≠ [] → NewBefore items i (generatedAt edits i)
  dropped : ∀ i t, items[i]? = some t → covers edits i = true →
    t.kind.mode = .php ∧ t.kind.nextMode = .php
  starts : ∀ i, covers edits (i + 1) = true →
    covers edits i = true ∨ generatedAt edits (i + 1) ≠ []
  comments : ∀ i t, items[i]? = some t → t.isLineComment = true → generatedAt edits (i + 1) = []

theorem Php.Spliced.news {src res : List Token} (hnew : ∀ g ∈ new, g.Inert)
    (hmode : new ≠ [] → t.kind.mode = .php) (h : Spliced (t :: src) res) : Spliced (t :: src) (new ++ res) := by
  induction new with
  | nil => exact h
  | cons g new ih =>
    have hphp := hmode (cons_ne_nil g new)
    exact .new (hnew g mem_cons_self) hphp (ih (forall_mem_cons.mp hnew).2 fun _ => hphp)

theorem mem_stretch {off : Nat} {xs : List Token}
    (h : t ∈ stretch inserts off xs) : t ∈ xs ∨ ∃ p, t ∈ generatedAt inserts p := by
  induction xs generalizing off with
  | nil => cases h
  | cons x xs ih =>
    rw [stretch, mem_append, mem_cons] at h
    rcases h with h | rfl | h
    · exact .inr ⟨off, h⟩
    · exact .inl mem_cons_self
    · exact (ih h).imp_left (mem_cons_of_mem x)

section

variable {items : List Token} {edits inserts : List (Edit Token)}

theorem ReplacesCode.weaveFrom_end (hedits : ReplacesCode items edits) : weaveFrom edits items.length [] = [] := by
  have hnone : generatedAt edits items.length = [] := by
    by_contra hne
    obtain ⟨t, ht, -⟩ := (hedits.new _ hne).place
    rw [getElem?_eq_none le_rfl] at ht
    cases ht
  rw [weaveFrom, pieceAt, hnone]
  simp

theorem NewCode.free_stretch (hnew : NewCode new) (hne : new ≠ [])
    (hinserts : ∀ p, NewCode (generatedAt inserts p)) (off : Nat) (rest : List Token) :
    startsFree (charsOf (stretch inserts off (new ++ rest))) := by
  obtain ⟨g, new, rfl⟩ := exists_cons_of_ne_nil hne
  rw [cons_append, stretch, charsOf_append]
  by_cases hnone : generatedAt inserts off = []
  · have hg := hnew.text g mem_cons_self
    have hfree := hnew.free
    unfold startsFree at hfree ⊢
    rw [charsOf_cons, nextIs_append hg] at hfree
    rwa [hnone, charsOf_nil, nil_append, charsOf_cons, nextIs_append hg]
  · exact startsFree_append _ (hinserts off).free ((hinserts off).charsOf_ne_nil hnone)

variable (hedits : ReplacesCode items edits)
  (hinserts : ∀ p, Edit.generatedAt inserts p ≠ [] →
    NewBefore (Edit.weave items edits) p (Edit.generatedAt inserts p))

include hedits hinserts

theorem meets_of_batches {before rest done : List Token} {x : Token} (hitems : items = before ++ x :: rest)
    (hweave : weave items edits = done ++ x :: weaveFrom edits (before.length + 1) rest)
    (hkept : covers edits before.length = false) :
    x.Meets rest (stretch inserts (done.length + 1) (weaveFrom edits (before.length + 1) rest)) := by
  have hx : items[before.length]? = some x := by simp [hitems]
  cases rest with
  | nil =>
    have hend := hedits.weaveFrom_end
    rw [hitems, length_append, length_singleton] at hend
    rw [hend]
    exact .done
  | cons y rest =>
    have hy : items[before.length + 1]? = some y := by simp [hitems]
    rw [weaveFrom, pieceAt] at hweave ⊢
    by_cases hnone : generatedAt edits (before.length + 1) = []
    · -- the batch leaves the next token alone
      have hcov : covers edits (before.length + 1) = false := by
        rw [← Bool.not_eq_true]
        intro hcov
        rcases hedits.starts _ hcov with hcov | hne
        · rw [hkept] at hcov
          cases hcov
        · exact hne hnone
      rw [hnone, hcov, nil_append] at hweave ⊢
      change x.Meets (y :: rest) (generatedAt inserts (done.length + 1) ++ y :: _)
      by_cases hsame : generatedAt inserts (done.length + 1) = []
      · rw [hsame]
        exact .same y rest _
      · obtain ⟨code, ⟨t, ht, hmode⟩, hcom⟩ := hinserts _ hsame
        obtain rfl : y = t := by simpa [hweave] using ht
        have hfree := startsFree_append (charsOf (y :: stretch inserts (done.length + 1 + 1)
          (weaveFrom edits (before.length + 1 + 1) rest))) code.free (code.charsOf_ne_nil hsame)
        rw [← charsOf_append] at hfree
        rcases hcom with hsoft | hcode
        · exact .soft hmode hfree hsoft
        · exact .new hmode hfree (hcode done.length x rfl (by simp [hweave]))
    · obtain ⟨code, ⟨t, ht, hmode⟩, -⟩ := hedits.new _ hnone
      rw [hy] at ht
      cases ht
      rw [append_assoc]
      refine .new hmode (code.free_stretch hnone (newCode_of_newBefore hinserts) _ _) ?_
      rw [← Bool.not_eq_true]
      exact fun hcom => hnone (hedits.comments _ x hx hcom)

theorem spliced_of_batches_from : ∀ (rest before done : List Token), items = before ++ rest →
    weave items edits = done ++ weaveFrom edits before.length rest →
      Spliced rest (stretch inserts done.length (weaveFrom edits before.length rest)) := by
  intro rest
  induction rest with
  | nil =>
    intro before done hitems hweave
    rw [append_nil] at hitems
    rw [← hitems, hedits.weaveFrom_end]
    exact .done
  | cons x rest ih =>
    intro before done hitems hweave
    have hx : items[before.length]? = some x := by simp [hitems]
    have hinert : ∀ t ∈ stretch inserts done.length (generatedAt edits before.length), t.Inert := by
      intro t ht
      rcases mem_stretch ht with ht | ⟨p, ht⟩
      · exact (newCode_of_newBefore hedits.new _).inert t ht
      · exact (newCode_of_newBefore hinserts p).inert t ht
    have ih := ih (before ++ [x])
    rw [length_append, length_singleton] at ih
    rw [weaveFrom, pieceAt] at hweave ⊢
    cases hcov : covers edits before.length with
    | true =>
      obtain ⟨hmode, hnext⟩ := hedits.dropped _ x hx hcov
      rw [hcov] at hweave
      rw [if_pos rfl, append_nil] at hweave ⊢
      have hrest := ih (done ++ generatedAt edits before.length) (by simp [hitems]) (by simp [hweave])
      rw [length_append] at hrest
      rw [stretch_append]
      exact (Spliced.drop hmode hnext hrest).news hinert fun _ => hmode
    | false =>
      rw [hcov] at hweave
      rw [if_neg Bool.false_ne_true, toList_some, append_assoc] at hweave ⊢
      have hrest := ih (done ++ generatedAt edits before.length ++ [x]) (by simp [hitems]) (by simp [hweave])
      have hmeets := meets_of_batches hedits hinserts hitems
        (show _ = (done ++ generatedAt edits before.length) ++ x :: _ by simp [hweave]) hcov
      rw [length_append, length_append, length_singleton] at hrest
      rw [length_append] at hmeets
      rw [stretch_append, singleton_append, stretch, ← append_assoc]
      refine (Spliced.keep hmeets hrest).news (fun t ht => ?_) fun hne => ?_
      · exact (mem_append.mp ht).elim (hinert t) ((newCode_of_newBefore hinserts _).inert t)
      · -- whichever batch puts something there knows that code follows
        by_cases hnone : generatedAt edits before.length = []
        · rw [hnone] at hne hweave
          obtain ⟨t, ht, hmode⟩ := (hinserts done.length (by simpa [stretch] using hne)).place
          obtain rfl : x = t := by simpa [hweave] using ht
          exact hmode
        · obtain ⟨t, ht, hmode⟩ := (hedits.new _ hnone).place
          rw [hx] at ht
          cases ht
          exact hmode

/-- **A batch that replaces code by code, and insertions into its result, are a splice.** -/
theorem spliced_of_batches (hempty : ∀ e ∈ inserts, e.span.isEmpty) :
    Spliced items (weave (weave items edits) inserts) := by
  have hend : generatedAt inserts (weave items edits).length = [] := by
    by_contra hne
    obtain ⟨t, ht, -⟩ := (hinserts _ hne).place
    rw [getElem?_eq_none le_rfl] at ht
    cases ht
  show Spliced items (weaveFrom inserts 0 (weave items edits))
  rw [weaveFrom_insertions hempty, Nat.zero_add, hend, append_nil]
  exact spliced_of_batches_from hedits hinserts items [] [] rfl rfl

end

/-! ## §4. The edits of calls. -/

theorem Php.Lexical.after_lineComment (h : Lexical mode tokens)
    (ht : tokens[i]? = some t) (hcom : t.isLineComment) (hu : tokens[i + 1]? = some u) :
    u.kind = .whitespace ∨ u.kind = .closeTag := by
  induction h generalizing i with
  | nil => cases ht
  | @cons mode first rest inMode lexed tail ih =>
    cases i with
    | succ i => exact ih ht hu
    | zero =>
      cases ht
      have hrun := lexed.ends.comment hcom
      rw [nextMode_lineComment hcom] at tail
      cases tail with
      | nil => cases hu
      | cons inMode' lexed' _ =>
        cases hu
        obtain ⟨c, w, last, htext, hkind, -⟩ := lexed'
        rw [inMode'] at hkind
        rw [charsOf_cons, htext, cons_append] at hrun
        rw [← hkind]
        exact phpLexeme_of_lineCommentRun hrun last

def editedKinds : List Kind := [.identifier, .qualifiedName, .rightParen, .comma]

theorem Call.Anatomy.edited_kind (h : Anatomy s inv)
    (hmage : ∃ t, s.get? inv.span.start = some t ∧ isMage t) {e : CodeEdit} (he : e ∈ inv.codeEdits) :
    ∃ k, s.kind? e.span.start = some k ∧ k ∈ editedKinds := by
  rcases Invocation.mem_codeEdits.mp he with rfl | he
  · obtain ⟨t, ht, hmage⟩ := hmage
    refine ⟨t.kind, kind?_get? ht, ?_⟩
    rcases isMage_kind hmage with hk | hk <;> rw [hk] <;> decide
  · obtain ⟨left, close, commas, -, -, -, htop, hclose, hspan | ⟨comma, hcomma, hspan⟩⟩ := h.tail_cases he
    · rw [hspan]
      exact ⟨_, hclose, by decide⟩
    · rw [hspan]
      exact ⟨_, (topCommas?_spec htop hcomma).2.2, by decide⟩

theorem mode_of_editedKinds : ∀ k ∈ editedKinds, k.mode = .php ∧ k.nextMode = .php := by decide

theorem Call.Anatomy.dropped_kind (h : Anatomy s inv)
    (hmage : ∃ t, s.get? inv.span.start = some t ∧ isMage t) {e : CodeEdit} (he : e ∈ inv.codeEdits)
    {k : Kind} (hle : e.span.start ≤ i) (hlt : i < e.span.stop) (hk : s.kind? i = some k) :
    k.mode = .php ∧ k.nextMode = .php := by
  by_cases hi : e.span.start = i
  · obtain ⟨k', hk', hmem⟩ := h.edited_kind hmage he
    rw [hi, hk] at hk'
    cases hk'
    exact mode_of_editedKinds k hmem
  · rcases Invocation.mem_codeEdits.mp he with rfl | he
    · change inv.span.start ≤ i at hle
      change ¬inv.span.start = i at hi
      have hkinds : ∀ k ∈ headPaths.flatten, k.mode = .php ∧ k.nextMode = .php := by decide
      rcases h.head_kind (by omega) hlt hk with htriv | hmem
      · exact mode_of_isTrivia htriv
      · exact hkinds k hmem
    · obtain ⟨_, _, _, _, _, _, _, _, hspan | ⟨comma, _, hspan⟩⟩ := h.tail_cases he
      · rw [hspan] at hle hlt
        exact absurd hle (Nat.not_le.mpr hlt)
      · rw [hspan] at hle hlt hi
        change comma ≤ i at hle
        change i < comma + 1 at hlt
        change ¬comma = i at hi
        omega

theorem getElem?_tokens (s : TokenStream) (i : Nat) : s.tokens.toList[i]? = s.get? i := Array.getElem?_toList

theorem mem_callEdits (h : e ∈ callEdits table s) : ∃ inv ∈ scan table s, ∃ c ∈ inv.codeEdits, e = c.toEdit := by
  obtain ⟨inv, hinv, he⟩ := mem_flatMap.mp h
  obtain ⟨c, hc, rfl⟩ := List.mem_map.mp he
  exact ⟨inv, hinv, c, hc, rfl⟩

theorem CallCode.of_mem {ks ls : List Kind} (h : CallCode inv ks ls) {c : CodeEdit}
    (hc : c ∈ inv.codeEdits) : (∃ ms, InertText c.code.toList ms) ∧ StartsCode c.code := by
  rcases Invocation.mem_codeEdits.mp hc with rfl | hc
  · exact ⟨⟨ks, h.modern⟩, h.starts⟩
  · obtain ⟨hinert, hstarts, -⟩ := h.further c hc
    exact ⟨⟨ls, hinert⟩, hstarts⟩

theorem newCode_callEdits (htab : table.WellFormed)
    (he : e ∈ callEdits table s) : NewCode e.replacement ∧ e.replacement ≠ [] := by
  obtain ⟨inv, hinv, c, hc, rfl⟩ := mem_callEdits he
  obtain ⟨ks, ls, hcode⟩ := matchAt?_code htab (isCall_mem hinv)
  obtain ⟨⟨ms, hinert⟩, hstarts⟩ := hcode.of_mem hc
  exact ⟨.ofCode hinert hstarts, lexFragment_ne_nil hstarts⟩

theorem token_callEdits (he : e ∈ callEdits table s) :
    ∃ t, s.tokens.toList[e.span.start]? = some t ∧ t.kind ∈ editedKinds := by
  obtain ⟨inv, hinv, c, hc, rfl⟩ := mem_callEdits he
  have hcall := isCall_mem hinv
  obtain ⟨k, hk, hmem⟩ := hcall.anatomy.edited_kind hcall.isMage hc
  obtain ⟨t, ht, rfl⟩ := map_eq_some_iff.mp hk
  exact ⟨t, (getElem?_tokens s _).trans ht, hmem⟩

theorem dropped_callEdits (ht : s.tokens.toList[i]? = some t) (hcov : covers (callEdits table s) i) :
    t.kind.mode = .php ∧ t.kind.nextMode = .php := by
  obtain ⟨e, he, hi⟩ := covers_iff.mp hcov
  obtain ⟨inv, hinv, c, hc, rfl⟩ := mem_callEdits he
  have hcall := isCall_mem hinv
  rw [getElem?_tokens] at ht
  exact hcall.anatomy.dropped_kind hcall.isMage hc hi.1 hi.2 (kind?_get? ht)

theorem starts_callEdits (htab : table.WellFormed) (hcov : covers (callEdits table s) i) :
    generatedAt (callEdits table s) i ≠ [] ∨ ∃ q, i = q + 1 ∧ covers (callEdits table s) q := by
  obtain ⟨e, he, hi⟩ := covers_iff.mp hcov
  by_cases hstart : e.span.start = i
  · left
    rw [← hstart, generatedAt_mem (callEdits_distinct table s) he]
    exact (newCode_callEdits htab he).2
  · right
    exact ⟨i - 1, by omega, covers_iff.mpr ⟨e, he, by omega⟩⟩

theorem callEdits_replace (htab : table.WellFormed)
    (hlex : Lexical mode s.tokens.toList) : ReplacesCode s.tokens.toList (callEdits table s) := by
  -- nothing that a call writes stands right behind a line comment
  have hcomments : ∀ i t, s.tokens.toList[i]? = some t → t.isLineComment →
      generatedAt (callEdits table s) (i + 1) = [] := by
    intro i t ht hcom
    by_contra hne
    obtain ⟨e, he, hstart⟩ := exists_generatedAt hne
    obtain ⟨u, hu, hmem⟩ := token_callEdits he
    rw [hstart] at hu
    rcases hlex.after_lineComment ht hcom hu with hk | hk
    · rw [hk] at hmem
      exact absurd hmem (by decide)
    · rw [hk] at hmem
      exact absurd hmem (by decide)
  refine ⟨fun i hne => ⟨?_, ?_, .inr fun q t hq ht => ?_⟩, fun i t ht hcov => dropped_callEdits ht hcov,
    fun i hcov => ?_, hcomments⟩
  · exact newCode_generatedAt (fun e he => (newCode_callEdits htab he).1) i
  · obtain ⟨e, he, rfl⟩ := exists_generatedAt hne
    obtain ⟨t, ht, hmem⟩ := token_callEdits he
    exact ⟨t, ht, (mode_of_editedKinds t.kind hmem).1⟩
  · rw [← Bool.not_eq_true]
    intro hcom
    subst hq
    exact hne (hcomments q t ht hcom)
  · rcases starts_callEdits htab hcov with hne | ⟨q, hq, hcov⟩
    · exact .inr hne
    · obtain rfl : i = q := Nat.succ.inj hq
      exact .inl hcov

/-! ## §5. The insertions of the injector. -/

theorem record_plain {policy : Settings.CollisionPolicy} {v : Collaborator}
    {recorded : Recorded × Requirements} (hr : ∀ u ∈ r.entries, u.Plain) (hv : v.Plain)
    (h : r.record policy v = .ok recorded) : ∀ u ∈ recorded.2.entries, u.Plain := by
  intro u hu
  unfold Requirements.record at h
  split at h
  · cases h
    rcases mem_append.mp hu with hu | hu
    · exact hr u hu
    · rw [mem_singleton] at hu
      exact hu ▸ hv
  · split at h
    · cases h
      exact hr u hu
    · split at h
      · cases h
        obtain ⟨w, hw, rfl⟩ := List.mem_map.mp hu
        split
        · exact hv
        · exact hr w hw
      · cases h

theorem collect_plain {calls : List Invocation}
    (hcalls : ∀ inv ∈ calls, ∀ v, inv.collaborator = some v → v.Plain) (h : m.collect calls = .ok r) :
    ∀ v ∈ r.entries, v.Plain := by
  exact foldlM_ask_induction (P := fun r => ∀ v ∈ r.entries, v.Plain) (fun inv hinv v hv r recorded hr hrec =>
    record_plain hr (hcalls inv hinv v hv) hrec) (fun v hv => by cases hv) h

theorem InsertableAt.mode_php {p : Nat} (h : InsertableAt s p code)
    (hchain : Chained mode s.tokens.toList) : ∃ t, s.tokens.toList[p]? = some t ∧ t.kind.mode = .php := by
  obtain ⟨t, hp⟩ : ∃ t, s.tokens.toList[p]? = some t := by
    rw [getElem?_tokens]
    exact ⟨_, Array.getElem?_eq_getElem h.lt⟩
  refine ⟨t, hp, ?_⟩
  rcases h.place with ⟨q, k, rfl, hk, hnext⟩ | ⟨k, hk, hmode⟩
  · obtain ⟨u, hu, rfl⟩ := map_eq_some_iff.mp hk
    exact (hchain.next ((getElem?_tokens s q).trans hu) hp).trans hnext
  · rw [kind?_get? ((getElem?_tokens s p).symm.trans hp), some.injEq] at hk
    exact hk ▸ hmode

theorem inject_newBefore {indent : String}
    (hchain : Chained mode s.tokens.toList) (hind : IsIndentText indent.toList)
    (hr : ∀ v ∈ r.entries, v.Plain) (h : inject s indent r = .ok inserts) (p : Nat)
    (hne : generatedAt inserts p ≠ []) : NewBefore s.tokens.toList p (generatedAt inserts p) := by
  have hcode := inject_code hind hr h
  refine ⟨newCode_generatedAt (fun e he => ?_) p, ?_, ?_⟩
  · obtain ⟨q, code, rfl, hins⟩ := hcode e he
    obtain ⟨ks, hinert, -⟩ := hins.inert
    exact .ofCode hinert hins.starts
  · obtain ⟨e, he, rfl⟩ := exists_generatedAt hne
    obtain ⟨q, code, rfl, hins⟩ := hcode e he
    exact hins.mode_php hchain
  · by_cases hopen : ∃ q c, p = q + 1 ∧ (s.kind? q).bind Kind.closer? = some c
    · -- behind a bracket there is no comment
      right
      obtain ⟨o, c, rfl, hopen⟩ := hopen
      intro q t hq ht
      obtain rfl : o = q := Nat.succ.inj hq
      rw [kind?_get? ((getElem?_tokens s o).symm.trans ht), bind_some] at hopen
      unfold Token.isLineComment
      cases hk : t.kind <;> first | rfl | (rw [hk] at hopen; cases hopen)
    · left
      intro x hx
      obtain ⟨t, ht, hchar⟩ := mem_flatMap.mp hx
      obtain ⟨e, he, hstart, hmem⟩ := mem_generatedAt ht
      obtain ⟨q, code, rfl, hins⟩ := hcode e he
      obtain rfl : q = p := hstart
      refine hins.soft.resolve_right hopen x ?_
      rw [← chars_fragment]
      exact mem_flatMap.mpr ⟨t, hmem, hchar⟩

/-! ## §6. The tokens of a migrated file. -/

/-- The tokens that the two batches put together, before the text is read anew. -/
def editedTokens (table : AliasTable) (s : TokenStream) (inserts : List (Edit Token)) : List Token :=
  weave (convertedStream table s).tokens.toList inserts

theorem scan_plain (htab : table.WellFormed) : ∀ inv ∈ scan table s, ∀ v, inv.collaborator = some v → v.Plain := by
  intro inv hinv v hv
  obtain ⟨ks, ls, hcode⟩ := matchAt?_code htab (isCall_mem hinv)
  exact hcode.collaborator v hv

theorem convertedStream_chained (htab : table.WellFormed)
    (hlex : Lexical mode s.tokens.toList) : Chained mode (convertedStream table s).tokens.toList := by
  have hspliced : Spliced s.tokens.toList (weave (weave s.tokens.toList (callEdits table s)) []) :=
    spliced_of_batches (callEdits_replace htab hlex) (fun p hne => absurd rfl hne) (fun e he => by cases he)
  rw [weave, weaveFrom_nil] at hspliced
  exact hspliced.chained hlex.chained

theorem migrated_spliced (htab : m.table.WellFormed) (hind : IsIndentText m.indent.toList)
    (hlex : Lexical mode s.tokens.toList) (hcoll : m.collect (scan m.table s) = .ok r)
    (hinj : inject (convertedStream m.table s) m.indent r = .ok inserts) :
    Spliced s.tokens.toList (editedTokens m.table s inserts) := by
  have hr := collect_plain (scan_plain htab) hcoll
  have hchain := convertedStream_chained htab hlex
  exact spliced_of_batches (callEdits_replace htab hlex) (inject_newBefore hchain hind hr hinj)
    (inject_insertions hinj)

end MageUplift
