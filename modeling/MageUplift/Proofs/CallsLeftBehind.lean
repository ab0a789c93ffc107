import MageUplift.Proofs.ConvertedCalls
import MageUplift.Proofs.InjectedTokens
import MageUplift.Proofs.RenderValidity

/-!
# Calls that are left behind

What the injector inserts keeps the surroundings of calls as well, so the two batches together leave only those legacy
calls that the migration does not convert: calls that need a collaborator inside a static function.
-/

namespace MageUplift

open Php TokenStream Call Wiring Magento List Option Edit Bool

variable {t : Token} {i p j q : Nat} {m : Migrator} {r : Requirements} {s : TokenStream} {table : AliasTable}

/-! ## §1. Insertions one by one. -/

theorem not_parent_of_isMage (h : isMage t) : ¬ t.isWord "parent" := by
  intro hpar
  rw [Token.isWord, and_eq_true, sameWord, beq_iff_eq] at hpar
  have hwords : "Mage".toLower ≠ "parent".toLower ∧ "\\Mage".toLower ≠ "parent".toLower := by decide +kernel
  unfold isMage at h
  split at h
  · rw [sameWord, beq_iff_eq, hpar.2] at h
    exact hwords.1 h.symm
  · rw [sameWord, beq_iff_eq, hpar.2] at h
    exact hwords.2 h.symm
  · cases h

section

variable {s : TokenStream} {indent : String} {r : Requirements} {inserts : List (Edit Token)}

/-- What the injector answers for plain requirements and an indentation of spaces and tabs. -/
structure IsInjection (s : TokenStream) (indent : String) (r : Requirements) (inserts : List (Edit Token)) : Prop where
  indented : IsIndentText indent.toList
  plain : ∀ v ∈ r.entries, v.Plain
  answer : inject s indent r = .ok inserts

namespace IsInjection

variable (h : IsInjection s indent r inserts)

include h

theorem covers_eq_false (i : Nat) : covers inserts i = false :=
  covers_of_insertions (inject_insertions h.answer) i

theorem kept (hi : i < s.size) : s.Kept inserts i (placeOf s.tokens.toList inserts i) :=
  ⟨by rwa [Array.length_toList], h.covers_eq_false i, rfl⟩

theorem code_at (hne : generatedAt inserts p ≠ []) :
    ∃ code, generatedAt inserts p = lexFragment code ∧ InjectedTokens s p code := by
  obtain ⟨e, he, rfl⟩ := exists_generatedAt hne
  have hgen := generatedAt_mem (inject_distinct h.answer) he
  obtain ⟨p, code, rfl, htoks⟩ := inject_tokens h.indented h.plain h.answer e he
  exact ⟨code, hgen, htoks⟩

theorem balanced_at (p : Nat) : Balanced ((generatedAt inserts p).map Token.kind) := by
  by_cases hne : generatedAt inserts p = []
  · rw [hne]
    exact balanced_nil
  · obtain ⟨e, he, rfl⟩ := exists_generatedAt hne
    rw [generatedAt_mem (inject_distinct h.answer) he]
    obtain ⟨p, code, rfl, hins⟩ := inject_code h.indented h.plain h.answer e he
    obtain ⟨ks, hinert, hbal⟩ := hins.inert
    show Balanced ((lexFragment code).map Token.kind)
    rwa [← balanced_marks_iff, ← marksOf_eq, (lexFragment_inert hinert).2]

theorem nothing_at_end : generatedAt inserts s.size = [] := by
  refine generatedAt_ne fun e he hstart => ?_
  obtain ⟨p, code, rfl, hins⟩ := inject_code h.indented h.plain h.answer e he
  have hlt := hins.lt
  change p = s.size at hstart
  omega

theorem leavesCode : LeavesCode inserts := by
  intro e he hlt
  obtain ⟨p, items, rfl, -⟩ := inject_points h.answer e he
  exact absurd hlt (Nat.lt_irrefl p)

theorem first_kind (hfst : firstCode (generatedAt inserts p) = some t) : t.kind ∈ injectedKinds := by
  have hne : generatedAt inserts p ≠ [] := fun hnil => by
    rw [hnil] at hfst
    cases hfst
  obtain ⟨code, hcode, htoks⟩ := h.code_at hne
  obtain ⟨u, rest, hu, hkind⟩ := htoks.begins
  rw [hcode, firstCode_eq, lexFragment_code, hu] at hfst
  cases hfst
  exact hkind

/-! ## §2. Places of insertions, seen from the tokens around them. -/

theorem nothing_selected {k : Kind} (hprev : s.prevSignificant? i = some p) (hk : s.kind? p = some k)
    (hsel : k ∈ selectors) (ht : s.get? i = some t) (hmage : isMage t)
    (hpq : p < q) (hqi : q ≤ i) : generatedAt inserts q = [] := by
  by_contra hne
  obtain ⟨code, -, htoks⟩ := h.code_at hne
  have hsize := lt_get? ht
  have htriv := triviaIn_of_prev hsize.le hprev
  -- the selector is what stands in front of the place, and the name what stands behind it
  obtain ⟨u, hu, hsig⟩ := prev_token hprev
  have hbef : s.prevSignificant? q = some p :=
    prev_of_triviaIn hpq (by omega) (fun m h₁ h₂ => htriv m h₁ (by omega)) hu hsig
  have hbehind : s.nextSignificant? q = some i :=
    next_of_triviaIn hqi (fun m h₁ h₂ => htriv m (by omega) h₂) ht (isTrivia_of_isMage hmage)
  have hkinds : ∀ k ∈ selectors, k ≠ .comma ∧ k ≠ .leftBrace ∧ k ≠ .leftParen := by
    decide
  obtain ⟨hcomma, hbrace, hparen⟩ := hkinds k hsel
  rcases htoks.place.around (by omega) hbef hbehind with hmark | ⟨right, hlist⟩ | ⟨left, hlist⟩ | ⟨u, hu, hmark⟩
  · rw [hk, some.injEq, some.injEq] at hmark
    exact hmark.elim hcomma hbrace
  · have hleft := hlist.kind_left
    rw [hk, some.injEq] at hleft
    exact hparen hleft
  · have hright := hlist.kind_right
    rw [kind?_get? ht, some.injEq] at hright
    rcases isMage_kind hmage with hkind | hkind <;> rw [hkind] at hright <;> cases hright
  · rw [ht, some.injEq] at hu
    subst hu
    rcases hmark with hclose | ⟨hpar, -⟩
    · rcases isMage_kind hmage with hkind | hkind <;> rw [hkind] at hclose <;> cases hclose
    · exact not_parent_of_isMage hmage hpar

theorem nothing_in_list {name l c : Nat}
    (ht : s.get? name = some t) (hsig : t.isTrivia = false) (hname : t.isWord "__construct" = false)
    (hleft : s.followedBy? name .leftParen = some l) (hclose : s.matchingClose? l = some c)
    (hnext : s.nextSignificant? (l + 1) = some c) (hlq : l < q) (hqc : q ≤ c) : generatedAt inserts q = [] := by
  by_contra hne
  obtain ⟨code, -, htoks⟩ := h.code_at hne
  obtain ⟨-, ⟨x, hx, hxsig⟩, htriv⟩ := next_spec hnext
  have hsize := lt_get? hx
  have hkind := (followedBy?_spec hleft).2.1
  obtain ⟨u, hu, hkindU⟩ := map_eq_some_iff.mp hkind
  -- the parentheses are what stands around the place
  have hbef : s.prevSignificant? q = some l :=
    prev_of_triviaIn hlq (by omega) (fun m h₁ h₂ => htriv m h₁ (by omega)) hu
      (by rw [Token.isTrivia, hkindU]; rfl)
  have hbehind : s.nextSignificant? q = some c :=
    next_of_triviaIn hqc (fun m h₁ h₂ => htriv m (by omega) h₂) hx hxsig
  have hclosing : s.kind? c = some .rightParen := by
    obtain ⟨k, hopen, hc⟩ := opener_close hclose
    rw [hkind] at hopen
    cases hopen
    exact hc
  have hlsize := lt_kind? hkind
  have hctor : ∀ {right}, ¬ IsConstructorList s l right := by
    intro right hlist
    obtain ⟨name', t', hleft', ht', hword⟩ := hlist.name
    -- the name in front of a parenthesis is the significant token before it
    have hback : ∀ {n : Nat} {u : Token}, s.get? n = some u → u.isTrivia = false →
        s.followedBy? n .leftParen = some l → s.prevSignificant? l = some n := by
      intro n u hu husig hn
      obtain ⟨hlt, -, hbtw⟩ := next_spec (followedBy?_iff.mp hn).1
      exact prev_of_triviaIn hlt hlsize.le hbtw hu husig
    have hsame := hback ht' (isTrivia_of_isWord hword).1 hleft'
    rw [hback ht hsig hleft, some.injEq] at hsame
    subst hsame
    rw [ht, some.injEq] at ht'
    subst ht'
    rw [hname] at hword
    cases hword
  rcases htoks.place.around (by omega) hbef hbehind with hmark | ⟨right, hlist⟩ | ⟨left, hlist⟩ | ⟨w, hw, hmark⟩
  · rw [hkind] at hmark
    rcases hmark with hmark | hmark <;> cases hmark
  · exact hctor hlist
  · obtain rfl := close_injective hclose hlist.closes
    exact hctor hlist
  · rw [kind?_get? hw, some.injEq] at hclosing
    rcases hmark with hbrace | ⟨hpar, -⟩
    · rw [hclosing] at hbrace
      cases hbrace
    · rw [Token.isWord, hclosing] at hpar
      cases hpar

/-! ## §3. Insertions keep the surroundings of calls. -/

theorem entry {n : Nat} (hi : s.Kept inserts i j)
    (hnext : (s.woven inserts).nextSignificant? (j + 1) = some n) (hnew : ∀ m, ¬ s.Kept inserts m n)
    (ht : (s.woven inserts).get? n = some t) : t.kind ∉ linkKinds
      ∧ (t.kind = .identifier → (s.woven inserts).kind? j ≠ some .doubleColon
        ∧ (s.woven inserts).kind? j ≠ some .arrow) := by
  cases Kept.next h.leavesCode hi hnext with
  | kept here => exact absurd here (hnew _)
  | @new p u here _ le size first passed =>
    rw [ht] at here
    cases here
    have hfst : firstCode (generatedAt inserts p) = some t := by
      have := first
      split at this <;> exact this
    have hkinds : ∀ k ∈ injectedKinds, k ∉ linkKinds ∧ k ≠ .identifier := by decide
    have hkind := hkinds _ (h.first_kind hfst)
    exact ⟨hkind.1, fun hname => absurd hname hkind.2⟩

theorem member (hi : s.Kept inserts i j) (ht : s.get? i = some t) (hmage : isMage t) (hmem : isMember s i) :
    isMember (s.woven inserts) j := by
  obtain ⟨p, k, hprev, hk, hsel⟩ := selector_of_isMember hmem
  have hp := h.kept (lt_kind? hk)
  have hprev' := hp.prev hi hprev fun q hpq hqi => h.nothing_selected hprev hk hsel ht hmage hpq hqi
  refine isMember_of_selector hprev' ?_ hsel
  rw [← (weave_carries h.leavesCode).kind_eq hp, hk]

theorem passable : Passable s inserts fun _ => True := by
  intro i _ hi
  exact .inl ⟨_, h.kept hi, h.balanced_at i, trivial⟩

theorem balanced_pieces {a b : Nat} (hab : a ≤ b) (hb : b ≤ s.size) (hbal : Balanced (s.kindsIn a b)) :
    Balanced ((List.range' a (b - a)).flatMap fun m => (pieceAt inserts (s.get? m) m).map Token.kind) := by
  -- the pieces are read token by token, with whatever is expected at the time
  have key : ∀ n a, a + n ≤ s.size → ∀ expected, expectedAfter expected
      ((List.range' a n).flatMap fun m => (pieceAt inserts (s.get? m) m).map Token.kind)
        = expectedAfter expected (s.kindsIn a (a + n)) := by
    intro n
    induction n with
    | zero =>
      intro a _ expected
      simp
    | succ n ih =>
      intro a hsize expected
      obtain ⟨t, ht⟩ := get?_of_lt (s := s) (i := a) (by omega)
      rw [range'_succ, flatMap_cons, pieceAt, h.covers_eq_false, if_neg Bool.false_ne_true, ht, map_append,
        append_assoc, expected_append, (h.balanced_at a).expectedAfter, bind_some,
        kindsIn_cons (kind?_get? ht) (by omega)]
      show expectedAfter expected ([t.kind] ++ _) = expectedAfter expected ([t.kind] ++ s.kindsIn (a + 1) (a + (n + 1)))
      rw [expected_append, expected_append]
      congr 1
      funext after
      rw [ih (a + 1) (by omega) after, show a + 1 + n = a + (n + 1) by omega]
  unfold Php.Balanced at hbal ⊢
  rw [key (b - a) a (by omega) [], show a + (b - a) = b by omega, hbal]

theorem keepsCalls : KeepsCalls s (s.woven inserts) (s.Kept inserts) where
  toCarries := weave_carries h.leavesCode
  entry := h.entry
  member := h.member
  closes := fun {i j d} hi hd => by
    rw [Kept.matchingClose? h.passable h.nothing_at_end hi trivial] at hd
    obtain ⟨c, hc, rfl⟩ := map_eq_some_iff.mp hd
    exact ⟨c, hc, h.kept (lt_close hc).2⟩
  commas := fun {i j c p} hi _ hip _ hk hbal => by
    have hp := h.kept (lt_kind? hk)
    refine ⟨_, hp, ?_⟩
    rw [hi.kindsIn_between hp hip]
    exact (h.balanced_pieces hip hp.lt_size.le hbal).append (h.balanced_at p)
  empty := fun {name t l l' c c'} ht hsig hname hleft hclose hnext hl hc =>
    hl.next_eq hc hnext fun q hlq hqc => h.nothing_in_list ht hsig hname hleft hclose hnext hlq hqc

/-! ## §4. Inserted code holds no call. -/

theorem matchAt?_inserted (hp : p ≤ s.size)
    (hq : (generatedAt inserts p)[q]? = some t) : matchAt? table (s.woven inserts) (s.offsetIn inserts p + q) = none := by
  have hlt := lt_getElem? hq
  have hne : generatedAt inserts p ≠ [] := fun hnil => by
    rw [hnil] at hlt
    exact Nat.not_lt_zero _ hlt
  obtain ⟨code, hcode, htoks⟩ := h.code_at hne
  cases hmatch : matchAt? table (s.woven inserts) (s.offsetIn inserts p + q) with
  | none => rfl
  | some call =>
    obtain ⟨-, ⟨u, hu, hmage⟩, -, -⟩ := matchAt?_anatomy hmatch
    rw [get?_woven_new hp hlt, hq] at hu
    cases hu
    obtain ⟨left, hpath⟩ := matchAt?_parenthesis hmatch
    cases hpath with
    | @cons _ n _ _ _ hcolons _ =>
      obtain ⟨hnext, hkind⟩ := followedBy?_iff.mp hcolons
      -- the double colon is inserted too, or it is the next token of the file
      cases next_weave (p := p) (q := q + 1) (fun m _ hm => by
          rw [h.covers_eq_false] at hm
          cases hm) hlt hnext with
      | @new p' w here _ _ _ first _ =>
        have hmem : w ∈ generatedAt inserts p' := mem_of_mem_drop (mem_of_find?_eq_some first)
        obtain ⟨code', hcode', htokens'⟩ := h.code_at (ne_nil_of_mem hmem)
        rw [hcode'] at hmem
        rw [kind?_get? here, some.injEq] at hkind
        exact absurd hkind (doubleColon_not_mem htokens'.colonFree w hmem)
      | @kept m here le passed =>
        have hkindM : s.kind? m = some .doubleColon := by
          rw [(weave_carries h.leavesCode).kind_eq here, hkind]
        obtain ⟨w, hw, hkindW⟩ := map_eq_some_iff.mp hkindM
        rcases htoks.ends with ⟨n', k, hnext', hk, hnot⟩ | ⟨ts, last, hts, hquiet⟩
        · have hsame := next_of_triviaIn le passed hw (by rw [Token.isTrivia, hkindW]; rfl)
          rw [hnext', some.injEq] at hsame
          rw [hsame, hkindM, some.injEq] at hk
          exact absurd hk.symm hnot
        · -- then the `Mage` is the last significant token of the code
          have hlast : ∀ m' u, q < m' → (generatedAt inserts p)[m']? = some u → u.isTrivia := by
            intro m' u hqm hu
            have hmlt := lt_getElem? hu
            obtain ⟨-, -, hbef⟩ := next_spec hnext
            have hn : n = placeOf s.tokens.toList inserts m := KeptAt.place here
            have hplace : s.offsetIn inserts p + (generatedAt inserts p).length ≤ n := by
              rw [hn]
              by_cases hpm : p = m
              · subst hpm
                exact le_rfl
              · exact (placeOf_le_offsetOf (by omega)).trans (offset_le_place m)
            have htoken : (s.woven inserts).get? (s.offsetIn inserts p + m') = some u :=
              (get?_woven_new hp hmlt).trans hu
            exact TriviaIn.isTrivia hbef (by omega) (by omega) htoken
          have hsig := getLast?_significant hq (isTrivia_of_isMage hmage) hlast
          rw [hcode, lexFragment_code, hts, getLast?_concat, some.injEq] at hsig
          rw [hsig, hmage] at hquiet
          cases hquiet

end IsInjection

end

/-! ## §5. The names that a file asks for. -/

theorem record_names {policy : Settings.CollisionPolicy} {v : Collaborator}
    {recorded : Recorded × Requirements} (h : r.record policy v = .ok recorded) :
    (∀ u ∈ r.entries, ∃ w ∈ recorded.2.entries, w.name = u.name) ∧ ∃ w ∈ recorded.2.entries, w.name = v.name := by
  unfold Requirements.record at h
  split at h
  · cases h
    exact ⟨fun u hu => ⟨u, mem_append_left _ hu, rfl⟩, v, mem_append_right _ (mem_singleton.mpr rfl), rfl⟩
  · rename_i existing hexisting
    have hmem := mem_of_find?_eq_some hexisting
    have hname : existing.name = v.name := by simpa using find?_some hexisting
    split at h
    · cases h
      exact ⟨fun u hu => ⟨u, hu, rfl⟩, existing, hmem, hname⟩
    · split at h
      · cases h
        have hmap : ∀ u ∈ r.entries, ∃ w ∈ (r.replace v).entries, w.name = u.name := by
          intro u hu
          refine ⟨_, List.mem_map.mpr ⟨u, hu, rfl⟩, ?_⟩
          split
          · exact Eq.symm ‹_›
          · rfl
        obtain ⟨w, hw, hwname⟩ := hmap existing hmem
        exact ⟨hmap, w, hw, hwname.trans hname⟩
      · cases h

theorem collect_names {calls : List Invocation} (h : m.collect calls = .ok r) :
    ∀ inv ∈ calls, ∀ v, inv.collaborator = some v → ∃ w ∈ r.entries, w.name = v.name := by
  intro inv hinv v hv
  obtain ⟨front, back, rfl⟩ := append_of_mem hinv
  rw [collect_eq_foldlM, foldlM_append] at h
  obtain ⟨r₁, -, h⟩ := exists_of_bind_ok h
  rw [foldlM_cons] at h
  obtain ⟨r₂, hask, h⟩ := exists_of_bind_ok h
  obtain ⟨hnone, -⟩ | ⟨u, recorded, hu, hrec, rfl⟩ := Migrator.ask_eq_ok hask
  · cases hnone.symm.trans hv
  · cases hu.symm.trans hv
    -- a name that was recorded stays
    refine foldlM_ask_induction (P := fun r => ∃ w ∈ r.entries, w.name = v.name) ?_ (record_names hrec).2 h
    rintro _ _ _ _ seen next ⟨w, hw, hname⟩ hnext
    obtain ⟨x, hx, hxname⟩ := (record_names hnext).1 w hw
    exact ⟨x, hx, hxname.trans hname⟩

theorem quietCalls_of_names (h : m.collect (scan m.table s) = .ok r)
    (hnames : ∀ v ∈ r.entries, isIdentifier v.name.toList) : QuietCalls m.table s := by
  intro inv hinv
  refine matchAt?_tokens ((scan_callsInOrder m.table s).isCall inv hinv) fun v hv => ?_
  obtain ⟨w, hw, hname⟩ := collect_names h inv hinv v hv
  exact hname ▸ hnames w hw

/-! ## §6. The whole migration. -/

/-- The insertions of the second batch; none if the migration fails before it. -/
def Migrator.insertions (m : Migrator) (s : TokenStream) : List (Edit Token) :=
  match m.collect (scan m.table s) with
  | .error _ => []
  | .ok r =>
    match inject (convertedStream m.table s) m.indent r with
    | .error _ => []
    | .ok inserts => inserts

theorem Migrator.insertions_eq {inserts : List (Edit Token)} (hcoll : m.collect (scan m.table s) = .ok r)
    (hinj : inject (convertedStream m.table s) m.indent r = .ok inserts) : m.insertions s = inserts := by
  unfold Migrator.insertions
  rw [hcoll]
  dsimp only
  rw [hinj]

/-- Where a token of the file that is not dropped stands among the tokens that the two batches put together. -/
def Migrator.placeOf (m : Migrator) (s : TokenStream) (i : Nat) : Nat :=
  Edit.placeOf (convertedStream m.table s).tokens.toList (m.insertions s)
    (Edit.placeOf s.tokens.toList (callEdits m.table s) i)

theorem Migrator.run_cases {file : String} {out : TokenStream} {report : FileReport}
    (htab : m.table.Reachable) (hind : IsIndentText m.indent.toList)
    (h : m.migrate file s = .ok (.converted out report)) : ∃ r, m.collect (scan m.table s) = .ok r
      ∧ report.requirements = r.entries ∧ IsInjection (convertedStream m.table s) m.indent r (m.insertions s)
      ∧ TokenStream.ofTokens (m.edited s) = (convertedStream m.table s).woven (m.insertions s) := by
  obtain ⟨r, inserts, hcoll, hinj, -, hreport⟩ := migrate_cases h
  have hins := m.insertions_eq hcoll hinj
  have hplain := collect_plain (scan_plain htab.wellFormed) hcoll
  refine ⟨r, hcoll, by rw [hreport]; rfl, ?_, ?_⟩
  · rw [hins]
    exact ⟨hind, hplain, hinj⟩
  · rw [hins, m.edited_eq hcoll hinj]
    rfl

theorem matchAt?_edited (htab : m.table.WellFormed)
    (hquiet : QuietCalls m.table s) (hinj : IsInjection (convertedStream m.table s) m.indent r (m.insertions s))
    {call : Invocation} (h : matchAt? m.table ((convertedStream m.table s).woven (m.insertions s)) j = some call) :
    ∃ i k, s.Kept (callEdits m.table s) i k ∧ (convertedStream m.table s).Kept (m.insertions s) k j
      ∧ (matchAt? m.table s i).isSome := by
  obtain ⟨-, ⟨t, ht, -⟩, -⟩ := matchAt?_anatomy h
  rcases exists_place_woven ht with ⟨k, hk⟩ | ⟨p, q, hp, hq, rfl⟩
  · have hconv := hinj.keepsCalls.matchAt?_isSome hk (isSome_of_eq_some h)
    obtain ⟨call', hcall'⟩ := isSome_iff_exists.mp hconv
    obtain ⟨-, ⟨u, hu, -⟩, -⟩ := matchAt?_anatomy hcall'
    rcases @exists_place_woven s (callEdits m.table s) _ _ hu with ⟨i, hi⟩ | ⟨p, q, hp, hq, rfl⟩
    · exact ⟨i, k, hi, hk, (keepsCalls_convert htab hquiet).matchAt?_isSome hi hconv⟩
    · rw [matchAt?_new hquiet hp hq] at hcall'
      cases hcall'
  · rw [hinj.matchAt?_inserted hp hq] at h
    cases h

/-- A call on a kept token is not convertible: the scan would have found it, and its head would be dropped. -/
theorem not_convertible_of_kept {k : Nat} {inv : Invocation}
    (hi : s.Kept (callEdits table s) i k) (hinv : matchAt? table s i = some inv) :
    inv.isConvertible (staticBodies s) = false := by
  rw [← not_eq_true]
  intro hconv
  have hmem := mem_scan hinv hconv
  have hstart := (matchAt?_anatomy hinv).1
  have houtside := outside_of_kept hi inv hmem
  have hhead := head_lt hmem
  omega

/-- **No convertible call is left behind.** Take the stream that is read anew, once the calls are converted and what they
need is injected. A call that is recognised in it stands on a token of the file that no call drops. It was recognised
there too, needs a collaborator, and lies in the body of a static function. -/
theorem migrate_calls_left {m : Migrator} {file : String} {s out : TokenStream} {report : FileReport}
    (htab : m.table.Reachable) (hind : IsIndentText m.indent.toList)
    (hrun : m.migrate file s = .ok (.converted out report))
    (hnames : ∀ v ∈ report.requirements, isIdentifier v.name.toList = true) :
    ∃ r converted wired, m.collect (scan m.table s) = .ok r
      ∧ Migrator.convertCalls s (scan m.table s) = .ok converted ∧ m.wire converted r = .ok wired ∧ out = wired.refresh
      ∧ ∀ j, (matchAt? m.table wired j).isSome = true →
        ∃ i inv, m.placeOf s i = j ∧ isDropped m.table s i = false ∧ wired.get? j = s.get? i
          ∧ matchAt? m.table s i = some inv ∧ inv.collaborator.isSome = true
          ∧ ∃ body ∈ staticBodies s, body.start < i ∧ inv.span.stop ≤ body.stop := by
  obtain ⟨r, hcoll, hreport, hinj, hedited⟩ := m.run_cases htab hind hrun
  rw [hreport] at hnames
  have hquiet := quietCalls_of_names hcoll hnames
  obtain ⟨r', hcollect', hwire, hout⟩ := migrate_wired hrun
  refine ⟨r', _, _, hcollect', convertCalls_scan m.table s, hwire, hout, fun j hcall => ?_⟩
  rw [hedited] at hcall ⊢
  obtain ⟨call, hcall⟩ := Option.isSome_iff_exists.mp hcall
  obtain ⟨i, k, hi, hk, hmatch⟩ := matchAt?_edited htab.wellFormed hquiet hinj hcall
  obtain ⟨inv, hinv⟩ := Option.isSome_iff_exists.mp hmatch
  have hstart := (matchAt?_anatomy hinv).1
  have hdropped : isDropped m.table s i = false := by
    rw [← covers_callEdits]
    exact Edit.KeptAt.kept hi
  have hnot := not_convertible_of_kept hi hinv
  rw [Invocation.isConvertible, not_eq_false', and_eq_true, Invocation.isInside, List.any_eq_true] at hnot
  obtain ⟨⟨body, hbody, hin⟩, hsome⟩ := hnot
  rw [and_eq_true, decide_eq_true_eq, decide_eq_true_eq, hstart] at hin
  refine ⟨i, inv, ?_, hdropped, ?_, hinv, hsome, body, hbody, hin⟩
  · rw [Migrator.placeOf, ← Edit.KeptAt.place hi, ← Edit.KeptAt.place hk]
  · have htoken : (convertedStream m.table s).get? k = s.get? i := hi.get?
    rw [← htoken, ← hk.get?]

/-- A class that logs in a static function and in another one. -/
def logsTwice : TokenStream :=
  .ofSource "<?php class A\x7bstatic function f()\x7bMage::log(1);\x7dfunction g()\x7bMage::log(2);\x7d\x7d"

theorem migrate_calls_left_logsTwice :
    ∃ out report wired, defaultMigrator.migrate "A.php" logsTwice = .ok (.converted out report)
      ∧ report.calls.map (·.pattern) = [.log] ∧ out = wired.refresh ∧ (matchAt? .builtin wired 49).isSome = true
      ∧ ∃ i inv, defaultMigrator.placeOf logsTwice i = 49 ∧ isDropped .builtin logsTwice i = false
        ∧ wired.get? 49 = logsTwice.get? i
        ∧ matchAt? .builtin logsTwice i = some inv ∧ inv.collaborator.isSome = true
        ∧ ∃ body ∈ staticBodies logsTwice, body.start < i ∧ inv.span.stop ≤ body.stop := by
  have hrun : convertsTo (fun _ report => report.calls.map (·.pattern) == [.log]
      && report.requirements.all fun v => isIdentifier v.name.toList) (defaultMigrator.migrate "A.php" logsTwice)
        = true := by
    rw [migrate_eq, show logsTwice = .ofTokens _ from ofSource_ofList _]
    decide +kernel
  have hcall : (matchAt? defaultMigrator.table (.ofTokens (defaultMigrator.edited logsTwice)) 49).isSome := by
    rw [Migrator.edited_weave, show logsTwice = .ofTokens _ from ofSource_ofList _]
    decide +kernel
  obtain ⟨out, report, hout, hrun⟩ := of_convertsTo hrun
  rw [and_eq_true, beq_iff_eq, List.all_eq_true] at hrun
  obtain ⟨r, converted, wired, hcoll, hconvert, hwire, hrefresh, hleft⟩ :=
    migrate_calls_left .builtin (by decide) hout hrun.2
  -- the stream is the one that was evaluated
  obtain ⟨r', hcollect', hwire', -⟩ := migrate_wired hout
  cases hcoll.symm.trans hcollect'
  cases hconvert.symm.trans (convertCalls_scan _ _)
  cases hwire.symm.trans hwire'
  exact ⟨out, report, _, hout, hrun.1, hrefresh, hcall, hleft 49 hcall⟩

end MageUplift
