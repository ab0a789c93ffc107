import MageUplift.Proofs.CompactStreams

/-!
# The significant tokens of a stretch

Lists and bodies are read token by token, and what is read depends on their significant tokens alone. `codeIn` is
the list of these. An edited stream has the significant tokens of the stream before, with those of the new code at
the places of the edits (`codeIn_woven`, `codeIn_woven_insert`).
-/

namespace MageUplift.Php.TokenStream

open Edit List

def codeIn (s : TokenStream) (a b : Nat) : List Token := significant ((s.tokens.toList.drop a).take (b - a))

theorem codeIn_eq (s : TokenStream) (a b : Nat) : s.codeIn a b = significant (s.tokensIn a b) := rfl

variable {s : TokenStream} {a b c i j : Nat} {t : Token}

/-! ## §1. One token after the other. -/

theorem codeIn_self (s : TokenStream) (a : Nat) : s.codeIn a a = [] := by
  rw [codeIn_eq, tokensIn_self]
  rfl

theorem codeIn_append (s : TokenStream) (hab : a ≤ b) (hbc : b ≤ c) : s.codeIn a c = s.codeIn a b ++ s.codeIn b c := by
  rw [codeIn_eq, codeIn_eq, codeIn_eq, tokensIn_append s hab hbc, significant_append]

theorem codeIn_succ (ht : s.get? a = some t) (hab : a < b) :
    s.codeIn a b = if t.isTrivia then s.codeIn (a + 1) b else t :: s.codeIn (a + 1) b := by
  rw [codeIn_eq, tokensIn_cons ht hab, significant_cons]
  rfl

theorem codeIn_trivia (ht : s.get? a = some t) (htriv : t.isTrivia) (hab : a < b) :
    s.codeIn a b = s.codeIn (a + 1) b := by
  rw [codeIn_succ ht hab, htriv, if_pos rfl]

theorem codeIn_code (ht : s.get? a = some t) (hsig : t.isTrivia = false) (hab : a < b) :
    s.codeIn a b = t :: s.codeIn (a + 1) b := by
  rw [codeIn_succ ht hab, hsig, if_neg Bool.false_ne_true]

theorem codeIn_triviaIn (htrivia : s.TriviaIn a b) (hab : a ≤ b) : s.codeIn a b = [] := by
  induction hn : b - a generalizing a with
  | zero =>
    obtain rfl : a = b := by omega
    exact codeIn_self s a
  | succ n ih =>
    obtain ⟨t, ht, htriv⟩ := htrivia a le_rfl (by omega)
    rw [codeIn_trivia ht htriv (by omega)]
    exact ih (fun m h₁ h₂ => htrivia m (by omega) h₂) (by omega) (by omega)

theorem codeIn_next (h : s.nextSignificant? a = some j) (ht : s.get? j = some t) (hjb : j < b) :
    s.codeIn a b = t :: s.codeIn (j + 1) b := by
  obtain ⟨haj, ⟨u, hu, hsig⟩, htriv⟩ := next_spec h
  rw [ht, Option.some.injEq] at hu
  subst hu
  rw [codeIn_append s haj hjb.le, codeIn_triviaIn htriv haj, codeIn_code ht hsig hjb, nil_append]

theorem codeIn_eq_nil (h : ∀ j, s.nextSignificant? a = some j → b ≤ j) : s.codeIn a b = [] := by
  induction hn : b - a generalizing a with
  | zero => rw [codeIn, hn, take_zero]; rfl
  | succ n ih =>
    rcases Nat.lt_or_ge a s.size with hlt | hge
    · obtain ⟨t, ht⟩ := get?_of_lt hlt
      cases htriv : t.isTrivia with
      | true =>
        rw [codeIn_trivia ht htriv (by omega)]
        refine ih (fun j hj => h j ?_) (by omega)
        rwa [nextSignificant?, findFrom?_of_get? ht, htriv, if_neg (by decide)]
      | false =>
        have := h a (next_eq_some le_rfl ht htriv fun m h₁ h₂ => by omega)
        omega
    · rw [codeIn, drop_eq_nil_of_le (by simpa [size] using hge), take_nil]
      rfl

theorem next_of_codeIn {ts : List Token} (h : s.codeIn a b = t :: ts) :
    ∃ j, s.nextSignificant? a = some j ∧ s.get? j = some t ∧ j < b ∧ s.codeIn (j + 1) b = ts := by
  cases hnext : s.nextSignificant? a with
  | none =>
    rw [codeIn_eq_nil (fun j hj => by rw [hnext] at hj; cases hj)] at h
    cases h
  | some j =>
    by_cases hjb : j < b
    · obtain ⟨u, hu, -⟩ := isCode_of_next hnext
      rw [codeIn_next hnext hu hjb, cons.injEq] at h
      exact ⟨j, rfl, h.1 ▸ hu, hjb, h.2⟩
    · rw [codeIn_eq_nil (fun j' hj' => by rw [hnext, Option.some.injEq] at hj'; omega)] at h
      cases h

theorem exists_place_of_codeIn {front rest : List Token} (h : s.codeIn a b = front ++ t :: rest) :
    ∃ j, a ≤ j ∧ j < b ∧ s.get? j = some t ∧ s.codeIn (j + 1) b = rest := by
  induction front generalizing a with
  | nil =>
    obtain ⟨j, hnext, ht, hjb, hrest⟩ := next_of_codeIn h
    exact ⟨j, (next_spec hnext).1, hjb, ht, hrest⟩
  | cons u front ih =>
    obtain ⟨j, hnext, -, -, hrest⟩ := next_of_codeIn h
    obtain ⟨k, hjk, hkb, ht, hk⟩ := ih hrest
    have := (next_spec hnext).1
    exact ⟨k, by omega, hkb, ht, hk⟩

theorem codeIn_compact (s : TokenStream) (hab : a ≤ b) : s.compact.codeIn (s.rank a) (s.rank b) = s.codeIn a b := by
  have hparts : significant s.tokens.toList
      = significant (s.tokens.toList.take a) ++ (s.codeIn a b ++ significant (s.tokens.toList.drop b)) := by
    rw [codeIn, ← significant_append, ← significant_append, ← Nat.add_sub_cancel' hab, Nat.add_sub_cancel_left,
      ← drop_drop, take_append_drop, take_append_drop]
  have hrank : s.rank b - s.rank a = (s.codeIn a b).length := by
    rw [rank, rank, codeIn, ← Nat.add_sub_cancel' hab, take_add, significant_append, length_append,
      Nat.add_sub_cancel_left, Nat.add_sub_cancel_left]
  have hagain : significant (s.codeIn a b) = s.codeIn a b := filter_eq_self.mpr fun t ht => (mem_filter.mp ht).2
  rw [codeIn, hrank, show s.compact.tokens.toList = significant s.tokens.toList from rfl, hparts, rank, drop_left,
    take_left, hagain]

/-! ## §2. Stretches of edited streams. -/

variable {v : TokenStream} {edits : List (Edit Token)}

theorem offsetIn_mono (v : TokenStream) (edits : List (Edit Token)) (h : i ≤ j) :
    v.offsetIn edits i ≤ v.offsetIn edits j :=
  offsetOf_mono h

theorem codeIn_piece (hi : i ≤ v.size) :
    (v.woven edits).codeIn (v.offsetIn edits i) (v.offsetIn edits (i + 1))
      = significant (pieceAt edits (v.get? i) i) := by
  rw [codeIn_eq, tokensIn_piece hi]

theorem codeIn_woven (hab : a ≤ b) (hb : b ≤ v.size)
    (hkept : ∀ i, a ≤ i → i < b → generatedAt edits i = [] ∧ covers edits i = false) :
    (v.woven edits).codeIn (v.offsetIn edits a) (v.offsetIn edits b) = v.codeIn a b := by
  induction hn : b - a generalizing a with
  | zero =>
    obtain rfl : a = b := by omega
    rw [codeIn_self, codeIn_self]
  | succ n ih =>
    obtain ⟨t, ht⟩ := get?_of_lt (show a < v.size by omega)
    obtain ⟨hnone, hcov⟩ := hkept a le_rfl (by omega)
    rw [codeIn_append _ (offsetIn_mono v edits a.le_succ) (offsetIn_mono v edits (show a + 1 ≤ b by omega)),
      codeIn_piece (by omega),
      ih (by omega) (fun i h₁ h₂ => hkept i (by omega) h₂) (by omega), codeIn_succ ht (by omega), pieceAt, hnone, hcov,
        ht]
    cases h : t.isTrivia <;> simp [significant, h]

theorem codeIn_new (hi : i ≤ v.size) :
    (v.woven edits).codeIn (v.offsetIn edits i) (placeOf v.tokens.toList edits i)
      = significant (generatedAt edits i) := by
  rw [codeIn_eq, tokensIn_new hi]

theorem codeIn_woven_insert {u : Nat} (hau : a ≤ u) (hub : u < b) (hb : b ≤ v.size)
    (hkept : ∀ i, a ≤ i → i < b → covers edits i = false)
    (hnone : ∀ i, a ≤ i → i < b → i ≠ u → generatedAt edits i = []) :
    (v.woven edits).codeIn (v.offsetIn edits a) (v.offsetIn edits b)
      = v.codeIn a u ++ significant (generatedAt edits u) ++ v.codeIn u b := by
  obtain ⟨t, ht⟩ := get?_of_lt (show u < v.size by omega)
  have hpiece : significant (pieceAt edits (v.get? u) u)
      = significant (generatedAt edits u) ++ v.codeIn u (u + 1) := by
    rw [pieceAt, hkept u hau hub, ht, significant_append, codeIn_succ ht u.lt_succ_self, codeIn_self]
    cases h : t.isTrivia <;> simp [significant, h]
  rw [codeIn_append _ (offsetIn_mono v edits hau) (offsetIn_mono v edits hub.le),
    codeIn_append (v.woven edits) (offsetIn_mono v edits u.le_succ) (offsetIn_mono v edits hub),
    codeIn_woven hau (by omega) fun i h₁ h₂ => ⟨hnone i h₁ (by omega) (by omega), hkept i h₁ (by omega)⟩,
    codeIn_piece (by omega), hpiece,
    codeIn_woven hub hb fun i h₁ h₂ => ⟨hnone i (by omega) h₂ (by omega), hkept i (by omega) h₂⟩,
    codeIn_append v u.le_succ hub]
  simp only [append_assoc]

theorem codeIn_woven_to {u : Nat} (hau : a ≤ u) (hub : u ≤ b) (hb : b ≤ v.size)
    (hkept : ∀ i, covers edits i = false) (hnone : ∀ i, a ≤ i → i ≤ b → i ≠ u → generatedAt edits i = []) :
    (v.woven edits).codeIn (v.offsetIn edits a) (placeOf v.tokens.toList edits b)
      = v.codeIn a u ++ significant (generatedAt edits u) ++ v.codeIn u b := by
  obtain rfl | hlt := Nat.eq_or_lt_of_le hub
  · rw [codeIn_append _ (offsetIn_mono v edits hau) (offset_le_place u), codeIn_new hb, codeIn_self, append_nil,
      codeIn_woven hau hb fun i h₁ h₂ => ⟨hnone i h₁ h₂.le h₂.ne, hkept i⟩]
  · have hplace : placeOf v.tokens.toList edits b = v.offsetIn edits b := by
      rw [placeOf, hnone b (hau.trans hub) le_rfl hlt.ne']
      rfl
    rw [hplace, codeIn_woven_insert hau hlt hb (fun i _ _ => hkept i) fun i h₁ h₂ => hnone i h₁ h₂.le]

end MageUplift.Php.TokenStream
