import Mathlib
import MageUplift.Proofs.SplicedBatches
import MageUplift.Proofs.TokenRereading

/-!
# Reading bytes

A text is stored as bytes, and a scanner that walks over them does not see where a character begins: it compares single
bytes, behind a backslash it skips one, and it may stand in the middle of a character then. `byteSlices` is that
scanner: the rules for characters, applied to bytes.

It cuts between characters all the same, and where the rules cut the text itself (`steps_encode`). No rule tells the
characters beyond ASCII from each other (`IsBlind`), and all their bytes are beyond ASCII too; so a scanner that passes
such a character passes each of its bytes, and one that stops at a byte stops at a whole character.
-/

namespace MageUplift.Php

open List Option

variable {c b x : Char} {cs w r bs label : List Char} {p : Char → Bool} {v : Bool} {n m : Nat} {last last' : Option Kind}

/-! ## §1. The bytes of a text. -/

/-- The bytes of a character, each as the character of its number. -/
def utf8 (c : Char) : List Char := (String.utf8EncodeChar c).map Char.ofUInt8

def encode (cs : List Char) : List Char := (cs.flatMap String.utf8EncodeChar).map Char.ofUInt8

/-- The slices into which the rules cut bytes, when each byte is read as a character. -/
def byteSlices (mode : Mode) (bytes : List UInt8) : List (List UInt8) :=
  (steps mode none 0 (bytes.map Char.ofUInt8)).map fun st => st.token.text.toList.map Char.toUInt8

/-- How many bytes the first `n` characters take. -/
def bytesIn (n : Nat) (cs : List Char) : Nat := (encode (cs.take n)).length

/-- The character lies beyond ASCII. -/
def isWide (c : Char) : Bool := 128 ≤ c.toNat

theorem toNat_ofUInt8 (b : UInt8) : (Char.ofUInt8 b).toNat = b.toNat := by
  simp [Char.ofUInt8, Char.toNat]

theorem utf8_plain (h : isWide c = false) : utf8 c = [c] := by
  have hle : ¬ 128 ≤ c.val.toNat := of_decide_eq_false h
  rw [utf8, String.utf8EncodeChar, if_pos (by omega), map_singleton, cons.injEq]
  refine ⟨Char.toNat_inj.mp ?_, rfl⟩
  rw [toNat_ofUInt8, UInt8.toNat_ofNat']
  exact Nat.mod_eq_of_lt (by omega)

theorem utf8_wide (h : isWide c) : ∀ b ∈ utf8 c, isWide b := by
  have hle : 128 ≤ c.val.toNat := of_decide_eq_true h
  have hbyte : ∀ {n}, 128 ≤ n → n < 256 → isWide (Char.ofUInt8 (UInt8.ofNat n)) := by
    intro n hle hlt
    rwa [isWide, decide_eq_true_eq, toNat_ofUInt8, UInt8.toNat_ofNat', Nat.mod_eq_of_lt hlt]
  rw [utf8, String.utf8EncodeChar, if_neg (by omega)]
  split_ifs <;>
    simp (disch := omega) only [map_cons, map_nil, forall_mem_cons, hbyte, and_self, implies_true, not_mem_nil,
      false_imp_iff]

theorem exists_utf8 (c : Char) : ∃ b bs, utf8 c = b :: bs := by
  refine exists_cons_of_ne_nil fun h => ?_
  have := String.length_utf8EncodeChar c
  rw [map_eq_nil_iff.mp h] at this
  exact absurd this.symm (Char.utf8Size_pos c).ne'

theorem encode_cons (c : Char) (cs : List Char) : encode (c :: cs) = utf8 c ++ encode cs := by
  rw [encode, flatMap_cons, map_append]
  rfl

theorem encode_plain (h : isWide c = false) (cs : List Char) : encode (c :: cs) = c :: encode cs := by
  rw [encode_cons, utf8_plain h]
  rfl

theorem encode_append (a b : List Char) : encode (a ++ b) = encode a ++ encode b := by
  rw [encode, flatMap_append, map_append]
  rfl

theorem encode_eq_self (h : ∀ x ∈ w, isWide x = false) : encode w = w := by
  induction w with
  | nil => rfl
  | cons c w ih => rw [encode_plain (h c mem_cons_self), ih (forall_mem_cons.mp h).2]

theorem encode_injective {a b : List Char} (h : encode a = encode b) : a = b := by
  have hbytes : a.flatMap String.utf8EncodeChar = b.flatMap String.utf8EncodeChar :=
    map_injective_iff.mpr (fun x y hxy => UInt8.toNat_inj.mp (by rw [← toNat_ofUInt8, hxy, toNat_ofUInt8])) h
  apply String.ofList_injective
  rw [← String.toByteArray_inj, String.toByteArray_ofList, String.toByteArray_ofList, utf8Encode, utf8Encode, hbytes]

theorem take_encode (n : Nat) (cs : List Char) : (encode cs).take (bytesIn n cs) = encode (cs.take n) := by
  conv => lhs; rw [← take_append_drop n cs, encode_append]
  exact take_left' (by rw [take_append_drop]; rfl)

theorem drop_encode (n : Nat) (cs : List Char) : (encode cs).drop (bytesIn n cs) = encode (cs.drop n) := by
  conv => lhs; rw [← take_append_drop n cs, encode_append]
  exact drop_left' (by rw [take_append_drop]; rfl)

theorem bytesIn_cons (n : Nat) (c : Char) (cs : List Char) :
    bytesIn (n + 1) (c :: cs) = (utf8 c).length + bytesIn n cs := by
  rw [bytesIn, take_succ_cons, encode_cons, length_append]
  rfl

theorem bytesIn_plain (h : isWide c = false) (n : Nat) (cs : List Char) :
    bytesIn (1 + n) (c :: cs) = 1 + bytesIn n cs := by
  rw [Nat.add_comm, bytesIn_cons, utf8_plain h, length_singleton]

theorem bytesIn_add (m n : Nat) (cs : List Char) : bytesIn (m + n) cs = bytesIn m cs + bytesIn n (cs.drop m) := by
  rw [bytesIn, take_add, encode_append, length_append]
  rfl

theorem bytesIn_length (cs : List Char) : bytesIn cs.length cs = (encode cs).length := by
  rw [bytesIn, take_length]

theorem bytesIn_append (w cs : List Char) : bytesIn w.length (w ++ cs) = (encode w).length := by
  rw [bytesIn, take_left]

theorem bytesIn_eq_self (h : ∀ x ∈ w, isWide x = false) (hn : n ≤ w.length) : bytesIn n (w ++ cs) = n := by
  rw [bytesIn, take_append_of_le_length hn, encode_eq_self fun x hx => h x (mem_of_mem_take hx), length_take,
    Nat.min_eq_left hn]

/-! ## §2. Tests on characters. -/

/-- The test does not tell characters beyond ASCII from each other. -/
def IsBlind (p : Char → Bool) (v : Bool) : Prop := ∀ c, isWide c = true → p c = v

theorem IsBlind.eq (h : IsBlind p v) (hb : b ∈ utf8 c) : p b = p c := by
  cases hc : isWide c with
  | false =>
    rw [utf8_plain hc, mem_singleton] at hb
    rw [hb]
  | true => rw [h c hc, h b (utf8_wide hc b hb)]

theorem beq_wide (hc : isWide c) (hx : isWide x = false) : (c == x) = false :=
  beq_eq_false_iff_ne.mpr fun h => by rw [h, hx] at hc; cases hc

theorem isBlind_beq (hx : isWide x = false) : IsBlind (· == x) false := fun _ hc => beq_wide hc hx

theorem isBlind_isDigit : IsBlind Char.isDigit false := fun c hc => Bool.eq_false_iff.mpr fun h => by
  have hall : ∀ x ∈ ['0', '1', '2', '3', '4', '5', '6', '7', '8', '9'], isWide x = false := by decide
  rw [hall c (mem_digits h)] at hc
  cases hc

theorem isBlind_isNameStart : IsBlind isNameStart true := fun c h => by simp [isNameStart, of_decide_eq_true h]

theorem isBlind_isNamePart : IsBlind isNamePart true := fun c h => by simp [isNamePart, of_decide_eq_true h]

theorem isBlind_isBlank : IsBlind isBlank false := fun c h => by
  simp (disch := decide) only [isBlank, beq_wide h, Bool.or_self]

theorem isBlind_isIndent : IsBlind isIndent false := fun c h => by
  simp (disch := decide) only [isIndent, beq_wide h, Bool.or_self]

theorem isBlind_binds : IsBlind binds false := fun c h => by
  simp (disch := decide) only [binds, isBlind_isDigit c h, contains_cons, contains_nil, beq_wide h, Bool.or_self]

theorem isBlind_isNumeral : IsBlind isNumeral false := fun c h => by
  have hle : ∀ {x : Char}, isWide x = false → decide (c ≤ x) = false := fun {x} hx => by
    have h₁ : 128 ≤ c.val.toNat := of_decide_eq_true h
    have h₂ : ¬ 128 ≤ x.val.toNat := of_decide_eq_false hx
    rw [decide_eq_false_iff_not, Char.le_def, UInt32.le_iff_toNat_le]
    omega
  simp (disch := decide) only [isNumeral, isBaseDigitPart, isBlind_isDigit c h, contains_cons, contains_nil,
    beq_wide h, hle, Bool.and_false, Bool.or_self]

theorem takeWhile_encode (h : IsBlind p v) (cs : List Char) : (encode cs).takeWhile p = encode (cs.takeWhile p) := by
  induction cs with
  | nil => rfl
  | cons c cs ih =>
    rw [encode_cons, takeWhile_cons]
    split
    · rename_i hc
      rw [takeWhile_append_of_pos fun b hb => (h.eq hb).trans hc, ih, encode_cons]
    · rename_i hc
      obtain ⟨b, bs, hb⟩ := exists_utf8 c
      have hfirst : p b = p c := h.eq (hb ▸ mem_cons_self)
      rw [hb, cons_append, takeWhile_cons_of_neg (hfirst ▸ hc)]
      rfl

theorem run_encode (h : IsBlind p v) (cs : List Char) : run p (encode cs) = bytesIn (run p cs) cs := by
  rw [run, takeWhile_encode h, bytesIn, run, ← prefix_iff_eq_take.mp (List.takeWhile_prefix p)]

theorem nextIs_encode (h : IsBlind p v) (cs : List Char) : nextIs p (encode cs) = nextIs p cs := by
  cases cs with
  | nil => rfl
  | cons c cs =>
    obtain ⟨b, bs, hb⟩ := exists_utf8 c
    rw [encode_cons, hb]
    exact h.eq (hb ▸ mem_cons_self)

theorem head?_encode (hx : isWide x = false) (cs : List Char) : (encode cs).head? = some x ↔ cs.head? = some x := by
  have hnext : ∀ cs : List Char, cs.head? = some x ↔ nextIs (· == x) cs := fun cs => by cases cs <;> simp [nextIs]
  rw [hnext, hnext, nextIs_encode (isBlind_beq hx)]

theorem exists_of_nextIs (hp : IsBlind p false) (h : nextIs p cs) :
    ∃ c r, cs = c :: r ∧ p c ∧ isWide c = false ∧ encode cs = c :: encode r := by
  obtain ⟨c, r, rfl, hc⟩ := cons_of_nextIs h
  have hplain : isWide c = false := Bool.eq_false_iff.mpr fun hwide => by rw [hp c hwide] at hc; cases hc
  exact ⟨c, r, rfl, hc, hplain, encode_plain hplain r⟩

/-! ## §3. Scanners. -/

theorem skip_wide {β : Type} {F : Nat → List Char → β} (h : ∀ n b bs, isWide b → F n (b :: bs) = F (n + 1) bs)
    (hw : ∀ b ∈ w, isWide b) (n : Nat) (cs : List Char) : F n (w ++ cs) = F (n + w.length) cs := by
  induction w generalizing n with
  | nil => rfl
  | cons b w ih =>
    rw [cons_append, h n b _ (hw b mem_cons_self), ih (forall_mem_cons.mp hw).2, length_cons]
    congr 1
    omega

/-- A scanner that counts up to the first place where `stop` holds, and answers `found` there. -/
structure Scans {β : Type} (F : Nat → List Char → β) (stop : Char → List Char → Bool) (atEnd found : Nat → β) : Prop where
  nil : ∀ n, F n [] = atEnd n
  cons : ∀ n c cs, F n (c :: cs) = if stop c cs then found n else F (n + 1) cs
  wide : ∀ b bs, isWide b = true → stop b bs = false
  plain : ∀ c cs, isWide c = false → stop c (encode cs) = stop c cs

theorem Scans.encode {β : Type} {F : Nat → List Char → β} {stop : Char → List Char → Bool} {atEnd found : Nat → β}
    (h : Scans F stop atEnd found) (n m : Nat) (cs : List Char) : ∃ k,
      F n cs = atEnd (n + k) ∧ F m (encode cs) = atEnd (m + bytesIn k cs)
        ∨ (∃ c r, cs.drop k = c :: r ∧ stop c r) ∧ F n cs = found (n + k)
          ∧ F m (encode cs) = found (m + bytesIn k cs) := by
  induction cs generalizing n m with
  | nil => exact ⟨0, .inl ⟨h.nil n, h.nil m⟩⟩
  | cons c cs ih =>
    by_cases hs : stop c cs
    · have hc : isWide c = false := Bool.eq_false_iff.mpr fun hc => by rw [h.wide c cs hc] at hs; cases hs
      refine ⟨0, .inr ⟨⟨c, cs, rfl, hs⟩, by rw [h.cons, if_pos hs]; rfl, ?_⟩⟩
      rw [encode_plain hc, h.cons, h.plain c cs hc, if_pos hs]
      rfl
    · have hgo : F m (Php.encode (c :: cs)) = F (m + (utf8 c).length) (Php.encode cs) := by
        cases hc : isWide c with
        | true =>
          rw [encode_cons]
          exact skip_wide (fun n b bs hb => by rw [h.cons, h.wide b bs hb]; rfl) (utf8_wide hc) m _
        | false =>
          rw [encode_plain hc, h.cons, h.plain c cs hc, if_neg hs, utf8_plain hc]
          rfl
      obtain ⟨k, hk⟩ := ih (n + 1) (m + (utf8 c).length)
      refine ⟨k + 1, ?_⟩
      rw [hgo, h.cons, if_neg hs, bytesIn_cons, ← Nat.add_assoc, Nat.add_right_comm, ← Nat.add_assoc m]
      exact hk

theorem Scans.encode_length {F : Nat → List Char → Nat} {stop : Char → List Char → Bool} (h : Scans F stop id id)
    (cs : List Char) : F 0 (Php.encode cs) = bytesIn (F 0 cs) cs := by
  obtain ⟨k, ⟨hk, hk'⟩ | ⟨-, hk, hk'⟩⟩ := h.encode 0 0 cs <;> simp [hk, hk']

theorem lineCommentRun_encode (cs : List Char) : lineCommentRun 0 (encode cs) = bytesIn (lineCommentRun 0 cs) cs := by
  have hscan : Scans lineCommentRun (fun c cs => c == '\n' || c == '\r' || (c == '?' && nextIs (· == '>') cs)) id id :=
    ⟨fun _ => rfl, fun _ _ _ => rfl,
      fun b bs hb => by simp (disch := decide) only [beq_wide hb, Bool.or_self, Bool.false_and],
      fun c cs _ => by rw [nextIs_encode (isBlind_beq rfl)]⟩
  exact hscan.encode_length cs

theorem nameRun_encode (cs : List Char) : nameRun (encode cs) = bytesIn (nameRun cs) cs := by
  have hscan : Scans (fun n cs => n + nameRun cs)
      (fun c cs => !(isNamePart c || (c == '\\' && nextIs isNameStart cs))) id id := by
    refine ⟨fun _ => rfl, fun n c cs => ?_, fun b bs hb => by rw [isBlind_isNamePart b hb]; rfl,
      fun c cs _ => by rw [nextIs_encode isBlind_isNameStart]⟩
    rw [nameRun]
    cases isNamePart c || (c == '\\' && nextIs isNameStart cs)
    · rfl
    · show n + (nameRun cs + 1) = n + 1 + nameRun cs
      omega
  simpa using hscan.encode_length cs

theorem commentEnd?_encode (n : Nat) (cs : List Char) : ∃ k,
    commentEnd? n cs = none ∧ commentEnd? n (encode cs) = none
      ∨ commentEnd? n cs = some (n + k) ∧ commentEnd? n (encode cs) = some (n + bytesIn k cs) := by
  have hscan : Scans commentEnd? (fun c cs => c == '*' && nextIs (· == '/') cs) (fun _ => none)
      (fun n => some (n + 2)) :=
    ⟨fun _ => rfl, fun _ _ _ => rfl,
      fun b bs hb => by simp (disch := decide) only [beq_wide hb, Bool.false_and],
      fun c cs _ => by rw [nextIs_encode (isBlind_beq rfl)]⟩
  obtain ⟨k, hk | ⟨⟨c, r, hdrop, hstop⟩, hk, hk'⟩⟩ := hscan.encode n n cs
  · exact ⟨k, .inl hk⟩
  · rw [Bool.and_eq_true, beq_iff_eq] at hstop
    obtain ⟨d, r, rfl, -, hd, -⟩ := exists_of_nextIs (isBlind_beq rfl) hstop.2
    refine ⟨k + 2, .inr ⟨hk, ?_⟩⟩
    rw [bytesIn_add, hdrop, hk', bytesIn_cons, bytesIn_cons, hstop.1, utf8_plain hd]
    rfl

/-! ## §4. Strings. -/

/-- The frames differ only in where they begin. -/
inductive Frame.Alike : Frame → Frame → Prop where
  | single (i j : Nat) : Alike (.single i) (.single j)
  | quoted {quote : Char} (plain : isWide quote = false) (i j : Nat) : Alike (.quoted quote i) (.quoted quote j)
  | brace : Alike .brace .brace

theorem Frame.Alike.step {f g : Frame} {fs gs : List Frame} (h : f.Alike g) (hs : Forall₂ Alike fs gs) (n m : Nat)
    (c : Char) {x y : Option Char} (hxy : (x == some '$') = (y == some '$')) :
    (f.step fs n c x).1 = (g.step gs m c y).1 ∧ Forall₂ Alike (f.step fs n c x).2 (g.step gs m c y).2 := by
  have hall := Forall₂.cons h hs
  have hpush : ∀ {a b : Frame}, a.Alike b → Forall₂ Alike (a :: f :: fs) (b :: g :: gs) := fun h => .cons h hall
  cases h with
  | single i j =>
    simp only [Frame.step]
    split_ifs <;> exact ⟨rfl, ‹_›⟩
  | quoted plain i j =>
    simp only [Frame.step, hxy]
    split_ifs <;> first | exact ⟨rfl, ‹_›⟩ | exact ⟨rfl, hpush .brace⟩
  | brace =>
    simp only [Frame.step]
    split_ifs
    · exact ⟨rfl, hpush .brace⟩
    · exact ⟨rfl, hs⟩
    · exact ⟨rfl, hpush (.single n m)⟩
    · exact ⟨rfl, hpush (.quoted rfl n m)⟩
    · exact ⟨rfl, hall⟩

theorem Frame.Alike.stringEnd_wide {f g : Frame} (h : f.Alike g) {fs : List Frame} (hb : isWide b) (escaped : Bool)
    (n : Nat) (cs : List Char) : stringEnd escaped (g :: fs) n (b :: cs) = stringEnd false (g :: fs) (n + 1) cs := by
  have hstep : g.step fs n b cs.head? = (false, g :: fs) := by
    cases h with
    | quoted plain i j =>
      simp (disch := first | decide | exact plain) only [Frame.step, beq_wide hb, Bool.false_and, Bool.false_eq_true,
        if_false]
    | _ => simp (disch := decide) only [Frame.step, beq_wide hb, Bool.false_eq_true, if_false]
  cases escaped with
  | false => rw [stringEnd, if_neg Bool.false_ne_true, hstep]
  | true => rfl

theorem Frame.Alike.refl_left {f g : Frame} (h : f.Alike g) : f.Alike f := by
  cases h with
  | single i j => exact .single i i
  | quoted plain i j => exact .quoted plain i i
  | brace => exact .brace

/-- A backslash skips one character, and the first byte of it among the bytes; the others do not matter. -/
theorem stringEnd_encode {fs gs : List Frame} (h : Forall₂ Frame.Alike fs gs) (escaped : Bool) (n m : Nat)
    (cs : List Char) : ∃ k, (stringEnd escaped fs n cs).1 = n + k
      ∧ (stringEnd escaped gs m (encode cs)).1 = m + bytesIn k cs := by
  induction cs generalizing fs gs escaped n m with
  | nil => exact ⟨0, rfl, rfl⟩
  | cons c cs ih =>
    cases h with
    | nil => exact ⟨0, rfl, by rw [stringEnd_closed]; rfl⟩
    | @cons f g fs gs hfg hrest =>
      suffices hgo : ∃ escaped' fs' gs', Forall₂ Frame.Alike fs' gs'
          ∧ stringEnd escaped (f :: fs) n (c :: cs) = stringEnd escaped' fs' (n + 1) cs
          ∧ stringEnd escaped (g :: gs) m (encode (c :: cs))
            = stringEnd escaped' gs' (m + (utf8 c).length) (encode cs) by
        obtain ⟨escaped', fs', gs', hframes, hf, hg⟩ := hgo
        obtain ⟨k, hk, hk'⟩ := ih hframes escaped' (n + 1) (m + (utf8 c).length)
        exact ⟨k + 1, by rw [hf, hk]; omega, by rw [hg, hk', bytesIn_cons]; omega⟩
      cases hc : isWide c with
      | true =>
        refine ⟨false, _, _, .cons hfg hrest, hfg.refl_left.stringEnd_wide hc escaped n cs, ?_⟩
        obtain ⟨b, bs, hb⟩ := exists_utf8 c
        have hwide := hb ▸ utf8_wide hc
        rw [encode_cons, hb, cons_append, hfg.stringEnd_wide (hwide b mem_cons_self),
          skip_wide (fun n b bs hb => hfg.stringEnd_wide hb false n bs) (forall_mem_cons.mp hwide).2, length_cons]
        congr 1
        omega
      | false =>
        rw [encode_plain hc, utf8_plain hc]
        cases escaped with
        | true => exact ⟨false, _, _, .cons hfg hrest, rfl, rfl⟩
        | false =>
          obtain ⟨hesc, hframes⟩ := hfg.step hrest n m c (x := cs.head?) (y := (encode cs).head?)
            (by rw [Bool.eq_iff_iff, beq_iff_eq, beq_iff_eq, head?_encode rfl])
          exact ⟨_, _, _, hframes, rfl, by rw [hesc]; rfl⟩

/-! ## §5. Signs and tags. -/

/-- The text is at its end or goes on beyond ASCII. -/
def Ends (cs : List Char) : Prop := nextIs (!isWide ·) cs = false

theorem Ends.nextIs (h : Ends r) (hp : IsBlind p false) : nextIs p r = false := by
  refine nextIs_false_of (fun c hc => ?_) h
  cases hw : isWide c with
  | false => rfl
  | true =>
    rw [hp c hw] at hc
    cases hc

theorem exists_ends (cs : List Char) : ∃ a r, cs = a ++ r ∧ (∀ x ∈ a, isWide x = false) ∧ Ends r
    ∧ encode cs = a ++ encode r ∧ Ends (encode r) := by
  have ha : ∀ x ∈ cs.takeWhile (!isWide ·), isWide x = false := fun x hx => by
    simpa using List.all_eq_true.mp all_takeWhile x hx
  have hr : Ends (cs.dropWhile (!isWide ·)) := nextIs_dropWhile _ cs
  refine ⟨_, _, takeWhile_append_dropWhile.symm, ha, hr, ?_, ?_⟩
  · conv => lhs; rw [← takeWhile_append_dropWhile (p := (!isWide ·)) (l := cs), encode_append, encode_eq_self ha]
  · rw [Ends, nextIs_encode (v := false) fun c hc => by rw [hc]; rfl]
    exact hr

theorem operatorRule_ends (a r r' : List Char) (hr : Ends r) (hr' : Ends r') :
    operatorRule last' c (a ++ r') = operatorRule last c (a ++ r) := by
  rw [operatorRule, operatorRule]
  congr 1
  refine find?_congr fun o ho => ?_
  rw [Bool.eq_iff_iff, Bool.and_eq_true, Bool.and_eq_true, isPrefixOf_iff_prefix, isPrefixOf_iff_prefix]
  exact and_congr_right fun _ =>
    ⟨fun h => prefix_of_not_binds (operators_bind o ho) (hr'.nextIs isBlind_binds) h r,
      fun h => prefix_of_not_binds (operators_bind o ho) (hr.nextIs isBlind_binds) h r'⟩

theorem numberRule_ends (a r r' : List Char) (hr : Ends r) (hr' : Ends r') :
    numberRule last' c (a ++ r') = numberRule last c (a ++ r) := by
  have hkeep : ∀ {r r' l}, Ends r → Ends r' → numberRule last c (a ++ r) = some l →
      numberRule last c (a ++ r') = some l := fun hr hr' h =>
    NumberEnd.numberRule_eq ⟨hr.nextIs isBlind_binds, hr'.nextIs isBlind_binds,
      .inl ⟨hr.nextIs isBlind_isNumeral, hr'.nextIs isBlind_isNumeral⟩⟩ h (Nat.sub_add_cancel (Lexeme.length_pos _)).symm
  cases h : numberRule last c (a ++ r) with
  | some l => exact hkeep hr hr' h
  | none => exact eq_none_iff_forall_not_mem.mpr fun l hl => by rw [hkeep hr' hr hl] at h; cases h

theorem lineBreakLength_encode (cs : List Char) : lineBreakLength (encode cs) = lineBreakLength cs
    ∧ bytesIn (lineBreakLength cs) cs = lineBreakLength cs := by
  obtain ⟨a, r, rfl, ha, hr, hencode, hr'⟩ := exists_ends cs
  have hsame : ∀ r', Ends r' → lineBreakLength (a ++ r') = lineBreakLength a := by
    intro r' hr'
    cases a with
    | nil =>
      cases r' with
      | nil => rfl
      | cons x r' => rw [nil_append, lineBreakLength_cons, if_neg, if_neg] <;> first | rfl | (rintro rfl; cases hr')
    | cons x a =>
      have hnext : nextIs (· == '\n') (a ++ r') = nextIs (· == '\n') (a ++ []) :=
        nextIs_congr (.inr ⟨rfl, hr'.nextIs (isBlind_beq rfl)⟩)
      rw [cons_append, lineBreakLength_cons, lineBreakLength_cons, hnext, append_nil]
  rw [hencode, hsame r hr, hsame _ hr']
  exact ⟨rfl, bytesIn_eq_self ha (lineBreakLength_le a)⟩

theorem tagBlankLength_encode (cs : List Char) : tagBlankLength (encode cs) = tagBlankLength cs
    ∧ bytesIn (tagBlankLength cs) cs = tagBlankLength cs := by
  obtain ⟨hbreak, hbytes⟩ := lineBreakLength_encode cs
  rw [tagBlankLength, tagBlankLength, hbreak, nextIs_encode isBlind_isBlank]
  refine ⟨rfl, ?_⟩
  split_ifs with h₁ h₂
  · exact hbytes
  · obtain ⟨c, r, rfl, -, hc, -⟩ := exists_of_nextIs isBlind_isBlank h₂
    exact bytesIn_plain hc 0 r
  · rfl

theorem isBlind_toLower (hx : isWide x = false) : IsBlind (·.toLower == x) false := by
  intro c hc
  have hle : 128 ≤ c.val.toNat := of_decide_eq_true hc
  have hlower : c.toLower = c := by
    refine dif_neg fun h => ?_
    have : c.val.toNat ≤ 90 := UInt32.le_iff_toNat_le.mp h.2
    omega
  show (c.toLower == x) = false
  rw [hlower]
  exact isBlind_beq hx c hc

theorem encode_eq_append (hw : ∀ x ∈ w, isWide x = false) (h : encode cs = w ++ bs) :
    ∃ r, cs = w ++ r ∧ bs = encode r := by
  induction w generalizing cs with
  | nil => exact ⟨cs, rfl, h.symm⟩
  | cons b w ih =>
    obtain ⟨hb, hw⟩ := forall_mem_cons.mp hw
    have hnext : nextIs (· == b) cs := by
      rw [← nextIs_encode (isBlind_beq hb), h]
      exact beq_self_eq_true b
    obtain ⟨c, r, rfl, hc, -, hencode⟩ := exists_of_nextIs (isBlind_beq hb) hnext
    cases eq_of_beq hc
    obtain ⟨r, rfl, hr⟩ := ih hw (cons.inj (hencode.symm.trans h)).2
    exact ⟨r, rfl, hr⟩

theorem encode_eq_nil_iff : encode cs = [] ↔ cs = [] := by
  cases cs with
  | nil => exact Iff.rfl
  | cons c cs =>
    obtain ⟨b, bs, hb⟩ := exists_utf8 c
    simp [encode_cons, hb]

theorem openTag?_encode (cs : List Char) : openTag? (encode cs) = openTag? cs
    ∧ ∀ k n, openTag? cs = some (k, n) → bytesIn n (cs.drop 1) = n := by
  have hletters : ∀ {p h q : Char}, p.toLower = 'p' → h.toLower = 'h' → q.toLower = 'p' →
      ∀ x ∈ ['<', '?', p, h, q], isWide x = false := by
    have hletter : ∀ {c x : Char}, c.toLower = x → isWide x = false → isWide c = false := fun {c x} hc hx =>
      Bool.eq_false_iff.mpr fun hwide => by simpa [hc] using isBlind_toLower hx c hwide
    intro p h q hp hh hq
    simp only [forall_mem_cons, hletter hp rfl, hletter hh rfl, hletter hq rfl, not_mem_nil, false_imp_iff, implies_true,
      and_true]
    exact ⟨rfl, rfl⟩
  have hlong : ∀ {r : List Char}, encode r = [] ∨ nextIs isBlank (encode r) ↔ r = [] ∨ nextIs isBlank r := by
    intro r
    rw [encode_eq_nil_iff, nextIs_encode isBlind_isBlank]
  have hkept : ∀ k n, openTag? cs = some (k, n) → openTag? (encode cs) = some (k, n) ∧ bytesIn n (cs.drop 1) = n := by
    intro k n htag
    rcases openTag?_cases htag with ⟨rest, rfl, rfl, rfl⟩ | ⟨p, h, q, rest, rfl, hp, hh, hq, hrest, rfl, rfl⟩
    · exact ⟨rfl, rfl⟩
    · obtain ⟨hblank, hbytes⟩ := tagBlankLength_encode rest
      have hplain := hletters hp hh hq
      constructor
      · rw [show '<' :: '?' :: p :: h :: q :: rest = ['<', '?', p, h, q] ++ rest from rfl, encode_append,
          encode_eq_self hplain]
        exact (openTag?_php hp hh hq (hlong.mpr hrest)).trans (by rw [hblank])
      · rw [drop_one, tail_cons, bytesIn_add]
        refine congrArg₂ _ ?_ hbytes
        exact bytesIn_eq_self (w := ['?', p, h, q]) (forall_mem_cons.mp hplain).2 le_rfl
  refine ⟨?_, fun k n h => (hkept k n h).2⟩
  cases h : openTag? cs with
  | some tag => exact (hkept tag.1 tag.2 h).1
  | none =>
    refine eq_none_iff_forall_not_mem.mpr fun tag htag => ?_
    rcases openTag?_cases htag with ⟨rest, hcs, -, -⟩ | ⟨p, h', q, rest, hcs, hp, hh, hq, hrest, -, -⟩
    · obtain ⟨r, rfl, -⟩ := encode_eq_append (w := ['<', '?', '=']) (by decide) hcs
      cases h
    · obtain ⟨r, rfl, rfl⟩ := encode_eq_append (w := ['<', '?', p, h', q]) (hletters hp hh hq) hcs
      cases h.symm.trans (openTag?_php hp hh hq (hlong.mp hrest))

theorem htmlRun_encode (cs : List Char) : htmlRun 0 (encode cs) = bytesIn (htmlRun 0 cs) cs := by
  have hscan : Scans htmlRun (fun c cs => (openTag? (c :: cs)).isSome) id id := by
    refine ⟨fun _ => rfl, fun _ _ _ => rfl, fun b bs hb => ?_, fun c cs hc => ?_⟩
    · cases h : openTag? (b :: bs) with
      | none => rfl
      | some tag => rcases openTag?_cases h with ⟨rest, ⟨⟩, -⟩ | ⟨p, h', q, rest, ⟨⟩, -⟩ <;> cases hb
    · rw [← encode_plain hc, (openTag?_encode _).1]
  exact hscan.encode_length cs

/-! ## §6. Heredocs. -/

theorem isIdentifier_encode (label : List Char) : isIdentifier (encode label) ↔ isIdentifier label := by
  have htext : ∀ w : List Char, IsNameText w ↔ w.takeWhile isNamePart = w := fun w => List.takeWhile_eq_self_iff.symm
  rw [isIdentifier_iff, isIdentifier_iff, nextIs_encode isBlind_isNameStart, htext, htext,
    takeWhile_encode isBlind_isNamePart]
  exact and_congr_right fun _ => ⟨encode_injective, congrArg encode⟩

theorem encode_eq_word {rest : List Char} (hw : IsNameText w) (hrest : nextIs isNamePart rest = false)
    (h : encode cs = w ++ rest) : ∃ l r, cs = l ++ r ∧ w = encode l ∧ rest = encode r := by
  have hword : w = encode (cs.takeWhile isNamePart) := by
    rw [← takeWhile_encode isBlind_isNamePart, h, takeWhile_of_all hw hrest]
  refine ⟨_, _, takeWhile_append_dropWhile.symm, hword, ?_⟩
  rw [← takeWhile_append_dropWhile (p := isNamePart) (l := cs), encode_append, ← hword] at h
  exact (append_cancel_left h).symm

theorem isWide_of_indents (h : ∀ x ∈ w, isIndent x) : ∀ x ∈ w, isWide x = false := fun x hx =>
  Bool.eq_false_iff.mpr fun hwide => by simpa [isBlind_isIndent x hwide] using h x hx

theorem closingLabel?_encode (hlabel : isIdentifier label) (line : List Char) :
    closingLabel? (encode label) (encode line) = (closingLabel? label line).map (bytesIn · line) := by
  ext n
  rw [closingLabel?_iff ((isIdentifier_encode label).mpr hlabel), map_eq_some_iff]
  simp only [closingLabel?_iff hlabel]
  constructor
  · rintro ⟨blanks, rest, hline, hblanks, hnext, rfl⟩
    obtain ⟨line, rfl, hword⟩ := encode_eq_append (isWide_of_indents hblanks) hline
    obtain ⟨l, r, rfl, hl, rfl⟩ := encode_eq_word (nameText_identifier ((isIdentifier_encode label).mpr hlabel))
      hnext hword.symm
    cases encode_injective hl
    rw [nextIs_encode isBlind_isNamePart] at hnext
    refine ⟨_, ⟨blanks, r, rfl, hblanks, hnext, rfl⟩, ?_⟩
    rw [← append_assoc, ← length_append, bytesIn_append, encode_append, length_append,
      encode_eq_self (isWide_of_indents hblanks)]
  · rintro ⟨_, ⟨blanks, rest, rfl, hblanks, hnext, rfl⟩, rfl⟩
    refine ⟨blanks, encode rest, ?_, hblanks, by rwa [nextIs_encode isBlind_isNamePart], ?_⟩
    · rw [encode_append, encode_append, encode_eq_self (isWide_of_indents hblanks)]
    · rw [← append_assoc, ← length_append, bytesIn_append, encode_append, length_append,
        encode_eq_self (isWide_of_indents hblanks)]

theorem heredocEnd?_encode (hlabel : isIdentifier label) (lineStart : Bool) (n m : Nat) (cs : List Char) : ∃ k,
    heredocEnd? label lineStart n cs = none ∧ heredocEnd? (encode label) lineStart m (encode cs) = none
      ∨ heredocEnd? label lineStart n cs = some (n + k)
        ∧ heredocEnd? (encode label) lineStart m (encode cs) = some (m + bytesIn k cs) := by
  induction cs generalizing lineStart n m with
  | nil => exact ⟨0, .inl ⟨rfl, rfl⟩⟩
  | cons c cs ih =>
    have hline : (if lineStart then closingLabel? (encode label) (encode (c :: cs)) else none)
        = (if lineStart then closingLabel? label (c :: cs) else none).map (bytesIn · (c :: cs)) := by
      cases lineStart with
      | false => rfl
      | true => exact closingLabel?_encode hlabel (c :: cs)
    obtain ⟨b, bs, hb⟩ := exists_utf8 c
    rw [encode_cons, hb, cons_append] at hline ⊢
    rw [heredocEnd?, heredocEnd?, hline]
    cases hclose : (if lineStart then closingLabel? label (c :: cs) else none) with
    | some k => exact ⟨k, .inr ⟨rfl, rfl⟩⟩
    | none =>
      obtain ⟨k, hk⟩ := ih (c == '\n') (n + 1) (m + (utf8 c).length)
      have hskip : heredocEnd? (encode label) (b == '\n') (m + 1) (bs ++ encode cs)
          = heredocEnd? (encode label) (c == '\n') (m + (utf8 c).length) (encode cs) := by
        cases hc : isWide c with
        | false =>
          rw [utf8_plain hc] at hb ⊢
          cases hb
          rfl
        | true =>
          have hwide := hb ▸ utf8_wide hc
          obtain ⟨hb', hbs⟩ := forall_mem_cons.mp hwide
          rw [beq_wide hb' rfl, beq_wide hc rfl, hb, length_cons]
          refine (skip_wide (fun n b bs hb => ?_) hbs (m + 1) _).trans (by congr 1; omega)
          rw [heredocEnd?, beq_wide hb rfl]
          rfl
      refine ⟨k + 1, ?_⟩
      dsimp only [Option.map_none]
      rw [hskip, bytesIn_cons, ← Nat.add_assoc, Nat.add_right_comm, ← Nat.add_assoc m]
      exact hk

theorem heredocOpener?_encode (cs : List Char) :
    heredocOpener? (encode cs) = (heredocOpener? cs).map fun o => (encode o.1, bytesIn o.2 cs) := by
  have hquoted : ∀ {w : List Char}, LabelQuote w → ∀ x ∈ w, isWide x = false := by
    rintro _ (_ | _ | _) <;> decide
  have hbroken : ∀ {r w : List Char}, LineBreak r w → ∀ x ∈ w, isWide x = false := by
    rintro _ _ (_ | _ | _) <;> decide
  have hbreaks : ∀ {r w : List Char}, LineBreak (encode r) w ↔ LineBreak r w := by
    intro r w
    constructor
    · rintro (_ | _ | alone)
      exacts [.lineFeed, .both, .carriageReturn (mt (head?_encode rfl r).mpr alone)]
    · rintro (_ | _ | alone)
      exacts [.lineFeed, .both, .carriageReturn (mt (head?_encode rfl r).mp alone)]
  ext ⟨label', n⟩
  rw [heredocOpener?_iff, map_eq_some_iff]
  constructor
  · rintro ⟨tail, body, hcs, rfl, hopener⟩
    cases hopener with
    | @intro blanks quote lineBreak _ blank quoted named breaks =>
      have hnext : nextIs isNamePart ((quote ++ lineBreak) ++ body) = false := by
        cases quoted with
        | none => exact breaks.starts.2
        | single | double => rfl
      rw [show blanks ++ (quote ++ (label' ++ (quote ++ lineBreak))) ++ body
        = (blanks ++ quote) ++ (label' ++ ((quote ++ lineBreak) ++ body)) by simp] at hcs
      obtain ⟨word, rfl, hword⟩ :=
        encode_eq_append (forall_mem_append.mpr ⟨isWide_of_indents blank, hquoted quoted⟩) hcs
      obtain ⟨l, behind, rfl, rfl, hbehind⟩ := encode_eq_word (nameText_identifier named) hnext hword.symm
      obtain ⟨r, rfl, rfl⟩ := encode_eq_append (forall_mem_append.mpr ⟨hquoted quoted, hbroken breaks⟩) hbehind.symm
      rw [hbreaks] at breaks
      have hsplit : (blanks ++ quote) ++ (l ++ ((quote ++ lineBreak) ++ r))
          = (blanks ++ (quote ++ (l ++ (quote ++ lineBreak)))) ++ r := by simp
      refine ⟨(l, _), heredocOpener?_iff.mpr ⟨_, r, hsplit, rfl,
        .intro blank quoted ((isIdentifier_encode l).mp named) breaks⟩, ?_⟩
      rw [hsplit, bytesIn_append]
      simp only [encode_append, encode_eq_self (isWide_of_indents blank), encode_eq_self (hquoted quoted),
        encode_eq_self (hbroken breaks)]
  · rintro ⟨⟨label, n⟩, hread, heq⟩
    cases heq
    obtain ⟨tail, body, rfl, rfl, hopener⟩ := heredocOpener?_iff.mp hread
    refine ⟨encode tail, encode body, encode_append tail body, bytesIn_append tail body, ?_⟩
    cases hopener with
    | @intro blanks quote lineBreak _ blank quoted named breaks =>
      simp only [encode_append, encode_eq_self (isWide_of_indents blank), encode_eq_self (hquoted quoted),
        encode_eq_self (hbroken breaks)]
      exact .intro blank quoted ((isIdentifier_encode label).mpr named) (hbreaks.mpr breaks)

/-! ## §7. Lexemes. -/

/-- The lexeme `l'`, read from the bytes, covers the bytes of what `l` covers, and reading goes on alike. -/
structure Lexeme.Encodes (cs : List Char) (l l' : Lexeme) : Prop where
  length : l'.length = bytesIn l.length cs
  next : l'.next = l.next

theorem Lexeme.Encodes.code (hc : isWide c = false) (h : m = bytesIn n cs) {k k' : Kind} {f f' : List (Fault × Nat)} :
    (Lexeme.code k n f).Encodes (c :: cs) (.code k' m f') :=
  ⟨by rw [h]; exact (bytesIn_plain hc n cs).symm, rfl⟩

/-- The rule measures the bytes of what it measures among the characters. -/
def Rule.Encodes (rule : Rule) (last last' : Option Kind) (c : Char) (cs : List Char) : Prop :=
  Option.Rel (Lexeme.Encodes (c :: cs)) (rule last c cs) (rule last' c (encode cs))

/-- A rule that does not look past the plain characters of a text measures plain characters only. -/
theorem rule_encodes {rule : Rule} (hrule : rule ∈ phpRules) (hc : isWide c = false)
    (h : ∀ a r r', Ends r → Ends r' → rule last' c (a ++ r') = rule last c (a ++ r)) :
    Rule.Encodes rule last last' c cs := by
  unfold Rule.Encodes
  obtain ⟨a, r, rfl, ha, hr, hencode, hr'⟩ := exists_ends cs
  rw [hencode, h a r _ hr hr']
  cases hl : rule last c (a ++ r) with
  | none => exact .none
  | some l =>
    have hpos := l.length_pos
    have hle := (Rule.reads hrule ((h a r [] hr rfl).trans hl)).length_le
    rw [append_nil] at hle
    refine .some ⟨?_, rfl⟩
    rw [show l.length = 1 + (l.length - 1) by omega, bytesIn_plain hc, bytesIn_eq_self ha (by omega)]

theorem closeTagRule_encode (hc : isWide c = false) : Rule.Encodes closeTagRule last last' c cs := by
  unfold Rule.Encodes closeTagRule
  rw [nextIs_encode (isBlind_beq rfl)]
  split
  · rename_i htag
    obtain ⟨x, r, rfl, -, hx, hencode⟩ := exists_of_nextIs (isBlind_beq rfl) (Bool.and_eq_true_iff.mp htag).2
    obtain ⟨hbreak, hbytes⟩ := lineBreakLength_encode r
    refine .some ⟨?_, rfl⟩
    rw [hencode]
    show 2 + lineBreakLength (encode r) = bytesIn (2 + lineBreakLength r) (c :: x :: r)
    rw [hbreak, show 2 + lineBreakLength r = 1 + (1 + lineBreakLength r) by omega, bytesIn_plain hc, bytesIn_plain hx,
      hbytes]
  · exact .none

theorem blockCommentRule_encode (hc : isWide c = false) : Rule.Encodes blockCommentRule last last' c cs := by
  unfold Rule.Encodes blockCommentRule
  rw [nextIs_encode (isBlind_beq rfl)]
  split
  · rename_i hstar
    obtain ⟨x, r, rfl, -, hx, hencode⟩ := exists_of_nextIs (isBlind_beq rfl) (Bool.and_eq_true_iff.mp hstar).2
    rw [hencode]
    obtain ⟨k, ⟨h, h'⟩ | ⟨h, h'⟩⟩ := commentEnd?_encode 1 r
    · simp only [drop_one, tail_cons, h, h']
      exact .some (.code hc (by rw [bytesIn_length, hencode]))
    · simp only [drop_one, tail_cons, h, h']
      exact .some (.code hc (bytesIn_plain hx k r).symm)
  · exact .none

theorem stringRule_encode (hc : isWide c = false) : Rule.Encodes stringRule last last' c cs := by
  unfold Rule.Encodes
  rw [stringRule_eq, stringRule_eq]
  cases hframe : openingFrame? c with
  | none => exact .none
  | some f =>
    have halike : f.Alike f := by
      unfold openingFrame? at hframe
      split at hframe
      · cases hframe
        exact .single 0 0
      · obtain ⟨-, ⟨⟩⟩ := ite_none_right_eq_some.mp hframe
        exact .quoted hc 0 0
    obtain ⟨k, hk, hk'⟩ := stringEnd_encode (.cons halike .nil) false 1 1 cs
    refine .some ⟨?_, rfl⟩
    show (stringEnd false [f] 1 (encode cs)).1 = bytesIn (stringEnd false [f] 1 cs).1 (c :: cs)
    rw [hk, hk', bytesIn_plain hc]

theorem heredocRule_encode (hc : isWide c = false) : Rule.Encodes heredocRule last last' c cs := by
  unfold Rule.Encodes
  have hangles : ['<', '<'].isPrefixOf (encode cs) = ['<', '<'].isPrefixOf cs := by
    rw [Bool.eq_iff_iff, isPrefixOf_iff_prefix, isPrefixOf_iff_prefix]
    refine ⟨fun ⟨t, ht⟩ => ?_, fun ⟨t, ht⟩ => ⟨encode t, by rw [← ht, encode_append]; rfl⟩⟩
    obtain ⟨r, rfl, -⟩ := encode_eq_append (by decide) ht.symm
    exact prefix_append _ r
  unfold heredocRule
  rw [hangles]
  split
  · rename_i hguard
    obtain ⟨r, rfl⟩ := isPrefixOf_iff_prefix.mp (Bool.and_eq_true_iff.mp hguard).2
    have hbytes : ∀ n, bytesIn (2 + n) ('<' :: '<' :: r) = 2 + bytesIn n r := fun n => by
      rw [show 2 + n = 1 + (1 + n) by omega, bytesIn_plain rfl, bytesIn_plain rfl]
      omega
    show Option.Rel _ (Option.map _ (heredocOpener? r)) (Option.map _ (heredocOpener? (encode r)))
    rw [heredocOpener?_encode]
    cases hopener : heredocOpener? r with
    | none => exact .none
    | some o =>
      obtain ⟨label, opening⟩ := o
      have hlabel := (heredocOpener?_spec hopener).1
      have hdrop : ∀ (n : Nat) (r : List Char), ('<' :: '<' :: r).drop (2 + n) = r.drop n := fun n r => by
        rw [Nat.add_comm]
        rfl
      have hencode : encode ('<' :: '<' :: r) = '<' :: '<' :: encode r := rfl
      simp only [Option.map_some, cons_append, nil_append, hencode, hdrop, drop_encode]
      obtain ⟨k, ⟨h, h'⟩ | ⟨h, h'⟩⟩ := heredocEnd?_encode hlabel true 0 0 (r.drop opening)
      · rw [h, h']
        exact .some (.code hc (by rw [bytesIn_length, hencode]))
      · rw [h, h']
        refine .some (.code hc ?_)
        rw [Nat.add_assoc 2 opening, hbytes, bytesIn_add, Nat.zero_add, Nat.zero_add]
        omega
  · exact .none

theorem phpLexeme_encode (last last' : Option Kind) (hc : isWide c = false) (cs : List Char) :
    (phpLexeme last c cs).Encodes (c :: cs) (phpLexeme last' c (encode cs)) := by
  refine findSome?_rel (.code hc rfl) fun rule hrule => ?_
  have hmem := hrule
  simp only [phpRules, mem_cons, not_mem_nil, or_false] at hrule
  rcases hrule with rfl | rfl | rfl | rfl | rfl | rfl | rfl | rfl | rfl | rfl
  · unfold whitespaceRule
    split
    · exact .some (.code hc (run_encode isBlind_isBlank cs))
    · exact .none
  · exact closeTagRule_encode hc
  · unfold lineCommentRule
    rw [nextIs_encode (isBlind_beq rfl), nextIs_encode (isBlind_beq rfl)]
    split
    · exact .some (.code hc (lineCommentRun_encode cs))
    · exact .none
  · exact blockCommentRule_encode hc
  · unfold dollarRule
    rw [nextIs_encode isBlind_isNameStart]
    split
    · split
      · exact .some (.code hc (run_encode isBlind_isNamePart cs))
      · exact .some (.code hc rfl)
    · exact .none
  · unfold nameRule
    rw [nextIs_encode isBlind_isNameStart]
    split
    · exact .some (.code hc (nameRun_encode cs))
    · exact .none
  · exact rule_encodes hmem hc numberRule_ends
  · exact stringRule_encode hc
  · exact heredocRule_encode hc
  · exact rule_encodes hmem hc operatorRule_ends

theorem lexeme_encode (mode : Mode) (last last' : Option Kind) (h : encode (c :: cs) = b :: bs) :
    (lexeme mode last c cs).Encodes (c :: cs) (lexeme mode last' b bs) := by
  cases mode with
  | html =>
    obtain ⟨htag, hbytes⟩ := openTag?_encode (c :: cs)
    rw [h] at htag
    show (htmlLexeme c cs).Encodes _ (htmlLexeme b bs)
    rw [htmlLexeme, htmlLexeme, htag]
    cases hopen : openTag? (c :: cs) with
    | some tag =>
      have hc : isWide c = false := by
        rcases openTag?_cases hopen with ⟨rest, ⟨⟩, -⟩ | ⟨p, h', q, rest, ⟨⟩, -⟩ <;> rfl
      exact .code hc (hbytes _ _ hopen).symm
    | none =>
      have hrun := htmlRun_encode (c :: cs)
      rw [h, htmlRun, htmlRun, htag, hopen, htmlRun_add, htmlRun_add (0 + 1)] at hrun
      exact ⟨hrun, rfl⟩
  | php =>
    cases hc : isWide c with
    | false =>
      rw [encode_plain hc] at h
      obtain ⟨rfl, rfl⟩ := cons.inj h
      exact phpLexeme_encode last last' hc cs
    | true =>
      have hb : isWide b := by
        obtain ⟨x, xs, hx⟩ := exists_utf8 c
        rw [encode_cons, hx] at h
        exact (cons.inj h).1 ▸ utf8_wide hc x (hx ▸ mem_cons_self)
      have hrun := nameRun_encode (c :: cs)
      rw [h, nameRun, nameRun, isBlind_isNamePart b hb, isBlind_isNamePart c hc] at hrun
      show (phpLexeme last c cs).Encodes _ (phpLexeme last' b bs)
      rw [phpLexeme_nameStart (isBlind_isNameStart c hc), phpLexeme_nameStart (isBlind_isNameStart b hb)]
      exact ⟨(Nat.add_comm _ _).trans (hrun.trans (by rw [Nat.add_comm]; rfl)), rfl⟩

/-- **Bytes are read like characters.** -/
theorem steps_encode (mode : Mode) (last last' : Option Kind) (offset offset' : Nat) (cs : List Char) :
    (steps mode last' offset' (encode cs)).map (·.token.text.toList)
      = (steps mode last offset cs).map fun s => encode s.token.text.toList := by
  induction hn : cs.length using Nat.strong_induction_on generalizing mode last last' offset offset' cs with
  | _ n ih =>
    cases cs with
    | nil => rw [show encode [] = [] from rfl, steps_nil, steps_nil]; rfl
    | cons c cs =>
      obtain ⟨b, bs, hb⟩ := exists_utf8 c
      have h : encode (c :: cs) = b :: (bs ++ encode cs) := by rw [encode_cons, hb]; rfl
      obtain ⟨hlength, hnext⟩ := lexeme_encode mode last last' h
      have hpos := (lexeme mode last c cs).length_pos
      rw [h, steps, steps, map_cons, map_cons, String.toList_ofList, String.toList_ofList, ← h, hlength, hnext,
        take_encode, drop_encode]
      exact congrArg _ (ih _ (by rw [← hn, length_drop, length_cons]; omega) _ _ _ _ _ _ rfl)

theorem bytes_eq (s : String) : s.toByteArray.data.toList = s.toList.flatMap String.utf8EncodeChar := by
  rw [← String.ofList_toList (s := s), String.toByteArray_ofList, utf8Encode, data_toByteArray, String.toList_ofList]

theorem byteSlices_eq (mode : Mode) (source : String) : byteSlices mode source.toByteArray.data.toList
    = (steps mode none 0 source.toList).map fun st => st.token.text.toByteArray.data.toList := by
  have hback : Char.toUInt8 ∘ Char.ofUInt8 = id := funext fun b => by simp [Char.ofUInt8, Char.toUInt8]
  have h := congrArg (map (map Char.toUInt8)) (steps_encode mode none none 0 0 source.toList)
  rw [List.map_map, List.map_map] at h
  rw [byteSlices, bytes_eq]
  refine h.trans (map_congr_left fun st _ => ?_)
  rw [bytes_eq, Function.comp_apply, encode, List.map_map, hback, List.map_id]

end MageUplift.Php
