import MageUplift.Proofs.TokenRereading

/-!
# The account of what is wrong with a text

There are two ways in which reading can go wrong. A character that begins no token is a token of its own, and the fault
covers just that token. A comment, a string or a heredoc that is not terminated swallows the text up to its end, so it is
the last token; inside a string further strings may be open, each one within the one before it, and they are reported from
the inside to the outside.

So the errors of a text are an account of its tokens: first one error for each token that could not be read, then those
of the last token, if it is not terminated.
-/

namespace MageUplift.Php

open List Nat

variable {n : Nat} {frames : List Frame} {f : Fault}

/-! ## §1. Bytes. -/

@[simp] theorem byteLength_nil : byteLength [] = 0 := rfl

@[simp] theorem byteLength_cons (c : Char) (cs : List Char) : byteLength (c :: cs) = c.utf8Size + byteLength cs := rfl

@[simp] theorem byteLength_append (a b : List Char) : byteLength (a ++ b) = byteLength a + byteLength b := by
  induction a with
  | nil => simp
  | cons c a ih => simp [ih, Nat.add_assoc]

theorem utf8ByteSize_ofList (cs : List Char) : (String.ofList cs).utf8ByteSize = byteLength cs := by
  induction cs with
  | nil => rfl
  | cons c cs ih =>
    have hsplit : String.ofList (c :: cs) = String.singleton c ++ String.ofList cs := by
      rw [String.singleton_eq_ofList, ← String.ofList_append]
      rfl
    rw [hsplit, String.utf8ByteSize_append, String.utf8ByteSize_singleton, ih, byteLength_cons]

theorem byteLength_toList (s : String) : byteLength s.toList = s.utf8ByteSize := by
  rw [← utf8ByteSize_ofList, String.ofList_toList]

theorem byteLength_take_lt {cs : List Char} {a b : Nat} (hlt : a < b) (ha : a < cs.length) :
    byteLength (cs.take a) < byteLength (cs.take b) := by
  induction cs generalizing a b with
  | nil => cases ha
  | cons c cs ih =>
    obtain ⟨b, rfl⟩ := exists_eq_succ_of_ne_zero (Nat.ne_zero_of_lt hlt)
    have hpos := c.utf8Size_pos
    cases a with
    | zero =>
      rw [take_zero, take_succ_cons, byteLength_nil, byteLength_cons]
      omega
    | succ a =>
      have := ih (lt_of_succ_lt_succ hlt) (lt_of_succ_lt_succ ha)
      rw [take_succ_cons, take_succ_cons, byteLength_cons, byteLength_cons]
      omega

/-! ## §2. Strings within strings. -/

def openStarts (frames : List Frame) : List Nat := frames.filterMap Frame.start?

/-- At position `n` each open string began before the one inside it, and the outermost at the start of the token. -/
structure Enclosed (n : Nat) (frames : List Frame) : Prop where
  descending : (n :: openStarts frames).Pairwise (· > ·)
  outermost : ∀ f, frames.getLast? = some f → f.start? = some 0

theorem Frame.step_starts (top : Frame) (below : List Frame) (n : Nat) (c : Char) (follower : Option Char) :
    openStarts (top.step below n c follower).2 <:+ openStarts (top :: below)
      ∨ openStarts (top.step below n c follower).2 = n :: openStarts (top :: below) := by
  have hkept : openStarts (top :: below) <:+ openStarts (top :: below) := suffix_rfl
  have hclosed : openStarts below <:+ openStarts (top :: below) := by
    unfold openStarts
    rw [filterMap_cons]
    split
    · exact suffix_rfl
    · exact suffix_cons _ _
  cases top with
  | single start =>
    unfold Frame.step
    dsimp only
    split
    · exact .inl hkept
    · split
      · exact .inl hclosed
      · exact .inl hkept
  | quoted quote start =>
    unfold Frame.step
    dsimp only
    split
    · exact .inl hkept
    · split
      · exact .inl hclosed
      · split
        · exact .inl hkept
        · exact .inl hkept
  | brace =>
    unfold Frame.step
    dsimp only
    split
    · exact .inl hkept
    · split
      · exact .inl hclosed
      · split
        · exact .inr rfl
        · split
          · exact .inr rfl
          · exact .inl hkept

theorem Enclosed.succ {n : Nat} {frames : List Frame} (h : Enclosed n frames) : Enclosed (n + 1) frames := by
  obtain ⟨hbef, hpairs⟩ := pairwise_cons.mp h.descending
  exact ⟨pairwise_cons.mpr ⟨fun s hs => lt_succ_of_lt (hbef s hs), hpairs⟩, h.outermost⟩

theorem Enclosed.step {top : Frame} {below : List Frame} (h : Enclosed n (top :: below)) (c : Char)
    (follower : Option Char) : Enclosed (n + 1) (top.step below n c follower).2 := by
  refine ⟨?_, ?_⟩
  · rcases Frame.step_starts top below n c follower with hfewer | hmore
    · exact h.succ.descending.sublist (hfewer.sublist.cons_cons (n + 1))
    · rw [hmore]
      refine pairwise_cons.mpr ⟨fun s hs => ?_, h.descending⟩
      rcases mem_cons.mp hs with rfl | hs
      · exact lt_succ_self _
      · exact lt_succ_of_lt ((pairwise_cons.mp h.descending).1 s hs)
  · rcases Frame.step_frames top below n c follower with hstep | hstep | ⟨f, hstep⟩
    · rw [hstep]
      exact h.outermost
    · rw [hstep]
      intro f hf
      cases below with
      | nil => cases hf
      | cons g below => exact h.outermost f (by rwa [getLast?_cons_cons])
    · rw [hstep]
      intro g hg
      exact h.outermost g (by rwa [getLast?_cons_cons] at hg)

theorem Enclosed.getLast?_starts (h : Enclosed n frames) (hopen : openStarts frames ≠ []) :
    (openStarts frames).getLast? = some 0 := by
  cases houtermost : frames.getLast? with
  | none =>
    rw [getLast?_eq_none_iff.mp houtermost] at hopen
    exact absurd rfl hopen
  | some f =>
    have hf : f.start? = some 0 := h.outermost f houtermost
    obtain ⟨inner, rfl⟩ := getLast?_eq_some_iff.mp houtermost
    have hlast : openStarts (inner ++ [f]) = openStarts inner ++ [0] := by
      rw [openStarts, filterMap_append, filterMap_cons, hf]
      rfl
    rw [hlast, getLast?_concat]

/-- **The strings that are open at the end of the text** lie within each other, and the outermost is the token. -/
theorem stringEnd_starts (h : Enclosed n frames) (escaped : Bool) (cs : List Char) :
    ((stringEnd escaped frames n cs).1 :: (stringEnd escaped frames n cs).2).Pairwise (· > ·)
      ∧ ((stringEnd escaped frames n cs).2 ≠ [] → (stringEnd escaped frames n cs).2.getLast? = some 0) := by
  induction cs generalizing n frames escaped with
  | nil => exact ⟨h.descending, h.getLast?_starts⟩
  | cons c cs ih =>
    cases frames with
    | nil => exact ⟨pairwise_singleton _ _, fun hopen => absurd rfl hopen⟩
    | cons top below =>
      cases escaped with
      | true => exact ih h.succ false
      | false => exact ih (h.step c cs.head?) _

/-! ## §3. What can be wrong with a token. -/

/-- The token is not terminated. It takes all of the text that is left; the faults begin one inside the other, the last
one where the token begins. -/
structure Lexeme.Unterminated (l : Lexeme) (left : Nat) : Prop where
  takesAll : l.length = left
  named : ∀ f ∈ l.faults, f.1 ≠ .unexpectedCharacter
  descending : (l.length :: l.faults.map Prod.snd).Pairwise (· > ·)
  outermost : (l.faults.map Prod.snd).getLast? = some 0

theorem Lexeme.unterminated_code (k : Kind) (n : Nat) (hf : f ≠ .unexpectedCharacter) :
    (Lexeme.code k n [(f, 0)]).Unterminated (1 + n) where
  takesAll := rfl
  named := by
    intro g hg
    cases mem_singleton.mp hg
    exact hf
  descending := pairwise_pair.mpr (Nat.one_pos.trans_le (Nat.le_add_right 1 n))
  outermost := rfl

theorem stringLexeme_faults {f : Frame} (hf : f.start? = some 0) (cs : List Char) :
    (stringLexeme f cs).faults = [] ∨ (stringLexeme f cs).Unterminated (1 + cs.length) := by
  have hstart : openStarts [f] = [0] := by
    rw [openStarts, filterMap_cons, hf]
    rfl
  have hopen : Enclosed 1 [f] := by
    refine ⟨?_, fun g hg => ?_⟩
    · rw [hstart]
      exact pairwise_pair.mpr Nat.one_pos
    · cases hg
      exact hf
  obtain ⟨hdescending, houtermost⟩ := stringEnd_starts hopen false cs
  by_cases hclosed : (stringEnd false [f] 1 cs).2 = []
  · exact .inl (map_eq_nil_iff.mpr hclosed)
  · have hstarts : (stringLexeme f cs).faults.map Prod.snd = (stringEnd false [f] 1 cs).2 := by
      show ((stringEnd false [f] 1 cs).2.map _).map Prod.snd = _
      rw [map_map]
      exact map_id _
    refine .inr ⟨stringEnd_open hclosed, ?_, ?_, ?_⟩
    · intro g hg
      obtain ⟨s, -, rfl⟩ := List.mem_map.mp hg
      exact nofun
    · rw [hstarts]
      exact hdescending
    · rw [hstarts]
      exact houtermost hclosed

theorem operators_kind_ne_error : ∀ o ∈ operators, o.kind ≠ .error := by decide

/-- **What can be wrong with a token.** It could not be read, and that is its one fault; or it was read, and nothing is
wrong with it or it is not terminated. -/
theorem lexeme_faults (mode : Mode) (last : Option Kind) (c : Char) (cs : List Char) :
    ((lexeme mode last c cs).kind = .error ∧ (lexeme mode last c cs).faults = [(.unexpectedCharacter, 0)])
      ∨ (lexeme mode last c cs).kind ≠ .error
        ∧ ((lexeme mode last c cs).faults = [] ∨ (lexeme mode last c cs).Unterminated (1 + cs.length)) := by
  cases mode with
  | html =>
    show ((htmlLexeme c cs).kind = _ ∧ _) ∨ (htmlLexeme c cs).kind ≠ _ ∧ ((htmlLexeme c cs).faults = [] ∨ _)
    refine .inr ?_
    unfold htmlLexeme
    split
    · rename_i htag
      rcases openTag?_cases htag with ⟨_, -, rfl, -⟩ | ⟨_, _, _, _, -, -, -, -, -, rfl, -⟩ <;> exact ⟨nofun, .inl rfl⟩
    · exact ⟨nofun, .inl rfl⟩
  | php =>
    show ((phpLexeme last c cs).kind = _ ∧ (phpLexeme last c cs).faults = _)
      ∨ (phpLexeme last c cs).kind ≠ _ ∧ ((phpLexeme last c cs).faults = [] ∨ (phpLexeme last c cs).Unterminated _)
    have hspec := phpLexeme_spec last c cs
    generalize phpLexeme last c cs = l at hspec ⊢
    cases hspec with
    | unexpected => exact .inl ⟨rfl, rfl⟩
    | blockComment hkind => exact .inr ⟨by rcases hkind with rfl | rfl <;> exact nofun, .inl rfl⟩
    | openComment hkind =>
      exact .inr ⟨by rcases hkind with rfl | rfl <;> exact nofun, .inr (Lexeme.unterminated_code _ _ nofun)⟩
    | name hkind => exact .inr ⟨by cases hkind <;> exact nofun, .inl rfl⟩
    | string hframe => exact .inr ⟨nofun, stringLexeme_faults (openingFrame?_start hframe) cs⟩
    | openHeredoc => exact .inr ⟨nofun, .inr (Lexeme.unterminated_code _ _ nofun)⟩
    | operator ho => exact .inr ⟨operators_kind_ne_error _ ho, .inl rfl⟩
    | _ => exact .inr ⟨nofun, .inl rfl⟩

/-! ## §4. The account of one token. -/

/-- The errors of tokens that could not be read, when the first of the tokens begins at byte `offset`. -/
def unreadFrom (offset : Nat) : List Token → List LexError
  | [] => []
  | t :: tokens =>
    (if t.kind = .error then [⟨.unexpectedCharacter, offset, offset + t.text.utf8ByteSize⟩] else [])
      ++ unreadFrom (offset + t.text.utf8ByteSize) tokens

def bytesOf (tokens : List Token) : Nat := byteLength (charsOf tokens)

theorem bytesOf_cons (t : Token) (tokens : List Token) :
    bytesOf (t :: tokens) = t.text.utf8ByteSize + bytesOf tokens := by
  rw [bytesOf, charsOf_cons, byteLength_append, byteLength_toList]
  rfl

/-- The errors of a last token that is not terminated: it begins at byte `start` and ends, with the text, at `stop`. -/
structure IsOpenEnd (start stop : Nat) (errors : List LexError) : Prop where
  named : ∀ e ∈ errors, e.fault ≠ .unexpectedCharacter
  toEnd : ∀ e ∈ errors, e.stop = stop
  descending : (stop :: errors.map LexError.start).Pairwise (· > ·)
  outermost : errors ≠ [] → (errors.map LexError.start).getLast? = some start

theorem isOpenEnd_nil (start stop : Nat) : IsOpenEnd start stop [] where
  named := nofun
  toEnd := nofun
  descending := pairwise_singleton _ _
  outermost := fun h => absurd rfl h

theorem IsOpenEnd.start_le {start stop : Nat} {errors : List LexError} (h : IsOpenEnd start stop errors) {e : LexError}
    (he : e ∈ errors) : start ≤ e.start := by
  obtain ⟨inner, hinner⟩ := getLast?_eq_some_iff.mp (h.outermost (ne_nil_of_mem he))
  have hdescending := (pairwise_cons.mp h.descending).2
  have hmem : e.start ∈ errors.map LexError.start := mem_map_of_mem he
  rw [hinner] at hdescending hmem
  rcases mem_append.mp hmem with hmem | hmem
  · exact ((pairwise_append.mp hdescending).2.2 _ hmem start (mem_singleton_self _)).le
  · exact Nat.le_of_eq (mem_singleton.mp hmem).symm

theorem Lexeme.Unterminated.isOpenEnd {l : Lexeme} {chars : List Char} (h : l.Unterminated chars.length) (offset : Nat) :
    IsOpenEnd offset (offset + byteLength chars) (l.errors offset chars) where
  named := by
    intro e he
    obtain ⟨f, hf, rfl⟩ := List.mem_map.mp he
    exact h.named f hf
  toEnd := by
    intro e he
    obtain ⟨f, -, rfl⟩ := List.mem_map.mp he
    rfl
  descending := by
    -- the places in characters, and those in bytes, are in the same order
    have hbytes : (offset + byteLength chars) :: (l.errors offset chars).map LexError.start
        = (l.length :: l.faults.map Prod.snd).map fun k => offset + byteLength (chars.take k) := by
      rw [map_cons, h.takesAll, take_length, Lexeme.errors, map_map, map_map]
      rfl
    rw [hbytes, pairwise_map]
    refine h.descending.imp_of_mem fun {a b} ha _ hlt => ?_
    have hb : b < chars.length := by
      rcases mem_cons.mp ha with rfl | ha
      · rwa [← h.takesAll]
      · have := (pairwise_cons.mp h.descending).1 a ha
        rw [h.takesAll] at this
        omega
    exact Nat.add_lt_add_left (byteLength_take_lt hlt hb) offset
  outermost := by
    intro _
    have hstarts : (l.errors offset chars).map LexError.start
        = (l.faults.map Prod.snd).map fun k => offset + byteLength (chars.take k) := by
      rw [Lexeme.errors, map_map, map_map]
      rfl
    rw [hstarts, getLast?_map, h.outermost]
    rfl

theorem IsOpenEnd.cons {offset stop : Nat} {t : Token} {tokens : List Token} {left : List LexError}
    (h : IsOpenEnd (offset + t.text.utf8ByteSize + bytesOf tokens.dropLast) stop left) (hnone : tokens = [] → left = []) :
    IsOpenEnd (offset + bytesOf (t :: tokens).dropLast) stop left := by
  cases tokens with
  | nil =>
    rw [hnone rfl]
    exact isOpenEnd_nil _ _
  | cons t' tokens =>
    rw [dropLast_cons_cons, bytesOf_cons, ← Nat.add_assoc]
    exact h

/-! ## §5. The account of a text. -/

/-- **Reading keeps the account.** The errors of a text are those of the tokens that could not be read, in order, and then
those of the last token, if it is not terminated. -/
theorem steps_account (mode : Mode) (last : Option Kind) (offset : Nat) (cs : List Char) :
    ∃ left, (steps mode last offset cs).flatMap LexStep.errors
        = unreadFrom offset ((steps mode last offset cs).map LexStep.token) ++ left
      ∧ IsOpenEnd (offset + bytesOf ((steps mode last offset cs).map LexStep.token).dropLast) (offset + byteLength cs)
      left := by
  fun_induction steps mode last offset cs with
  | case1 => exact ⟨[], rfl, isOpenEnd_nil _ _⟩
  | case2 mode last offset c cs l chars seen ih =>
    obtain ⟨left, hleft, hopen⟩ := ih
    have hsize : (String.ofList chars).utf8ByteSize = byteLength chars := utf8ByteSize_ofList chars
    -- a token that is terminated leaves open what the rest of the text leaves open
    have hcons : IsOpenEnd (offset + bytesOf ((⟨l.kind, String.ofList chars⟩ : Token)
          :: (steps l.next seen (offset + byteLength chars) ((c :: cs).drop l.length)).map LexStep.token).dropLast)
        (offset + byteLength (c :: cs)) left := by
      have htotal : byteLength (c :: cs) = byteLength chars + byteLength ((c :: cs).drop l.length) := by
        rw [← byteLength_append, take_append_drop]
      rw [htotal, ← Nat.add_assoc]
      refine IsOpenEnd.cons (by rw [hsize]; exact hopen) fun hnone => ?_
      rw [map_eq_nil_iff.mp hnone] at hleft
      exact hleft.symm
    rw [flatMap_cons, map_cons, unreadFrom, hsize, hleft]
    rcases lexeme_faults mode last c cs with ⟨hkind, hfaults⟩ | ⟨hkind, hfaults | hunterm⟩
    · refine ⟨left, ?_, hcons⟩
      have herrors : l.errors offset chars = [⟨.unexpectedCharacter, offset, offset + byteLength chars⟩] := by
        rw [Lexeme.errors, show l.faults = _ from hfaults]
        rfl
      rw [herrors, if_pos hkind, append_assoc]
    · refine ⟨left, ?_, hcons⟩
      have herrors : l.errors offset chars = [] := by
        rw [Lexeme.errors, show l.faults = _ from hfaults]
        rfl
      rw [herrors, if_neg hkind, append_assoc]
    · -- nothing is left behind the token
      have hlen : l.length = (c :: cs).length := by
        rw [show l.length = _ from hunterm.takesAll, length_cons, Nat.add_comm]
      have hchars : chars = c :: cs := by
        show (c :: cs).take l.length = _
        rw [hlen, take_length]
      have hnone : (c :: cs).drop l.length = [] := by rw [hlen, drop_length]
      rw [hnone, steps_nil] at hleft ⊢
      obtain rfl : left = [] := hleft.symm
      refine ⟨l.errors offset chars, ?_, ?_⟩
      · rw [if_neg hkind]
        exact append_nil _
      · have hall : l.Unterminated (c :: cs).length := by
          rw [length_cons, Nat.add_comm]
          exact hunterm
        rw [hchars]
        exact hall.isOpenEnd offset

/-! ## §6. The account of a file. -/

theorem bytesOf_append (a b : List Token) : bytesOf (a ++ b) = bytesOf a + bytesOf b := by
  rw [bytesOf, charsOf_append, byteLength_append]
  rfl

theorem byteOffset_eq (s : TokenStream) (i : Nat) : s.byteOffset i = bytesOf (s.tokens.toList.take i) := by
  have hfold : ∀ tokens : List Token, tokens.foldr (fun t n => t.text.utf8ByteSize + n) 0 = bytesOf tokens := by
    intro tokens
    induction tokens with
    | nil => rfl
    | cons t tokens ih => rw [foldr_cons, ih, bytesOf_cons]
  exact hfold _

def unexpectedAt? (s : TokenStream) (t : Token) (i : Nat) : Option LexError :=
  if t.kind = .error then some ⟨.unexpectedCharacter, s.byteOffset i, s.byteOffset (i + 1)⟩ else none

def unexpectedErrors (s : TokenStream) : List LexError :=
  s.tokens.toList.zipIdx.filterMap fun x => unexpectedAt? s x.1 x.2

theorem message_unexpectedErrors (s : TokenStream) :
    ∀ e ∈ unexpectedErrors s, e.fault.message = "unexpected character" := by
  intro e he
  obtain ⟨⟨t, i⟩, -, hsome⟩ := mem_filterMap.mp he
  simp only [unexpectedAt?] at hsome
  split at hsome <;> cases hsome
  rfl

theorem unexpectedErrors_eq (s : TokenStream) : unexpectedErrors s = unreadFrom 0 s.tokens.toList := by
  -- from any token on, with the tokens before it
  have hfrom : ∀ rest before : List Token, s.tokens.toList = before ++ rest →
      (rest.zipIdx before.length).filterMap (fun x => unexpectedAt? s x.1 x.2) = unreadFrom (bytesOf before) rest := by
    intro rest
    induction rest with
    | nil => exact fun _ _ => rfl
    | cons t rest ih =>
      intro before htoks
      have hnext : s.tokens.toList = (before ++ [t]) ++ rest := by rw [htoks, append_cons]
      have hlen : (before ++ [t]).length = before.length + 1 := by rw [length_append, length_singleton]
      have hstart : s.byteOffset before.length = bytesOf before := by
        rw [byteOffset_eq, htoks, take_left]
      have hend : s.byteOffset (before.length + 1) = bytesOf before + t.text.utf8ByteSize := by
        rw [byteOffset_eq, hnext, ← hlen, take_left, bytesOf_append, bytesOf_cons]
        rfl
      have hrest := ih (before ++ [t]) hnext
      rw [hlen, bytesOf_append, bytesOf_cons, show bytesOf [] = 0 from rfl, Nat.add_zero] at hrest
      rw [zipIdx_cons, filterMap_cons, hrest, unreadFrom, unexpectedAt?, hstart, hend]
      by_cases hkind : t.kind = .error
      · rw [if_pos hkind, if_pos hkind]
        rfl
      · rw [if_neg hkind, if_neg hkind]
        rfl
  exact hfrom s.tokens.toList [] rfl

theorem length_unreadFrom (offset : Nat) (tokens : List Token) :
    (unreadFrom offset tokens).length = tokens.countP (·.kind == .error) := by
  induction tokens generalizing offset with
  | nil => rfl
  | cons t tokens ih =>
    rw [unreadFrom, length_append, ih, countP_cons, Nat.add_comm]
    by_cases hkind : t.kind = .error
    · simp [hkind]
    · simp [hkind]

theorem Fault.message_unterminated (h : f ≠ .unexpectedCharacter) :
    ∃ construct, f.message = "unterminated " ++ construct := by
  cases f with
  | unexpectedCharacter => exact absurd rfl h
  | unterminatedComment => exact ⟨"block comment", rfl⟩
  | unterminatedString => exact ⟨"string literal", rfl⟩
  | unterminatedHeredoc => exact ⟨"heredoc", rfl⟩

/-- **Everything that is wrong with a file is accounted for.** The errors are first one for each token that could not be
read, in the order of the tokens and over the bytes of each; then those of constructs that are not terminated. Each of
those goes on to the end of the file and begins within the last token, before the one that was reported before it, and
the last of them begins where the last token begins. Where every construct is terminated, there are as many errors as
tokens that could not be read. -/
theorem lexErrors_account (source : String) :
    ∃ unterminated, lexErrors source = unexpectedErrors (.ofSource source) ++ unterminated
      ∧ (∀ e ∈ unexpectedErrors (.ofSource source), e.fault.message = "unexpected character")
      ∧ (∀ e ∈ unterminated, (∃ construct, e.fault.message = "unterminated " ++ construct)
        ∧ e.stop = source.utf8ByteSize ∧ e.start < e.stop
        ∧ (TokenStream.ofSource source).byteOffset ((TokenStream.ofSource source).size - 1) ≤ e.start)
      ∧ (unterminated.map LexError.start).Pairwise (· > ·)
      ∧ (∀ e, unterminated.getLast? = some e →
        e.start = (TokenStream.ofSource source).byteOffset ((TokenStream.ofSource source).size - 1))
      ∧ (unterminated = [] → (lexErrors source).length = (lex source).countP (·.kind == .error)) := by
  obtain ⟨left, hleft, hopen⟩ := steps_account .html none 0 source.toList
  have hlast : (TokenStream.ofSource source).byteOffset ((TokenStream.ofSource source).size - 1)
      = bytesOf (lex source).dropLast := by
    rw [byteOffset_eq, dropLast_eq_take]
    rfl
  rw [Nat.zero_add, Nat.zero_add, byteLength_toList] at hopen
  change IsOpenEnd (bytesOf (lex source).dropLast) source.utf8ByteSize left at hopen
  rw [← hlast] at hopen
  have herrors : lexErrors source = unexpectedErrors (.ofSource source) ++ left := by
    rw [unexpectedErrors_eq]
    exact hleft
  obtain ⟨hbef, hdescending⟩ := List.pairwise_cons.mp hopen.descending
  refine ⟨left, herrors, message_unexpectedErrors _,
    fun e he => ⟨Fault.message_unterminated (hopen.named e he), hopen.toEnd e he, ?_, ?_⟩, hdescending, ?_, ?_⟩
  · rw [hopen.toEnd e he]
    exact hbef _ (mem_map_of_mem he)
  · exact hopen.start_le he
  · intro e he
    have := hopen.outermost (by rintro rfl; cases he)
    rw [List.getLast?_map, he] at this
    exact Option.some.inj this
  · rintro rfl
    rw [herrors, append_nil, unexpectedErrors_eq, length_unreadFrom]
    rfl

/-- The string inside the code of another one is reported before it. -/
example : lexErrors "<?php \x01\"\x7b$a['"
    = [⟨.unexpectedCharacter, 6, 7⟩, ⟨.unterminatedString, 12, 13⟩, ⟨.unterminatedString, 7, 13⟩] := by
  decide +kernel

end MageUplift.Php
