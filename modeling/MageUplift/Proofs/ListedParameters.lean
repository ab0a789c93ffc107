import MageUplift.Proofs.CodeStretches
import MageUplift.Proofs.GeneratedTokens

/-!
# Parameters by the tokens of their list

The parameters of a constructor are found by places: the scan jumps from bracket to bracket and cuts at the commas it
meets. What it finds out about them depends on the significant tokens between the parentheses alone. Here that is
said with lists of tokens: `itemsFrom` cuts a list at its top-level commas, `factsFrom` reads one item, and
`parameterList_facts` says that the scan finds these facts.

A list of tokens can be taken apart where a place cannot: behind a balanced piece and a comma, the rest of the list is
read on its own (`listedFacts_comma`). So new parameters are read as what they are, and the parameters around
them are read as before, in their order (`listedFacts_inserted`).
-/

namespace MageUplift.Wiring

open Php TokenStream List Option Nat
open Call (Collaborator)

variable {s : TokenStream} {c : Constructor} {inner : List Token} {t comma : Token} {right : Nat}

/-! ## §1. The items of a list. -/

/-- The items of a list of tokens, which top-level commas separate. `depth` brackets are open, and `item` was read
behind the last comma. -/
def itemsFrom (depth : Nat) (item : List Token) : List Token → List (List Token)
  | [] => [item]
  | t :: rest =>
    if t.kind.isOpener then itemsFrom (depth + 1) (item ++ [t]) rest
    else if t.kind.isCloser then itemsFrom (depth - 1) (item ++ [t]) rest
    else if t.kind = .comma ∧ depth = 0 then item :: itemsFrom 0 [] rest
    else itemsFrom depth (item ++ [t]) rest

section

variable {depth : Nat} {item rest : List Token} {t : Token}

theorem itemsFrom_opener {c : Kind} (h : t.kind.closer? = some c) :
    itemsFrom depth item (t :: rest) = itemsFrom (depth + 1) (item ++ [t]) rest := by
  rw [itemsFrom, if_pos (by rw [Kind.isOpener, h]; rfl)]

theorem itemsFrom_closer (h : t.kind.isCloser) :
    itemsFrom depth item (t :: rest) = itemsFrom (depth - 1) (item ++ [t]) rest := by
  have hopen : ¬ t.kind.isOpener := by simp [Kind.isOpener, Kind.closer?_of_isCloser h]
  rw [itemsFrom, if_neg hopen, if_pos h]

theorem itemsFrom_plain (h : t.kind.isPlain) (hcomma : ¬ (t.kind = .comma ∧ depth = 0)) :
    itemsFrom depth item (t :: rest) = itemsFrom depth (item ++ [t]) rest := by
  obtain ⟨hcloser, hclosing⟩ := Kind.isPlain_iff.mp h
  have hopen : ¬ t.kind.isOpener := by simp [Kind.isOpener, hcloser]
  rw [itemsFrom, if_neg hopen, if_neg (by simp [hclosing]), if_neg hcomma]

theorem itemsFrom_comma (h : t.kind = .comma) : itemsFrom 0 item (t :: rest) = item :: itemsFrom 0 [] rest := by
  have hopen : ¬ t.kind.isOpener := by rw [h]; decide
  have hclosing : ¬ t.kind.isCloser := by rw [h]; decide
  rw [itemsFrom, if_neg hopen, if_neg hclosing, if_pos ⟨h, rfl⟩]

end

theorem itemsFrom_through {n : Nat} (rest : List Token) (xs : List Token) :
    (n = 0 → ∀ t ∈ xs, t.kind ≠ .comma) → ∀ {expected after : List Kind} (item : List Token),
    expectedAfter expected (xs.map Token.kind) = some after →
      itemsFrom (expected.length + n) item (xs ++ rest) = itemsFrom (after.length + n) (item ++ xs) rest := by
  induction xs with
  | nil =>
    intro _ expected after item h
    cases h
    rw [append_nil, nil_append]
  | cons t xs ih =>
    intro hcomma expected after item h
    have hrest : n = 0 → ∀ u ∈ xs, u.kind ≠ .comma := fun hn u hu => hcomma hn u (mem_cons_of_mem t hu)
    rw [map_cons] at h
    rw [cons_append]
    have hstep : item ++ t :: xs = item ++ [t] ++ xs := by simp
    obtain ⟨mid, hmid, h⟩ := expected_cons_iff.mp h
    rw [hstep, ← ih hrest (item ++ [t]) h]
    cases hmid with
    | opener hc => rw [itemsFrom_opener hc, length_cons, Nat.add_right_comm]
    | closer hc => rw [itemsFrom_closer hc, length_cons, Nat.add_right_comm, Nat.add_sub_cancel]
    | plain hplain => rw [itemsFrom_plain hplain fun hc => hcomma (by omega) t mem_cons_self hc.1]

theorem itemsFrom_inside (rest : List Token) (xs : List Token) {expected after : List Kind} (item : List Token)
    (h : expectedAfter expected (xs.map Token.kind) = some after) :
    itemsFrom (expected.length + 1) item (xs ++ rest) = itemsFrom (after.length + 1) (item ++ xs) rest :=
  itemsFrom_through rest xs (fun hn => absurd hn Nat.one_ne_zero) item h

theorem itemsFrom_bracket {o c : Token} (ho : o.kind.closer? = some c.kind)
    (hinner : Balanced (inner.map Token.kind)) (item rest : List Token) :
    itemsFrom 0 item (o :: (inner ++ c :: rest)) = itemsFrom 0 (item ++ o :: (inner ++ [c])) rest := by
  have hin := itemsFrom_inside (c :: rest) inner (item ++ [o]) hinner
  rw [itemsFrom_opener ho]
  show itemsFrom ([] : List Kind).length.succ (item ++ [o]) (inner ++ c :: rest) = _
  rw [hin, itemsFrom_closer (Kind.isCloser_closer? ho)]
  simp

/-- The tokens belong to one item, whatever stands around them. -/
def OneItem (xs : List Token) : Prop := ∀ item rest, itemsFrom 0 item (xs ++ rest) = itemsFrom 0 (item ++ xs) rest

namespace OneItem

variable {xs ys : List Token}

theorem nil : OneItem [] := fun item rest => by rw [nil_append, append_nil]

theorem append (hx : OneItem xs) (hy : OneItem ys) : OneItem (xs ++ ys) := fun item rest => by
  rw [append_assoc, hx, hy, append_assoc]

theorem plain (h : t.kind.isPlain) (hcomma : t.kind ≠ .comma) : OneItem [t] := fun item rest => by
  rw [singleton_append, itemsFrom_plain h fun hc => hcomma hc.1]

theorem of_no_comma (h : Balanced (xs.map Token.kind)) (hcomma : ∀ t ∈ xs, t.kind ≠ .comma) : OneItem xs :=
  fun item rest => @itemsFrom_through 0 rest xs (fun _ => hcomma) [] [] item h

theorem bracket {o c : Token} (ho : o.kind.closer? = some c.kind) (h : Balanced (xs.map Token.kind)) :
    OneItem (o :: (xs ++ [c])) := fun item rest => by
  have hitems := itemsFrom_bracket ho h item rest
  rwa [show o :: (xs ++ [c]) ++ rest = o :: (xs ++ c :: rest) by simp]

theorem opened {c : Token} {inner : List Kind} {k : Kind} (hcomma : ∀ t ∈ xs, t.kind ≠ .comma)
    (hopen : expectedAfter [] (xs.map Token.kind) = some (inner ++ [k]))
    (hin : expectedAfter inner (ys.map Token.kind) = some []) (hc : c.kind.isCloser) :
    OneItem (xs ++ (ys ++ [c])) := by
  intro item rest
  have hfst := @itemsFrom_through 0 (ys ++ c :: rest) xs (fun _ => hcomma) [] (inner ++ [k]) item hopen
  calc itemsFrom 0 item (xs ++ (ys ++ [c]) ++ rest)
      = itemsFrom 0 item (xs ++ (ys ++ c :: rest)) := by simp
    _ = itemsFrom (inner.length + 1) (item ++ xs) (ys ++ c :: rest) := by simpa using hfst
    _ = itemsFrom 1 (item ++ xs ++ ys) (c :: rest) := itemsFrom_inside (c :: rest) ys (item ++ xs) hin
    _ = itemsFrom 0 (item ++ (xs ++ (ys ++ [c]))) rest := by
      rw [itemsFrom_closer hc]
      simp

end OneItem

theorem itemsFrom_append_comma (hcomma : comma.kind = .comma) (rest : List Token) (xs : List Token) :
    ∀ {expected : List Kind} (item : List Token), expectedAfter expected (xs.map Token.kind) = some [] →
      itemsFrom expected.length item (xs ++ comma :: rest)
        = itemsFrom expected.length item xs ++ itemsFrom 0 [] rest := by
  -- the depth is the number of brackets that `xs` has yet to close
  induction xs with
  | nil =>
    intro expected item h
    cases h
    exact itemsFrom_comma hcomma
  | cons t xs ih =>
    intro expected item h
    rw [map_cons] at h
    rw [cons_append]
    obtain ⟨mid, hstep, hmid⟩ := expected_cons_iff.mp h
    cases hstep with
    | opener hc =>
      rw [itemsFrom_opener hc, itemsFrom_opener hc]
      exact ih _ hmid
    | closer hc =>
      rw [itemsFrom_closer hc, itemsFrom_closer hc]
      exact ih _ hmid
    | plain hplain =>
      by_cases htop : t.kind = .comma ∧ expected.length = 0
      · rw [length_eq_zero_iff.mp htop.2] at hmid ⊢
        show itemsFrom 0 item (t :: (xs ++ comma :: rest)) = itemsFrom 0 item (t :: xs) ++ _
        rw [itemsFrom_comma htop.1, itemsFrom_comma htop.1, cons_append]
        exact congrArg _ (ih [] hmid)
      · rw [itemsFrom_plain hplain htop, itemsFrom_plain hplain htop]
        exact ih _ hmid

/-! ## §2. One item. -/

def variableOf (t : Token) : String := String.ofList (t.text.toList.dropWhile (· == '$'))

def ParameterFacts.read (facts : ParameterFacts) (t : Token) : ParameterFacts :=
  if t.kind = .variableName && facts.name.isNone && !facts.optional then { facts with name := some (variableOf t) }
  else if t.kind = .equals then { facts with optional := true }
  else if t.kind = .ellipsis then { facts with variadic := true }
  else if t.kind.isModifier then { facts with promoted := true }
  else facts

/-- Adds what the tokens outside of brackets say; `depth` brackets are open. -/
def factsFrom (depth : Nat) (facts : ParameterFacts) : List Token → ParameterFacts
  | [] => facts
  | t :: rest =>
    if t.kind.isOpener then factsFrom (depth + 1) facts rest
    else if t.kind.isCloser then factsFrom (depth - 1) facts rest
    else if depth = 0 then factsFrom 0 (facts.read t) rest
    else factsFrom depth facts rest

section

variable {depth : Nat} {facts : ParameterFacts} {rest : List Token} {t : Token}

theorem factsFrom_opener {c : Kind} (h : t.kind.closer? = some c) :
    factsFrom depth facts (t :: rest) = factsFrom (depth + 1) facts rest := by
  rw [factsFrom, if_pos (by rw [Kind.isOpener, h]; rfl)]

theorem factsFrom_closer (h : t.kind.isCloser) :
    factsFrom depth facts (t :: rest) = factsFrom (depth - 1) facts rest := by
  have hopen : ¬ t.kind.isOpener := by simp [Kind.isOpener, Kind.closer?_of_isCloser h]
  rw [factsFrom, if_neg hopen, if_pos h]

theorem factsFrom_plain (h : t.kind.isPlain) :
    factsFrom depth facts (t :: rest) = if depth = 0 then factsFrom 0 (facts.read t) rest
    else factsFrom depth facts rest := by
  obtain ⟨hcloser, hclosing⟩ := Kind.isPlain_iff.mp h
  have hopen : ¬ t.kind.isOpener := by simp [Kind.isOpener, hcloser]
  rw [factsFrom, if_neg hopen, if_neg (by simp [hclosing])]

end

theorem factsFrom_inside (rest : List Token) (facts : ParameterFacts) (xs : List Token) : ∀ {expected after : List Kind},
    expectedAfter expected (xs.map Token.kind) = some after →
      factsFrom (expected.length + 1) facts (xs ++ rest) = factsFrom (after.length + 1) facts rest := by
  induction xs with
  | nil =>
    intro expected after h
    cases h
    rfl
  | cons t xs ih =>
    intro expected after h
    rw [map_cons] at h
    rw [cons_append]
    obtain ⟨mid, hstep, h⟩ := expected_cons_iff.mp h
    rw [← ih h]
    cases hstep with
    | opener hc => rw [factsFrom_opener hc, length_cons]
    | closer hc => rw [factsFrom_closer hc, length_cons, Nat.add_sub_cancel]
    | plain hplain => rw [factsFrom_plain hplain, if_neg (succ_ne_zero _)]

theorem factsFrom_bracket {o c : Token} (ho : o.kind.closer? = some c.kind)
    (hinner : Balanced (inner.map Token.kind)) (facts : ParameterFacts) (rest : List Token) :
    factsFrom 0 facts (o :: (inner ++ c :: rest)) = factsFrom 0 facts rest := by
  have hin := factsFrom_inside (c :: rest) facts inner hinner
  rw [factsFrom_opener ho]
  show factsFrom ([] : List Kind).length.succ facts (inner ++ c :: rest) = _
  rw [hin, factsFrom_closer (Kind.isCloser_closer? ho)]
  rfl

section

variable {s : TokenStream} {a b i last start stop : Nat}

theorem balanced_significantTokens {ts : List Token} :
    Balanced ((significant ts).map Token.kind) ↔ Balanced (ts.map Token.kind) := by
  have hkinds : (significant ts).map Token.kind = (ts.map Token.kind).filter (!·.isTrivia) := by
    rw [List.filter_map]
    rfl
  rw [hkinds, balanced_significant]

theorem balanced_codeIn : Balanced ((s.codeIn a b).map Token.kind) ↔ Balanced (s.kindsIn a b) := by
  rw [codeIn, balanced_significantTokens, map_take, map_drop]
  rfl

theorem codeIn_bracket {close : Nat} (ht : s.get? a = some t) (hclose : s.matchingClose? a = some close)
    (hb : close < b) : ∃ inner c, t.kind.closer? = some c.kind ∧ Balanced (inner.map Token.kind)
      ∧ s.codeIn a b = t :: (inner ++ c :: s.codeIn (close + 1) b) ∧ s.codeIn a (close + 1) = t :: (inner ++ [c]) := by
  obtain ⟨k, hopen, hlt, hk, hbal⟩ := close_iff.mp hclose
  rw [kind?_get? ht] at hopen
  obtain ⟨c, hc, rfl⟩ := map_eq_some_iff.mp hk
  obtain ⟨hcodeT, hcodeC⟩ := isCode_brackets hclose
  obtain ⟨t', ht', hsig⟩ := hcodeT
  rw [ht, some.injEq] at ht'
  subst ht'
  obtain ⟨c', hc', hsigC⟩ := hcodeC
  rw [hc, some.injEq] at hc'
  subst hc'
  refine ⟨s.codeIn (a + 1) close, c, hopen, balanced_codeIn.mpr hbal, ?_, ?_⟩
  · rw [codeIn_code ht hsig (by omega), codeIn_append s hlt hb.le,
      codeIn_code hc hsigC hb]
  · rw [codeIn_code ht hsig (by omega), codeIn_append s hlt close.le_succ,
      codeIn_code hc hsigC close.lt_succ_self, codeIn_self]

theorem not_telling {k : Kind} (h : k.isTrivia ∨ k.isOpener) :
    k ≠ .variableName ∧ k ≠ .equals ∧ k ≠ .ellipsis ∧ k.isModifier = false := by
  refine ⟨?_, ?_, ?_, ?_⟩
  · rintro rfl
    simp [Kind.isTrivia, Kind.isOpener, Kind.closer?] at h
  · rintro rfl
    simp [Kind.isTrivia, Kind.isOpener, Kind.closer?] at h
  · rintro rfl
    simp [Kind.isTrivia, Kind.isOpener, Kind.closer?] at h
  · cases k with
    | keyword => simp [Kind.isTrivia, Kind.isOpener, Kind.closer?] at h
    | _ => rfl

theorem ParameterFacts.read_of_not {facts : ParameterFacts} (hvar : t.kind ≠ .variableName)
    (hequals : t.kind ≠ .equals) (hellipsis : t.kind ≠ .ellipsis) (hmodifier : t.kind.isModifier = false) :
    facts.read t = facts := by
  simp [read, hvar, hequals, hellipsis, hmodifier]

theorem variableText_of_get? (ht : s.get? i = some t) : variableText s i = variableOf t := by
  rw [variableText, text_of_get? ht]
  rfl

theorem parameterFacts_of_get? {facts : ParameterFacts} (ht : s.get? i = some t) (hi : i ≤ last)
    (hplain : t.kind.isPlain) : parameterFacts s last facts i = parameterFacts s last (facts.read t) (i + 1) := by
  have hopen : t.kind.isOpener = false := by simp [Kind.isOpener, (Kind.isPlain_iff.mp hplain).1]
  rw [parameterFacts, if_pos hi]
  simp only [kind?_get? ht, variableText_of_get? ht, ParameterFacts.read]
  split
  · rfl
  · split
    · rfl
    · split
      · rfl
      · split
        · rfl
        · rw [if_neg (by simp [hopen])]

theorem parameterFacts_eq (hlast : last < s.size) (hbal : Balanced (s.kindsIn i (last + 1))) (facts : ParameterFacts) :
    parameterFacts s last facts i = factsFrom 0 facts (s.codeIn i (last + 1)) := by
  induction hn : last + 1 - i using Nat.strongRecOn generalizing i facts with
  | ind n ih =>
    by_cases hi : i ≤ last
    · obtain ⟨t, ht⟩ := get?_of_lt (s := s) (i := i) (by omega)
      have hk := kind?_get? ht
      by_cases hopen : t.kind.isOpener
      · obtain ⟨close, hclose, hlt⟩ := Call.close_of_isOpener hlast (by omega) hbal hk
          hopen
        have hic := (lt_close hclose).1
        obtain ⟨inner, c, hpair, hinner, hcode, -⟩ := codeIn_bracket ht hclose hlt
        -- the loop jumps over what the brackets enclose, the list walks through it at a depth
        have hjump : parameterFacts s last facts i = parameterFacts s last facts (close + 1) := by
          rw [parameterFacts, if_pos hi]
          have hnot := not_telling (.inr hopen)
          simp only [hk, hnot.1, hnot.2.1, hnot.2.2.1, hnot.2.2.2, hopen, decide_false, Bool.false_and,
            Bool.false_eq_true,
            if_false, if_true]
          split
          · rename_i hnone
            rw [hclose] at hnone
            cases hnone
          · rename_i d hd
            rw [hclose, some.injEq] at hd
            rw [hd]
        rw [hjump, hcode, factsFrom_bracket hpair hinner]
        exact ih _ (by omega) ((Call.balanced_behind hclose hlt).2 hbal) facts rfl
      · have hplain := Call.isPlain_balanced hk (by omega) hbal hopen
        rw [parameterFacts_of_get? ht hi hplain, ih _ (by omega) (Call.balanced_tail hk (by omega) hplain hbal) _ rfl]
        by_cases htriv : t.isTrivia
        · have hnot := not_telling (.inl htriv)
          rw [codeIn_trivia ht htriv (by omega),
            ParameterFacts.read_of_not hnot.1 hnot.2.1 hnot.2.2.1 hnot.2.2.2]
        · rw [codeIn_code ht (by simpa using htriv) (by omega), factsFrom_plain hplain, if_pos rfl]
    · rw [parameterFacts, if_neg hi, show last + 1 = i - (i - (last + 1)) by omega, codeIn_eq_nil]
      · rfl
      · intro j hj
        have := le_of_findFrom? hj
        omega

theorem parameter?_facts (hle : start ≤ stop) (hstop : s.IsCode stop) (hbal : Balanced (s.kindsIn start stop)) :
    (parameter? s start stop).toList.map (·.facts)
      = ([s.codeIn start stop].filter (!·.isEmpty)).map (factsFrom 0 {}) := by
  obtain ⟨t, ht, hsig⟩ := hstop
  have hsize := lt_get? ht
  cases hp : parameter? s start stop with
  | none =>
    have hnext := next_of_no_parameter hle ht hsig hp
    have hnil : s.codeIn start stop = [] := codeIn_eq_nil fun j hj => by
      rw [hnext, some.injEq] at hj
      omega
    rw [hnil]
    rfl
  | some p =>
    obtain ⟨htriviaL, htriviaR⟩ := parameter?_triviaIn hsize.le hp
    obtain ⟨hfst, hlast, hend⟩ := parameter?_bounds hp
    have hcode : s.codeIn start stop = s.codeIn p.first (p.last + 1) := by
      rw [codeIn_append s hfst (show p.first ≤ stop by omega), codeIn_triviaIn htriviaL hfst, nil_append,
        codeIn_append s (show p.first ≤ p.last + 1 by omega) (show p.last + 1 ≤ stop by omega),
        codeIn_triviaIn htriviaR (by omega), append_nil]
    have hbal' : Balanced (s.kindsIn p.first (p.last + 1)) := by
      rw [← balanced_codeIn, ← hcode]
      exact balanced_codeIn.mpr hbal
    -- the parameter begins with a significant token, and its facts are those of its tokens
    obtain ⟨hnext, -, -, hread⟩ := parameter?_spec hp
    obtain ⟨u, hu, husig⟩ := (next_spec hnext).2.1
    have hcons := codeIn_code hu husig (show p.first < p.last + 1 by omega)
    rw [hcode, hcons]
    show [p.facts] = [factsFrom 0 {} (u :: s.codeIn (p.first + 1) (p.last + 1))]
    rw [hread, parameterFacts_eq (show p.last < s.size by omega) hbal' {}, hcons]

theorem Uncut.oneItem (h : Uncut s start i) : OneItem (s.codeIn start i) := by
  induction h with
  | nil =>
    rw [codeIn_self]
    exact .nil
  | plain front kind isPlain ne ih =>
    obtain ⟨t, ht, rfl⟩ := map_eq_some_iff.mp kind
    rw [codeIn_append s front.le (le_succ _)]
    by_cases htriv : t.isTrivia
    · rwa [codeIn_trivia ht htriv (lt_succ_self _), codeIn_self, append_nil]
    · rw [codeIn_code ht (by simpa using htriv) (lt_succ_self _), codeIn_self]
      exact ih.append (.plain isPlain ne)
  | bracket front closes ih =>
    have hlt := (lt_close closes).1
    obtain ⟨⟨t, ht, -⟩, -⟩ := isCode_brackets closes
    obtain ⟨inner, c, hpair, hinner, -, hcode⟩ := codeIn_bracket ht closes (lt_succ_self _)
    rw [codeIn_append s front.le (by omega), hcode]
    exact ih.append (.bracket hpair hinner)

end

/-! ## §3. A whole list. -/

/-- What the items of a list say; nothing stands between two commas that follow each other. -/
def listedFacts (ts : List Token) : List ParameterFacts :=
  ((itemsFrom 0 [] ts).filter (!·.isEmpty)).map (factsFrom 0 {})

theorem balanced_inside {left : Nat} (h : s.matchingClose? left = some right) :
    Balanced (s.kindsIn (left + 1) right) := by
  obtain ⟨-, -, -, -, hbal⟩ := close_iff.mp h
  exact hbal

theorem ListedFrom.facts {left start : Nat} {ps : List Parameter} {trailing : Option Nat}
    (h : ListedFrom s left right start ps trailing) (hright : s.IsCode right) :
    ps.map (·.facts) = listedFacts (s.codeIn start right) := by
  -- the item up to the end is a parameter, or holds none
  have hlast : ∀ {start}, Uncut s start right →
      (parameter? s start right).toList.map (·.facts) = listedFacts (s.codeIn start right) := by
    intro start item
    have hall := item.oneItem [] []
    rw [append_nil, nil_append] at hall
    rw [parameter?_facts item.le hright item.balanced, listedFacts, hall]
    rfl
  induction h with
  | @comma start i ps trailing item lt kind rest ih =>
    obtain ⟨t, ht, hsig⟩ := isCode_of_kind? kind rfl
    have hkind : t.kind = .comma := some.inj ((kind?_get? ht).symm.trans kind)
    have hall := item.oneItem [] (t :: s.codeIn (i + 1) right)
    rw [nil_append, itemsFrom_comma hkind] at hall
    rw [map_append, parameter?_facts item.le ⟨t, ht, hsig⟩ item.balanced, ih,
      codeIn_append s item.le lt.le, codeIn_code ht hsig lt, listedFacts, listedFacts, hall, ← map_append,
      ← filter_append]
    rfl
  | last item here => rw [← hlast item, here]; rfl
  | empty item nothing => rw [← hlast item, nothing]; rfl

theorem parameterList_facts (hlist : s.matchingClose? c.left = some c.right) :
    (parameterList s c).parameters.map (·.facts) = listedFacts (s.codeIn (c.left + 1) c.right) :=
  (parameterList_listed hlist).facts (isCode_of_close hlist)

theorem listedFacts_comma {xs : List Token} (hxs : Balanced (xs.map Token.kind))
    (hcomma : comma.kind = .comma) (rest : List Token) :
    listedFacts (xs ++ comma :: rest) = listedFacts xs ++ listedFacts rest := by
  have hitems := itemsFrom_append_comma hcomma rest xs [] hxs
  rw [listedFacts, show ([] : List Kind).length = 0 from rfl] at *
  rw [hitems, filter_append, map_append]
  rfl

/-- The tokens end with a comma that ends an item, or there are none. -/
def EndsItem (ts : List Token) : Prop :=
  ts = [] ∨ ∃ xs comma, ts = xs ++ [comma] ∧ comma.kind = .comma ∧ Balanced (xs.map Token.kind)

namespace EndsItem

variable {xs ys : List Token}

theorem balanced (h : EndsItem xs) : Balanced (xs.map Token.kind) := by
  obtain rfl | ⟨item, comma, rfl, hcomma, hitem⟩ := h
  · exact balanced_nil
  · rw [map_append]
    exact hitem.append (balanced_of_plain fun k hk => by
      rw [map_singleton, mem_singleton] at hk
      rw [hk, hcomma]
      rfl)

theorem snoc (h : Balanced (xs.map Token.kind)) (hcomma : comma.kind = .comma) : EndsItem (xs ++ [comma]) :=
  .inr ⟨xs, comma, rfl, hcomma, h⟩

theorem append (hx : EndsItem xs) (hy : EndsItem ys) : EndsItem (xs ++ ys) := by
  obtain rfl | ⟨item, comma, rfl, hcomma, hitem⟩ := hy
  · rwa [append_nil]
  · rw [← append_assoc]
    exact snoc (by rw [map_append]; exact hx.balanced.append hitem) hcomma

theorem listedFacts_append (h : EndsItem xs) (rest : List Token) :
    listedFacts (xs ++ rest) = listedFacts xs ++ listedFacts rest := by
  obtain rfl | ⟨item, comma, rfl, hcomma, hitem⟩ := h
  · rfl
  · rw [append_assoc, singleton_append, listedFacts_comma hitem hcomma rest,
      listedFacts_comma hitem hcomma [], show listedFacts [] = [] from rfl, append_nil]

end EndsItem

theorem IsItem.endsItem {start a b : Nat} (h : IsItem s start right a b) : EndsItem (s.codeIn start a) := by
  obtain rfl | ⟨comma, rfl, hle, hk, hbal⟩ := h.begins
  · exact .inl (codeIn_self _ _)
  · obtain ⟨t, ht, hsig⟩ := isCode_of_kind? hk rfl
    rw [codeIn_append s hle comma.le_succ, codeIn_code ht hsig comma.lt_succ_self, codeIn_self]
    exact .snoc (balanced_codeIn.mpr hbal) (some.inj ((kind?_get? ht).symm.trans hk))

theorem listedFacts_from (hlist : s.matchingClose? c.left = some c.right)
    {front behind : List Parameter} {p : Parameter} (h : (parameterList s c).parameters = front ++ p :: behind) :
    EndsItem (s.codeIn (c.left + 1) p.first) ∧ listedFacts (s.codeIn p.first c.right) = (p :: behind).map (·.facts) := by
  obtain ⟨a, b, hitem, hp, hlisted⟩ := (parameterList_listed hlist).split h
  have hsize := (lt_close hlist).2
  obtain ⟨hlo, hmid, hhi⟩ := parameter?_bounds hp
  have hb : b ≤ c.right := hitem.ends.elim (by omega) (by omega)
  have ha : c.left + 1 ≤ a := hitem.begins.elim (by omega) fun ⟨_, _, _, _⟩ => by omega
  -- a parameter begins behind trivia, so what begins where its item begins is read from the parameter on
  have hnone := codeIn_triviaIn (parameter?_triviaIn (by omega) hp).1 hlo
  rw [hlisted.facts (isCode_of_close hlist), codeIn_append s ha hlo,
    codeIn_append s hlo (show p.first ≤ c.right by omega), hnone, append_nil, nil_append]
  exact ⟨hitem.endsItem, rfl⟩

/-! ## §4. New parameters. -/

def newFacts (v : Collaborator) : ParameterFacts := { name := some v.name }

section

variable {v : Collaborator} {vs : List Collaborator}

theorem balanced_parameters (v : Collaborator) : Balanced ((parameterTokens v).map Token.kind) := rfl

theorem variableOf_variableToken {name : String} (h : isIdentifier name.toList) :
    variableOf (variableToken name) = name := by
  have hdrop : name.toList.dropWhile (· == '$') = name.toList := by
    cases hcs : name.toList with
    | nil => rfl
    | cons c cs =>
      have hstart := h
      rw [hcs] at hstart
      have hc : (c == '$') = false := beq_eq_false_iff_ne.mpr fun hdollar => by
        subst hdollar
        exact absurd hstart (by simp [isIdentifier, isNameStart])
      rw [dropWhile_cons_of_neg (by simp [hc])]
  rw [variableOf, variableToken, String.toList_append, show "$".toList = ['$'] from rfl, singleton_append,
    dropWhile_cons_of_pos rfl, hdrop, String.ofList_toList]

theorem listedFacts_parameters (hv : Proper v) : listedFacts (parameterTokens v) = [newFacts v] := by
  show [({ name := some (variableOf (variableToken v.name)) } : ParameterFacts)] = _
  rw [variableOf_variableToken hv.name]
  rfl

theorem listedFacts_commasBehind (hvs : ∀ v ∈ vs, Proper v) :
    EndsItem (vs.flatMap fun v => parameterTokens v ++ [⟨.comma, ","⟩])
      ∧ listedFacts (vs.flatMap fun v => parameterTokens v ++ [⟨.comma, ","⟩]) = vs.map newFacts := by
  induction vs with
  | nil => exact ⟨.inl rfl, rfl⟩
  | cons v vs ih =>
    obtain ⟨hends, hfacts⟩ := ih (forall_mem_cons.mp hvs).2
    have hone : EndsItem (parameterTokens v ++ [⟨.comma, ","⟩]) := .snoc (balanced_parameters v) rfl
    rw [flatMap_cons]
    refine ⟨hone.append hends, ?_⟩
    rw [hone.listedFacts_append, hfacts, listedFacts_comma (balanced_parameters v) rfl,
      listedFacts_parameters (hvs v mem_cons_self)]
    rfl

theorem listedFacts_commasBefore (hvs : ∀ v ∈ vs, Proper v) : ∀ {ts : List Token}, Balanced (ts.map Token.kind) →
    listedFacts (ts ++ vs.flatMap fun v => ⟨.comma, ","⟩ :: parameterTokens v) = listedFacts ts ++ vs.map newFacts := by
  induction vs with
  | nil =>
    intro ts _
    simp
  | cons v vs ih =>
    intro ts hts
    rw [flatMap_cons, cons_append, listedFacts_comma hts rfl,
      ih (forall_mem_cons.mp hvs).2 (balanced_parameters v),
      listedFacts_parameters (hvs v mem_cons_self)]
    rfl

theorem facts_commasBetween (hvs : ∀ v ∈ vs, Proper v) :
    Balanced (([⟨.comma, ","⟩].intercalate (vs.map parameterTokens)).map Token.kind)
      ∧ listedFacts ([⟨.comma, ","⟩].intercalate (vs.map parameterTokens)) = vs.map newFacts := by
  induction vs with
  | nil => exact ⟨rfl, rfl⟩
  | cons v vs ih =>
    have hv := hvs v mem_cons_self
    obtain ⟨hbal, hfacts⟩ := ih (forall_mem_cons.mp hvs).2
    cases vs with
    | nil =>
      rw [map_singleton, intercalate_singleton]
      exact ⟨balanced_parameters v, listedFacts_parameters hv⟩
    | cons w ws =>
      rw [map_cons, map_cons, intercalate_cons_cons, append_assoc, singleton_append]
      rw [map_cons] at hbal hfacts
      constructor
      · rw [map_append, map_cons]
        exact (balanced_parameters v).append (hbal.cons_plain rfl)
      · rw [listedFacts_comma (balanced_parameters v) rfl, hfacts, listedFacts_parameters hv]
        rfl

end

def ParameterFacts.mayBeOmitted (facts : ParameterFacts) : Bool := facts.optional || facts.variadic

/-- Parameters with required ones among them: in front of the first that may be omitted, or at the end. -/
def withRequired (facts new : List ParameterFacts) : List ParameterFacts :=
  facts.takeWhile (!·.mayBeOmitted) ++ new ++ facts.dropWhile (!·.mayBeOmitted)

theorem withRequired_perm (facts new : List ParameterFacts) : (withRequired facts new).Perm (facts ++ new) := by
  have hsplit := takeWhile_append_dropWhile (p := fun f : ParameterFacts => !f.mayBeOmitted) (l := facts)
  conv => rhs; rw [← hsplit]
  rw [withRequired, append_assoc, append_assoc]
  exact List.Perm.append_left _ perm_append_comm

theorem withRequired_split {front behind new : List ParameterFacts} {f : ParameterFacts}
    (hfront : ∀ g ∈ front, g.mayBeOmitted = false) (hf : f.mayBeOmitted) :
    withRequired (front ++ f :: behind) new = front ++ new ++ f :: behind := by
  have hkeep : ∀ g ∈ front, (!g.mayBeOmitted) := fun g hg => by rw [hfront g hg]; rfl
  rw [withRequired, takeWhile_append_of_pos hkeep, dropWhile_append_of_pos hkeep,
    takeWhile_cons_of_neg (by simp [hf]), dropWhile_cons_of_neg (by simp [hf]), append_nil]

theorem withRequired_end {facts new : List ParameterFacts} (h : ∀ g ∈ facts, g.mayBeOmitted = false) :
    withRequired facts new = facts ++ new := by
  have hkeep : ∀ g ∈ facts, (!g.mayBeOmitted) := fun g hg => by rw [h g hg]; rfl
  rw [← append_nil facts, withRequired, takeWhile_append_of_pos hkeep, dropWhile_append_of_pos hkeep]
  simp

/-- **A list with new parameters** has them in front of the first parameter that may be omitted. -/
theorem listedFacts_inserted (hlist : s.matchingClose? c.left = some c.right)
    (indent : String) {vs : List Collaborator} (hvs : ∀ v ∈ vs, Proper v) {p : Nat}
    (hp : p = (parameterInsertion s indent c (parameterList s c) (vs.map parameterCode)).1) :
    listedFacts (s.codeIn (c.left + 1) p ++ insertedParameters (parameterList s c) vs ++ s.codeIn p c.right)
      = withRequired (listedFacts (s.codeIn (c.left + 1) c.right)) (vs.map newFacts) := by
  obtain ⟨hlt, hsize⟩ := lt_close hlist
  -- behind whole items, the new parameters end with a comma
  have hbehind : ∀ q, EndsItem (s.codeIn (c.left + 1) q) →
      listedFacts (s.codeIn (c.left + 1) q ++ (vs.flatMap fun v => parameterTokens v ++ [⟨.comma, ","⟩])
        ++ s.codeIn q c.right)
        = listedFacts (s.codeIn (c.left + 1) q) ++ vs.map newFacts ++ listedFacts (s.codeIn q c.right) := by
    intro q hends
    obtain ⟨hnew, hfacts⟩ := listedFacts_commasBehind hvs
    rw [append_assoc, hends.listedFacts_append, hnew.listedFacts_append, hfacts, append_assoc]
  obtain ⟨hbounds, hcommas⟩ := parameterList_bounds hlist
  have hparams := parameterList_facts hlist
  subst hp
  unfold parameterInsertion insertedParameters
  dsimp only
  cases hfind : (parameterList s c).parameters.find? fun p => p.facts.optional || p.facts.variadic with
  | some boundary =>
    have hmem := mem_of_find?_eq_some hfind
    obtain ⟨hlo, hmid, hhi⟩ := hbounds boundary hmem
    obtain ⟨homitted, front, behind, hsplit, hfront⟩ := find?_eq_some_iff_append.mp hfind
    -- the list from the boundary on, and so also the list in front of it
    obtain ⟨hends, hfrom⟩ := listedFacts_from hlist hsplit
    have hwhole := hparams
    rw [codeIn_append s hlo (show boundary.first ≤ c.right by omega),
      hends.listedFacts_append, hfrom, hsplit, map_append] at hwhole
    dsimp only
    rw [hbehind boundary.first hends, ← append_cancel_right hwhole, hfrom, ← hparams, hsplit, map_append,
      map_cons]
    refine (withRequired_split (fun g hg => ?_) homitted).symm
    obtain ⟨q, hq, rfl⟩ := List.mem_map.mp hg
    simpa [ParameterFacts.mayBeOmitted] using hfront q hq
  | none =>
    have hrequired : ∀ g ∈ listedFacts (s.codeIn (c.left + 1) c.right), g.mayBeOmitted = false := by
      intro g hg
      rw [← hparams] at hg
      obtain ⟨q, hq, rfl⟩ := List.mem_map.mp hg
      simpa [ParameterFacts.mayBeOmitted] using find?_eq_none.mp hfind q hq
    rw [withRequired_end hrequired]
    cases hlast : (parameterList s c).parameters.getLast? with
    | none =>
      -- the list holds commas at most
      have hnil : (parameterList s c).parameters = [] := getLast?_eq_none_iff.mp hlast
      have hempty : listedFacts (s.codeIn (c.left + 1) c.right) = [] := by
        rw [← hparams, hnil]
        rfl
      obtain ⟨n, hnext, hn⟩ := parameterList_nil hlist hnil
      obtain ⟨hbal, hfacts⟩ := facts_commasBetween hvs
      dsimp only
      rw [codeIn_self, nil_append, hempty, nil_append]
      by_cases hnr : n < c.right
      · obtain ⟨comma, hget, hkind⟩ := map_eq_some_iff.mp (hn.resolve_left (by omega))
        have hskip := listedFacts_comma (show Balanced (([] : List Token).map Token.kind) from balanced_nil) hkind
          (s.codeIn (n + 1) c.right)
        rw [nil_append, ← codeIn_next hnext hget hnr, hempty] at hskip
        rw [codeIn_next hnext hget hnr, listedFacts_comma hbal hkind, hfacts]
        exact (congrArg _ hskip.symm).trans (append_nil _)
      · have hnone : s.codeIn (c.left + 1) c.right = [] := codeIn_eq_nil fun j hj => by
          rw [hnext, some.injEq] at hj
          omega
        rw [hnone, append_nil, hfacts]
    | some last =>
      obtain ⟨hlo, hmid, hhi⟩ := hbounds last (mem_of_getLast? hlast)
      -- behind the last parameter, and behind a comma that follows it, the list ends
      have hend : ∀ {q}, c.left + 1 ≤ q → q ≤ c.right → s.nextSignificant? q = some c.right →
          s.codeIn q c.right = [] ∧ s.codeIn (c.left + 1) q = s.codeIn (c.left + 1) c.right := by
        intro q hlo hhi hnext
        have hnone : s.codeIn q c.right = [] := codeIn_eq_nil fun j hj => by
          rw [hnext, some.injEq] at hj
          omega
        exact ⟨hnone, by rw [codeIn_append s hlo hhi, hnone, append_nil]⟩
      cases htrail : (parameterList s c).trailingComma with
      | some comma =>
        obtain ⟨hleft, hright⟩ := hcommas comma htrail
        have hitem := ((htrail ▸ parameterList_listed hlist).behind_trailing (lt_succ_self _)).2.2.1
        have hnext := (parameterList_trailing hlist htrail).2
        obtain ⟨hnone, hall⟩ := hend (show c.left + 1 ≤ comma + 1 by omega) hright hnext
        dsimp only
        rw [hbehind (comma + 1) hitem.endsItem, hnone, hall, show listedFacts [] = [] from rfl, append_nil]
      | none =>
        have hnext := parameterList_last hlist htrail hlast
        obtain ⟨hnone, hall⟩ := hend (show c.left + 1 ≤ last.last + 1 by omega) (by omega) hnext
        dsimp only
        rw [hnone, append_nil, hall, listedFacts_commasBefore hvs (balanced_codeIn.mpr (balanced_inside hlist))]

end MageUplift.Wiring
