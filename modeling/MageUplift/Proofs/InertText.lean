import MageUplift.Proofs.Splicing

/-!
# Text that is read the same everywhere

Code that is put into a file must not depend on what stands around it. `InertText` describes such code:
soft characters, brackets and block comments. Its tokens are inert, and its brackets can be read off.
-/

namespace MageUplift.Php

open List Option

variable {ks : List Kind} {cs u body : List Char} {c : Char} {k : Kind}

/-! ## §1. Inert text. -/

/-- Text of soft characters, brackets and block comments, together with its brackets. -/
inductive InertText : List Char → List Kind → Prop where
  | nil : InertText [] []
  | soft {c : Char} {cs : List Char} {ks : List Kind} (soft : isSoft c = true) (rest : InertText cs ks) :
      InertText (c :: cs) ks
  | bracket {c : Char} {k : Kind} {cs : List Char} {ks : List Kind} (bracket : bracket? c = some k)
      (rest : InertText cs ks) : InertText (c :: cs) (k :: ks)
  | comment {body cs : List Char} {ks : List Kind} (ends : commentEnd? 1 body = some (1 + body.length))
      (rest : InertText cs ks) : InertText ('/' :: '*' :: (body ++ cs)) ks

theorem isSoft_of_bracket? (h : bracket? c = some k) : isSoft c = false := by
  unfold bracket? at h
  split at h
  case h_7 => cases h
  all_goals rfl

namespace InertText

theorem append {a b : List Char} {ls : List Kind} (ha : InertText a ks) (hb : InertText b ls) :
    InertText (a ++ b) (ks ++ ls) := by
  induction ha with
  | nil => exact hb
  | soft hsoft rest ih => exact .soft hsoft ih
  | bracket hbr rest ih => exact .bracket hbr ih
  | @comment body cs ks ends rest ih =>
    rw [cons_append, cons_append, append_assoc]
    exact .comment ends ih

theorem softs {a : List Char} (h : ∀ x ∈ a, isSoft x) : InertText a [] := by
  induction a with
  | nil => exact .nil
  | cons c a ih => exact .soft (h c mem_cons_self) (ih (forall_mem_cons.mp h).2)

theorem drop_soft (h : InertText cs ks) : ∀ {n : Nat}, Starts isSoft n cs → InertText (cs.drop n) ks := by
  induction h with
  | nil =>
    intro n _
    rw [drop_nil]
    exact .nil
  | @soft c cs ks hsoft rest ih =>
    intro n hn
    cases n with
    | zero => exact .soft hsoft rest
    | succ n => exact ih (forall_mem_cons.mp hn).2
  | @bracket c k cs ks hbr rest ih =>
    intro n hn
    cases n with
    | zero => exact .bracket hbr rest
    | succ n => exact absurd (hn c mem_cons_self) (by rw [isSoft_of_bracket? hbr]; decide)
  | @comment body cs ks ends rest ih =>
    intro n hn
    cases n with
    | zero => exact .comment ends rest
    | succ n => exact absurd (hn '/' mem_cons_self) (by decide)

/-- The brackets of a text of soft characters and brackets; `none` for other texts. -/
def brackets? : List Char → Option (List Kind)
  | [] => some []
  | c :: cs => if isSoft c then brackets? cs else (bracket? c).bind fun k => (brackets? cs).map (k :: ·)

theorem of_brackets? : ∀ {ks : List Kind}, brackets? cs = some ks → InertText cs ks := by
  induction cs with
  | nil =>
    intro ks h
    cases h
    exact .nil
  | cons c cs ih =>
    intro ks h
    rw [brackets?] at h
    split at h
    · rename_i hsoft
      exact .soft hsoft (ih h)
    · obtain ⟨k, hk, h⟩ := bind_eq_some_iff.mp h
      obtain ⟨rest, hrest, rfl⟩ := map_eq_some_iff.mp h
      exact .bracket hk (ih hrest)

theorem commentEnd?_append (n : Nat) (h : '/' ∉ u) :
    commentEnd? n (u ++ ['*', '/']) = some (n + (u ++ ['*', '/']).length) := by
  induction u generalizing n with
  | nil => rfl
  | cons c u ih =>
    rw [mem_cons, not_or] at h
    have hnext : nextIs (· == '/') (u ++ ['*', '/']) = false := by
      cases u with
      | nil => rfl
      | cons d u =>
        have : d ≠ '/' := fun hd => h.2 (hd ▸ mem_cons_self)
        simpa [nextIs] using this
    rw [cons_append, commentEnd?, hnext, Bool.and_false, if_neg (by decide), ih (n + 1) h.2, length_cons]
    congr 1
    omega

theorem block (h : '/' ∉ u) : InertText ('/' :: '*' :: (u ++ ['*', '/'])) [] := by
  have := InertText.comment (commentEnd?_append 1 h) .nil
  rwa [append_nil] at this

theorem getLast?_of_commentEnd? {n : Nat} (h : commentEnd? n body = some (n + body.length)) :
    body.getLast? = some '/' := by
  induction body generalizing n with
  | nil => cases h
  | cons c cs ih =>
    rw [commentEnd?] at h
    split at h
    · rename_i hstar
      rw [some.injEq, length_cons] at h
      rw [Bool.and_eq_true] at hstar
      obtain ⟨d, rest, rfl, hslash⟩ := cons_of_nextIs hstar.2
      cases rest with
      | nil =>
        rw [eq_of_beq hslash]
        rfl
      | cons =>
        simp only [length_cons] at h
        omega
    · have hlast := ih (n := n + 1) (by rw [h, length_cons]; congr 1; omega)
      rw [getLast?_cons, hlast]
      rfl

theorem before_mark {x bs : List Char} {d : Char} (h : InertText (x ++ d :: bs) ks)
    (hd : d ≠ '*' ∧ d ≠ '/') (hbs : '/' ∉ bs) : ∃ ks', InertText x ks' := by
  generalize htext : x ++ d :: bs = cs at h
  induction h generalizing x with
  | nil => exact absurd htext (by simp)
  | @soft c cs ks hsoft rest ih =>
    cases x with
    | nil => exact ⟨[], .nil⟩
    | cons e x =>
      rw [cons_append, cons.injEq] at htext
      obtain ⟨rfl, htext⟩ := htext
      obtain ⟨ks', hx⟩ := ih htext
      exact ⟨ks', .soft hsoft hx⟩
  | @bracket c k cs ks hbr rest ih =>
    cases x with
    | nil => exact ⟨[], .nil⟩
    | cons e x =>
      rw [cons_append, cons.injEq] at htext
      obtain ⟨rfl, htext⟩ := htext
      obtain ⟨ks', hx⟩ := ih htext
      exact ⟨k :: ks', .bracket hbr hx⟩
  | @comment body cs ks ends rest ih =>
    match x with
    | [] => exact ⟨[], .nil⟩
    | [e] =>
      simp only [cons_append, nil_append, cons.injEq] at htext
      exact absurd htext.2.1 hd.1
    | e :: f :: x =>
      simp only [cons_append, cons.injEq] at htext
      obtain ⟨rfl, rfl, htext⟩ := htext
      rcases append_eq_append_iff.mp htext with ⟨a, rfl, hrest⟩ | ⟨a, rfl, hrest⟩
      · -- the mark would stand in the comment, and so would its end
        cases a with
        | nil =>
          rw [nil_append] at hrest
          obtain ⟨ks', hx⟩ := ih (x := []) hrest
          rw [append_nil] at ends
          exact ⟨ks', by simpa using InertText.comment ends hx⟩
        | cons g a =>
          rw [cons_append, cons.injEq] at hrest
          obtain ⟨rfl, rfl⟩ := hrest
          have hlast := getLast?_of_commentEnd? ends
          have hmem : '/' ∈ d :: a := by
            rw [getLast?_append, getLast?_cons, some_or] at hlast
            rw [some.injEq] at hlast
            cases ha : a.getLast? with
            | none =>
              rw [ha] at hlast
              exact hlast ▸ mem_cons_self
            | some g =>
              rw [ha] at hlast
              have hg : g = '/' := hlast
              exact mem_cons_of_mem d (hg ▸ mem_of_getLast? ha)
          rcases mem_cons.mp hmem with hslash | hslash
          · exact absurd hslash.symm hd.2
          · exact absurd (mem_append_left cs hslash) hbs
      · obtain ⟨ks', hx⟩ := ih hrest.symm
        exact ⟨ks', InertText.comment ends hx⟩

end InertText

/-! ## §2. Its tokens. -/

theorem phpLexeme_bracket (h : bracket? c = some k) (last : Option Kind) (cs : List Char) :
    phpLexeme last c cs = .code k 0 [] ∧ k.mode = .php ∧ k.nextMode = .php := by
  unfold bracket? at h
  split at h
  case h_7 => cases h
  all_goals
    cases h
    exact ⟨rfl, rfl, rfl⟩

theorem phpLexeme_comment (h : commentEnd? 1 body = some (1 + body.length)) (last : Option Kind)
    (rest : List Char) : ∃ k : Kind, (k = .comment ∨ k = .docComment)
      ∧ phpLexeme last '/' ('*' :: (body ++ rest)) = .code k (1 + body.length) [] := by
  obtain ⟨k, hk, hlex⟩ := phpLexeme_block last (body ++ rest)
  rw [Php.commentEnd?_append (by rwa [append_nil]) rest] at hlex
  exact ⟨k, hk, hlex⟩

theorem InertText.first (h : InertText (c :: cs) ks) (last : Option Kind) : ∃ rest,
      (⟨(phpLexeme last c cs).kind, .ofList ((c :: cs).take (phpLexeme last c cs).length)⟩ : Token).Inert
        ∧ (phpLexeme last c cs).next = .php ∧ ks = (phpLexeme last c cs).kind.marks ++ rest
        ∧ InertText ((c :: cs).drop (phpLexeme last c cs).length) rest := by
  cases h with
  | soft hsoft rest =>
    obtain ⟨-, hstays, hplain, hpre⟩ := phpLexeme_soft last cs hsoft
    obtain ⟨hmode, hnext⟩ := phpLexeme_inMode last c cs
    have hfst : c ≠ '<' := by
      rintro rfl
      exact absurd hsoft (by decide)
    refine ⟨ks, ⟨hmode, hnext ▸ hstays, ?_, ?_⟩, hstays, ?_, (InertText.soft hsoft rest).drop_soft hpre⟩
    · refine Token.reads_soft hmode (hnext ▸ hstays) hplain ?_
      rw [String.toList_ofList]
      exact hpre
    · refine Token.heredocStands_of_ne (phpLexeme_ne_heredoc last cs hfst) fun heq => hfst ?_
      -- the text of the token begins with its first character
      have hpos := (phpLexeme last c cs).length_pos
      have htext := congrArg (fun t : Token => t.text.toList.head?) heq
      rw [String.toList_ofList, head?_take, if_neg (by omega)] at htext
      exact some.inj htext
    · rw [Kind.marks_of_isPlain hplain, nil_append]
  | @bracket _ k _ ks hbr rest =>
    obtain ⟨hlex, hmode, hnext⟩ := phpLexeme_bracket hbr last cs
    rw [hlex]
    have hkind : k ≠ .heredoc ∧ k ≠ .operator := by
      constructor <;> rintro rfl <;> exact absurd (marks_of_bracket? hbr) (by decide)
    refine ⟨ks, ⟨hmode, hnext, fun ρ => ?_, ?_⟩, rfl, ?_, rest⟩
    · show outline k.mode ((String.ofList [c]).toList ++ ρ) = _
      rw [String.toList_ofList, hmode]
      show _ = (outline k.nextMode ρ).map (k.marks ++ ·)
      rw [hnext, marks_of_bracket? hbr]
      exact outline_bracket hbr ρ
    · exact Token.heredocStands_of_ne hkind.1 fun heq => hkind.2 (congrArg Token.kind heq)
    · show _ = k.marks ++ ks
      rw [marks_of_bracket? hbr]
      rfl
  | @comment body rest _ ends htail =>
    obtain ⟨k, hk, hlex⟩ := phpLexeme_comment ends last rest
    have htake : ('/' :: '*' :: (body ++ rest)).take (1 + (1 + body.length)) = '/' :: '*' :: body := by
      rw [Nat.add_comm, take_succ_cons, Nat.add_comm, take_succ_cons, take_left]
    have hdrop : ('/' :: '*' :: (body ++ rest)).drop (1 + (1 + body.length)) = rest := by
      rw [Nat.add_comm, drop_succ_cons, Nat.add_comm, drop_succ_cons, drop_left]
    have hmode : k.mode = .php ∧ k.nextMode = .php ∧ k.isPlain := by
      rcases hk with rfl | rfl <;> exact ⟨rfl, rfl, rfl⟩
    rw [hlex]
    have hkind : k ≠ .heredoc ∧ k ≠ .operator := by
      rcases hk with rfl | rfl <;> decide
    refine ⟨ks, ⟨hmode.1, hmode.2.1, fun ρ => ?_, ?_⟩, rfl, ?_, ?_⟩
    · obtain ⟨k', hk', hlexeme'⟩ := phpLexeme_comment ends none ρ
      refine Token.reads_plain hmode.2.2 ?_
      show outline k.mode ((String.ofList (('/' :: '*' :: (body ++ rest)).take (1 + (1 + body.length)))).toList ++ ρ) = _
      rw [hmode.1, String.toList_ofList, htake]
      show outline .php ('/' :: '*' :: (body ++ ρ)) = outline k.nextMode ρ
      rw [outline_code_plain hlexeme' (by rcases hk' with rfl | rfl <;> rfl), hmode.2.1, Nat.add_comm, drop_succ_cons,
        drop_left]
    · exact Token.heredocStands_of_ne hkind.1 fun heq => hkind.2 (congrArg Token.kind heq)
    · exact (congrArg (· ++ ks) (Kind.marks_of_isPlain hmode.2.2)).symm
    · show InertText (('/' :: '*' :: (body ++ rest)).drop (1 + (1 + body.length))) ks
      rw [hdrop]
      exact htail

/-- **The tokens of inert text**: what holds of the first token of inert text holds of all, and the brackets are those
of the text. -/
theorem InertText.steps_forall {P : Token → Prop}
    (hP : ∀ {c : Char} {cs : List Char} {ks : List Kind} (last : Option Kind),
    InertText (c :: cs) ks → P ⟨(phpLexeme last c cs).kind, .ofList ((c :: cs).take (phpLexeme last c cs).length)⟩)
    (h : InertText cs ks) (last : Option Kind) (offset : Nat) :
    (∀ st ∈ steps .php last offset cs, P st.token) ∧ marksOf ((steps .php last offset cs).map LexStep.token) = ks := by
  generalize hmode : Mode.php = mode
  fun_induction steps mode last offset cs generalizing ks with
  | case1 =>
    cases h with
    | nil => simp [marksOf]
  | case2 mode last offset c cs l chars seen =>
    rename_i ih
    subst hmode
    obtain ⟨rest, -, hnext, rfl, htail⟩ := h.first last
    obtain ⟨hrest, hmarks⟩ := ih htail hnext.symm
    exact ⟨forall_mem_cons.mpr ⟨hP last h, hrest⟩, congrArg (l.kind.marks ++ ·) hmarks⟩

theorem lexFragment_inert {code : String} (h : InertText code.toList ks) :
    (∀ t ∈ lexFragment code, t.Inert) ∧ marksOf (lexFragment code) = ks := by
  obtain ⟨hinert, hmarks⟩ := InertText.steps_forall (P := Token.Inert)
    (fun last h => by obtain ⟨-, hinert, -⟩ := h.first last; exact hinert) h none 0
  refine ⟨fun t ht => ?_, hmarks⟩
  obtain ⟨st, hst, rfl⟩ := List.mem_map.mp ht
  exact hinert st hst

end MageUplift.Php
