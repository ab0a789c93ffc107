import MageUplift.Proofs.CompactStreams
import MageUplift.Proofs.StaticContexts

/-!
# Calls without trivia

The calls of a stream are those of its compact stream, at the ranks of their places: every part of a call is found
by questions that skip trivia.
-/

namespace MageUplift.Call

open Php TokenStream Magento List Option

/-! ## §1. Places moved. -/

def Head.relocate (f : Nat → Nat) (head : Head) : Head := ⟨f head.mage, f head.method⟩

def LiteralArgument.relocate (f : Nat → Nat) (arg : LiteralArgument) : LiteralArgument := ⟨f arg.close, arg.value⟩

def Arguments.relocate (f : Nat → Nat) (args : Arguments) : Arguments := ⟨f args.left, f args.close, args.commas.map f⟩

def CodeEdit.relocate (f : Nat → Nat) (e : CodeEdit) : CodeEdit := ⟨e.span.relocate f, e.code⟩

def Invocation.relocate (f : Nat → Nat) (inv : Invocation) : Invocation :=
  { inv with span := inv.span.relocate f, headEnd := f inv.headEnd, tail := inv.tail.map (·.relocate f) }

variable {s : TokenStream} {i : Nat}

theorem bind_eq_map_bind {α α' β β' : Type} {x' : Option α'} {x : Option α} {r : α → α'} {h : β → β'}
    {g : α' → Option β'} {f : α → Option β} (hx : x' = x.map r) (next : ∀ a, x = some a → g (r a) = (f a).map h) :
    (x' >>= g) = (x >>= f).map h := by
  subst hx
  cases x with
  | none => rfl
  | some a => exact next a rfl

theorem bind_next_compact {α β : Type} {k : Kind} {g : Nat → Option β} {f : Nat → Option α} {h : α → β}
    (hi : s.IsCode i) (next : ∀ j, s.IsCode j → g (s.rank j) = (f j).map h) :
    (s.compact.followedBy? (s.rank i) k >>= g) = (s.followedBy? i k >>= f).map h :=
  bind_eq_map_bind (followedBy?_compact hi k) fun j hj => next j (isCode_followedBy? hj)

theorem bind_close_compact {α β : Type} {g : Nat → Option β} {f : Nat → Option α} {h : α → β}
    (hi : s.IsCode i) (next : ∀ j, s.matchingClose? i = some j → s.IsCode j → g (s.rank j) = (f j).map h) :
    (s.compact.matchingClose? (s.rank i) >>= g) = (s.matchingClose? i >>= f).map h :=
  bind_eq_map_bind (close_compact hi) fun j hj => next j hj (isCode_of_close hj)

theorem beq_rank_compact {o : Option Nat} {c : Nat} (ho : ∀ j, o = some j → s.IsCode j) (hc : s.IsCode c) :
    (o.map s.rank == some (s.rank c)) = (o == some c) := by
  cases o with
  | none => rfl
  | some j =>
    rw [map_some, Bool.eq_iff_iff]
    simp only [beq_iff_eq, some.injEq, rank_inj (ho j rfl) hc]

/-! ## §2. The parts of a call. -/

theorem isMember_compact (s : TokenStream) (i : Nat) : isMember s.compact (s.rank i) = isMember s i := by
  rw [isMember, prev_compact, bind_kind?_compact fun j hj => isCode_of_prev hj, isMember]

theorem head?_compact (hi : s.IsCode i) : head? s.compact (s.rank i) = (head? s i).map (Head.relocate s.rank) := by
  rw [head?, head?, hi.get?_compact]
  have ⟨t, ht, _⟩ := hi
  rw [ht, isMember_compact]
  show (if _ then _ else _) = Option.map _ (if _ then _ else _)
  split
  · refine bind_next_compact hi fun colons hcolons => ?_
    exact bind_next_compact hcolons fun method _ => rfl
  · rfl

theorem literalArgument?_compact {method : Nat} (hmethod : s.IsCode method) :
    literalArgument? s.compact (s.rank method) = (literalArgument? s method).map (LiteralArgument.relocate s.rank) := by
  refine bind_next_compact hmethod fun left hleft => ?_
  refine bind_next_compact hleft fun literal hlit => ?_
  refine bind_next_compact hlit fun close _ => ?_
  rw [hlit.text_compact]
  cases unquote? (s.text literal) <;> rfl

theorem topCommas?_compact {stop : Nat} (hstop : stop ≤ s.size) (i : Nat) :
    topCommas? s.compact (s.rank stop) (s.rank i) = (topCommas? s stop i).map (List.map s.rank) := by
  have done : ∀ i, ¬ i < stop →
      topCommas? s.compact (s.rank stop) (s.rank i) = (topCommas? s stop i).map (List.map s.rank) := by
    intro i hi
    rw [topCommas?, if_neg (not_rank_lt hi), topCommas?, if_neg hi]
    rfl
  induction i using position_induction s with
  | atEnd i hi => exact done i (by omega)
  | trivia i t ht htriv ih =>
    by_cases hi : i < stop
    · rw [← rank_of_trivia ht htriv, ih, topCommas?_of_kind? (kind?_get? ht) hi]
      have hnot : t.kind.isOpener = false ∧ t.kind ≠ .comma := by
        rw [Token.isTrivia] at htriv
        cases hk : t.kind <;> simp_all [Kind.isTrivia, Kind.isOpener, Kind.closer?]
      rw [hnot.1, if_neg Bool.false_ne_true]
      simp [hnot.2]
    · exact done i hi
  | code i t ht hsig ih =>
    by_cases hi : i < stop
    · have hcode : s.IsCode i := ⟨t, ht, hsig⟩
      rw [topCommas?_of_kind? (kind?_get? ht) hi,
        topCommas?_of_kind? (kind?_get? (get?_compact ht hsig)) ((rank_lt_iff hcode).mpr hi),
        ← rank_code hcode, ih (i + 1) i.lt_succ_self]
      split
      · refine bind_close_compact hcode fun close hclose hcode' => ?_
        have hlt := (lt_close hclose).1
        rw [← rank_code hcode']
        exact ih (close + 1) (by omega)
      · rw [Option.map_map, Option.map_map]
        congr 1
        funext commas
        by_cases hcomma : t.kind = .comma <;> simp [hcomma]
    · exact done i hi

theorem arguments?_compact {method : Nat} (hmethod : s.IsCode method) :
    arguments? s.compact (s.rank method) = (arguments? s method).map (Arguments.relocate s.rank) := by
  refine bind_next_compact hmethod fun left hleft => ?_
  refine bind_close_compact hleft fun close hclose _ => ?_
  have hcommas := topCommas?_compact (lt_close hclose).2.le (left + 1)
  rw [rank_code hleft] at hcommas
  exact bind_eq_map_bind hcommas fun _ _ => rfl

theorem isEmpty_compact {args : Arguments} (hleft : s.IsCode args.left) (hclose : s.IsCode args.close) :
    (args.relocate s.rank).isEmpty s.compact = args.isEmpty s := by
  rw [Arguments.isEmpty, Arguments.relocate, ← rank_code hleft, next_compact]
  exact beq_rank_compact (fun j hj => isCode_of_next hj) hclose

/-! ## §3. Every pattern. -/

section

variable {table : AliasTable} {head : Head} (hmethod : s.IsCode head.method)

include hmethod

theorem bind_literal_compact {g f : LiteralArgument → Option Invocation} (next : ∀ arg, s.IsCode arg.close →
      g (arg.relocate s.rank) = (f arg).map (Invocation.relocate s.rank)) :
    (literalArgument? s.compact (s.rank head.method) >>= g)
      = (literalArgument? s head.method >>= f).map (Invocation.relocate s.rank) :=
  bind_eq_map_bind (literalArgument?_compact hmethod) fun arg harg => next arg
    ((literalArgument?_spec harg).isCode hmethod)

theorem matchTranslate?_compact :
    matchHelperTranslate? s.compact (head.relocate s.rank)
      = (matchHelperTranslate? s head).map (Invocation.relocate s.rank) := by
  refine bind_literal_compact hmethod fun arg hclose => ?_
  refine bind_next_compact hclose fun arrow harrow => ?_
  refine bind_next_compact harrow fun translate htranslate => ?_
  rw [htranslate.text_compact]
  split
  · refine bind_next_compact htranslate fun left _ => ?_
    simp [Invocation.relocate, Span.relocate, Head.relocate, LiteralArgument.relocate, rank_code htranslate]
  · rfl

theorem matchHelper?_compact :
    matchHelper? table s.compact (head.relocate s.rank)
      = (matchHelper? table s head).map (Invocation.relocate s.rank) := by
  refine bind_literal_compact hmethod fun arg hclose => ?_
  show Option.bind (table.resolve? .helper arg.value) _ = _
  cases table.resolve? .helper arg.value with
  | none => rfl
  | some cls =>
    simp [Invocation.relocate, Span.relocate, Head.relocate, LiteralArgument.relocate, rank_code hclose]

theorem matchModel?_compact (pattern : Pattern) (kind : AliasKind) (factory : Bool) :
    matchModel? table pattern kind factory s.compact (head.relocate s.rank)
      = (matchModel? table pattern kind factory s head).map (Invocation.relocate s.rank) := by
  refine bind_literal_compact hmethod fun arg hclose => ?_
  show Option.bind (table.resolve? kind arg.value) _ = _
  cases table.resolve? kind arg.value with
  | none => rfl
  | some cls =>
    simp [Invocation.relocate, Span.relocate, Head.relocate, LiteralArgument.relocate, rank_code hclose,
      hmethod.text_compact]

theorem matchService?_compact (pattern : Pattern) (method : String) (service : Collaborator) (target : String) :
    matchService? pattern method service target s.compact (head.relocate s.rank)
      = (matchService? pattern method service target s head).map (Invocation.relocate s.rank) := by
  refine bind_next_compact hmethod fun left _ => ?_
  simp [Invocation.relocate, Span.relocate, Head.relocate, rank_code hmethod]

theorem matchAppStore?_compact :
    matchAppStore? s.compact (head.relocate s.rank) = (matchAppStore? s head).map (Invocation.relocate s.rank) := by
  refine bind_next_compact hmethod fun left hleft => ?_
  refine bind_next_compact hleft fun close hclose => ?_
  refine bind_next_compact hclose fun arrow harrow => ?_
  refine bind_next_compact harrow fun member hmem => ?_
  rw [hmem.text_compact]
  cases storeGetters.find? (sameWord · (s.text member)) with
  | none => rfl
  | some getter => simp [Invocation.relocate, Span.relocate, Head.relocate, rank_code hmem]

theorem bind_arguments?_compact {g f : Arguments → Option Invocation}
    (next : ∀ args, arguments? s head.method = some args → s.IsCode args.left → s.IsCode args.close →
      g (args.relocate s.rank) = (f args).map (Invocation.relocate s.rank)) :
    (arguments? s.compact (s.rank head.method) >>= g)
      = (arguments? s head.method >>= f).map (Invocation.relocate s.rank) := by
  refine bind_eq_map_bind (arguments?_compact hmethod) fun args hargs => ?_
  obtain ⟨hleft, hclose, -⟩ := arguments?_spec hargs
  exact next args hargs (isCode_followedBy? hleft) (isCode_of_close hclose)

theorem matchStoreConfig?_compact (pattern : Pattern) (getter : String) :
    matchStoreConfig? pattern getter s.compact (head.relocate s.rank)
      = (matchStoreConfig? pattern getter s head).map (Invocation.relocate s.rank) := by
  refine bind_arguments?_compact hmethod fun args hargs hleft hclose => ?_
  rw [isEmpty_compact hleft hclose]
  split
  · rfl
  · rw [Arguments.relocate]
    obtain ⟨left, close, commas⟩ := args
    match hcommas : commas with
    | [] =>
      simp [Invocation.relocate, Span.relocate, Head.relocate, CodeEdit.relocate, Span.empty, rank_code hleft,
        rank_code hclose, hmethod.text_compact]
    | [comma] =>
      have hcomma : s.IsCode comma := by
        have := (topCommas?_spec (arguments?_spec hargs).2.2 (mem_singleton_self comma)).2.2
        exact isCode_of_kind? this rfl
      simp [Invocation.relocate, Span.relocate, Head.relocate, CodeEdit.relocate, rank_code hleft,
        rank_code hclose, rank_code hcomma, hmethod.text_compact]
    | _ :: _ :: _ => rfl

end

theorem Anatomy.exists_last {inv : Invocation} (h : Anatomy s inv) (hstart : s.IsCode inv.span.start) :
    ∃ last, s.IsCode last ∧ inv.span.stop = last + 1 := by
  cases h with
  | closed _ follows _ stop => exact ⟨_, follows.isCode hstart, stop⟩
  | opened _ closes _ _ stop => exact ⟨_, isCode_of_close closes, stop⟩

theorem exists_last_of_localizedEnd? {stop : Nat} (hi : s.IsCode i) (h : localizedEnd? s i = some stop) :
    ∃ last, s.IsCode last ∧ stop = last + 1 := by
  obtain ⟨t, ht, h⟩ := bind_eq_some_iff.mp h
  split at h
  · cases h
    exact ⟨i, hi, rfl⟩
  · obtain ⟨head, hhead, h⟩ := bind_eq_some_iff.mp h
    obtain ⟨inv, hinv, h⟩ := bind_eq_some_iff.mp h
    cases h
    obtain ⟨rfl, -, -, hfollows⟩ := head?_spec hhead
    obtain ⟨hstart, hanatomy⟩ := @matchHead?_anatomy ⟨[], []⟩ s head "" .helperTranslate _ hfollows hinv
    exact hanatomy.exists_last (hstart ▸ hi)

theorem localizedEnd?_compact (hi : s.IsCode i) :
    localizedEnd? s.compact (s.rank i) = (localizedEnd? s i).map s.rank := by
  have ⟨t, ht, _⟩ := hi
  rw [localizedEnd?, localizedEnd?, hi.get?_compact, ht]
  show (if _ then _ else _) = Option.map _ (if _ then _ else _)
  split
  · exact congrArg some (rank_code hi).symm
  · refine bind_eq_map_bind (head?_compact hi) fun head hhead => ?_
    obtain ⟨rfl, -, -, hfollows⟩ := head?_spec hhead
    exact bind_eq_map_bind (matchTranslate?_compact (hfollows.isCode hi)) fun _ _ => rfl

theorem isLocalized_compact {args : Arguments} (hleft : s.IsCode args.left) (hclose : s.IsCode args.close) :
    isLocalized s.compact (args.relocate s.rank) = isLocalized s args := by
  rw [isLocalized, isLocalized, Arguments.relocate, ← rank_code hleft]
  refine Eq.trans ?_ (beq_rank_compact ?_ hclose)
  · congr 1
    refine bind_eq_map_bind (next_compact s _) fun first hfst => ?_
    have hcode := isCode_of_next hfst
    refine bind_eq_map_bind (localizedEnd?_compact hcode) fun stop hstop => ?_
    obtain ⟨last, hlast, rfl⟩ := exists_last_of_localizedEnd? hcode hstop
    show (s.compact.followedBy? (s.rank (last + 1) - 1) .leftParen >>= _) = _
    rw [rank_code hlast]
    refine bind_next_compact hlast fun left hleft => ?_
    refine bind_close_compact hleft fun close _ hclose => ?_
    rw [← rank_code hclose]
    exact next_compact s (close + 1)
  · intro j hj
    obtain ⟨first, -, hj⟩ := bind_eq_some_iff.mp hj
    obtain ⟨stop, -, hj⟩ := bind_eq_some_iff.mp hj
    obtain ⟨left, -, hj⟩ := bind_eq_some_iff.mp hj
    obtain ⟨close, -, hj⟩ := bind_eq_some_iff.mp hj
    exact isCode_of_next hj

variable {table : AliasTable}

theorem matchThrow?_compact {head : Head} (hmethod : s.IsCode head.method) :
    matchThrowException? s.compact (head.relocate s.rank)
      = (matchThrowException? s head).map (Invocation.relocate s.rank) := by
  refine bind_arguments?_compact hmethod fun args _ hleft hclose => ?_
  rw [isEmpty_compact hleft hclose, isLocalized_compact hleft hclose]
  split
  · rfl
  · cases isLocalized s args <;>
      simp [Invocation.relocate, Span.relocate, Head.relocate, CodeEdit.relocate, Arguments.relocate, Span.empty,
        rank_code hleft, rank_code hclose]

theorem matchHead?_compact {head : Head} (hmethod : s.IsCode head.method) (p : Pattern) (method : String) :
    p.matchHead? table s.compact (head.relocate s.rank) method
      = (p.matchHead? table s head method).map (Invocation.relocate s.rank) := by
  cases p with
  | helperTranslate => exact matchTranslate?_compact hmethod
  | helper => exact matchHelper?_compact hmethod
  | getModel | getSingleton | getResourceModel => exact matchModel?_compact hmethod _ _ _
  | getStoreConfig | getStoreConfigFlag => exact matchStoreConfig?_compact hmethod _ _
  | dispatchEvent | registry | log => exact matchService?_compact hmethod _ _ _ _
  | throwException => exact matchThrow?_compact hmethod
  | appStore => exact matchAppStore?_compact hmethod

/-- **Calls are recognised without regard to trivia.** -/
theorem matchAt?_compact (hi : s.IsCode i) :
    matchAt? table s.compact (s.rank i) = (matchAt? table s i).map (Invocation.relocate s.rank) := by
  refine bind_eq_map_bind (head?_compact hi) fun head hhead => ?_
  obtain ⟨rfl, -, -, hfollows⟩ := head?_spec hhead
  have hmethod := hfollows.isCode hi
  show Pattern.catalog.findSome? _ = (Pattern.catalog.findSome? _).map _
  rw [map_findSome?]
  congr 1
  funext p
  show Option.bind (p.methods.find? (sameWord · (s.compact.text (s.rank head.method)))) _
    = Option.map _ (Option.bind (p.methods.find? _) _)
  rw [hmethod.text_compact, map_bind]
  exact Option.bind_congr fun method _ => matchHead?_compact hmethod p method

theorem isCode_of_matchAt? {inv : Invocation} (h : matchAt? table s i = some inv) : s.IsCode i := by
  obtain ⟨-, ⟨t, ht, hmage⟩, -⟩ := matchAt?_anatomy h
  exact ⟨t, ht, isTrivia_of_isMage hmage⟩

end MageUplift.Call

namespace MageUplift

open Php TokenStream Call Magento List Option

variable {s : TokenStream} {i : Nat} {table : AliasTable}

/-! ## §4. Static functions. -/

theorem isStaticBefore_of_none (h : s.prevSignificant? i = none) : isStaticBefore s i = false := by
  rw [isStaticBefore]
  split
  · rfl
  · simp_all

theorem isStaticBefore_of_prev {prev : Nat} (h : s.prevSignificant? i = some prev) :
    isStaticBefore s i
      = match s.kind? prev with
        | some (.keyword .staticKw) => true
        | some k => if k.isModifier then isStaticBefore s prev else false
        | none => false := by
  rw [isStaticBefore]
  split
  · simp_all
  · rename_i prev' hprev'
    rw [h, some.injEq] at hprev'
    subst hprev'
    rfl

theorem isStaticBefore_compact (s : TokenStream) (i : Nat) :
    isStaticBefore s.compact (s.rank i) = isStaticBefore s i := by
  induction i using Nat.strongRecOn with
  | ind i ih =>
    have hcompact := prev_compact s i
    cases hprev : s.prevSignificant? i with
    | none =>
      rw [hprev] at hcompact
      rw [isStaticBefore_of_none hcompact, isStaticBefore_of_none hprev]
    | some prev =>
      rw [hprev] at hcompact
      rw [isStaticBefore_of_prev hcompact, isStaticBefore_of_prev hprev, (isCode_of_prev hprev).kind?_compact,
        ih prev (lt_of_prev hprev)]

theorem functionBody_get? {t : Token} (ht : s.get? i = some t) :
    functionBodyFrom? s i
      = match t.kind with
        | .leftBrace => some i
        | .semicolon => none
        | .leftParen => (s.matchingClose? i).bind fun close => functionBodyFrom? s (close + 1)
        | _ => functionBodyFrom? s (i + 1) := by
  obtain ⟨hi, rfl⟩ := Array.getElem?_eq_some_iff.mp ht
  rw [functionBodyFrom?, dif_pos hi]
  split
  · simp [*]
  · simp [*]
  · split <;> simp [*]
  · simp [*]

theorem functionBody_size_le (h : s.size ≤ i) : functionBodyFrom? s i = none := by
  rw [functionBodyFrom?, dif_neg (by simpa [size] using h)]

theorem functionBodyFrom?_compact (s : TokenStream) (i : Nat) :
    functionBodyFrom? s.compact (s.rank i) = (functionBodyFrom? s i).map s.rank := by
  induction i using position_induction s with
  | atEnd i hi =>
    rw [functionBody_size_le hi, functionBody_size_le (Nat.le_of_eq (rank_of_size_le hi).symm),
      map_none]
  | trivia i t ht htriv ih =>
    rw [← rank_of_trivia ht htriv, ih, functionBody_get? (i := i) ht]
    split <;> simp_all [Token.isTrivia, Kind.isTrivia]
  | code i t ht hsig ih =>
    have hi : s.IsCode i := ⟨t, ht, hsig⟩
    rw [functionBody_get? (get?_compact ht hsig), functionBody_get? ht, ← rank_code hi,
      ih (i + 1) i.lt_succ_self]
    split
    · rfl
    · rfl
    · refine bind_close_compact hi fun close hclose hcode => ?_
      have hlt := (lt_close hclose).1
      rw [← rank_code hcode]
      exact ih (close + 1) (by omega)
    · rfl

theorem isCode_of_functionBodyFrom? {left : Nat} (h : functionBodyFrom? s i = some left) : s.IsCode left :=
  isCode_of_kind? (functionBodyFrom?_iff.mp h).2 rfl

theorem functionBody?_compact (s : TokenStream) (i : Nat) :
    functionBody? s.compact (s.rank i) = (functionBody? s i).map (Span.relocate s.rank) := by
  refine bind_eq_map_bind (nextOfKind?_compact rfl i) fun left hleft => ?_
  refine bind_close_compact (isCode_of_kind? (nextOfKind?_iff.mp hleft).2.1 rfl) fun right _ hright => ?_
  rw [← rank_code hright]
  refine bind_eq_map_bind (functionBodyFrom?_compact s (right + 1)) fun bodyLeft hbodyLeft => ?_
  refine bind_close_compact (isCode_of_functionBodyFrom? hbodyLeft) fun bodyRight _ hbodyRight => ?_
  simp [Span.relocate, rank_code hbodyRight]

theorem staticBodies_compact (s : TokenStream) :
    staticBodies s.compact = (staticBodies s).map (Span.relocate s.rank) := by
  refine filterMap_range_compact (fun i hi => ?_) fun i hi => ?_
  · rw [if_neg]
    rw [Bool.and_eq_true, hasKind, beq_iff_eq]
    exact fun h => hi (isCode_of_kind? h.1 rfl)
  · rw [hi.hasKind_compact, isStaticBefore_compact, functionBody?_compact]
    split <;> rfl

/-! ## §5. The scan. -/

theorem filterMap_range'_skip {α : Type} {f : Nat → Option α} {a b n : Nat} (hab : a ≤ b) (hbn : b ≤ n)
    (hnone : ∀ i, a ≤ i → i < b → f i = none) : (range' a (n - a)).filterMap f = (range' b (n - b)).filterMap f := by
  rw [show n - a = (b - a) + (n - b) by omega, ← range'_append_1, filterMap_append,
    filterMap_eq_nil_iff.mpr fun i hi => ?_, nil_append, Nat.add_sub_cancel' hab]
  rw [mem_range'_1] at hi
  exact hnone i hi.1 (by omega)

theorem scanFrom_eq_filterMap (table : AliasTable) (s : TokenStream) (bodies : List Span) (i : Nat) (hi : i ≤ s.size) :
    scanFrom table s bodies i
      = (range' i (s.size - i)).filterMap fun j => (matchAt? table s j).filter (·.isConvertible bodies) := by
  -- from a position with a token on, the first position apart
  have first : ∀ i, i < s.size → ∀ f : Nat → Option Invocation, (range' i (s.size - i)).filterMap f
      = (f i).toList ++ (range' (i + 1) (s.size - (i + 1))).filterMap f := by
    intro i hi f
    rw [show s.size - i = s.size - (i + 1) + 1 by omega, range'_succ, filterMap_cons]
    cases f i <;> rfl
  -- behind a call, nothing is recognised before its head ends
  have behind : ∀ i inv, matchAt? table s i = some inv → i + 3 < s.size → ∀ q : Invocation → Bool,
      max inv.headEnd (i + 1) ≤ s.size
        ∧ (range' (i + 1) (s.size - (i + 1))).filterMap (fun j => (matchAt? table s j).filter q)
          = (range' (max inv.headEnd (i + 1)) (s.size - max inv.headEnd (i + 1))).filterMap
              fun j => (matchAt? table s j).filter q := by
    intro i inv hinv hlt q
    obtain ⟨rfl, -, -, hanatomy⟩ := matchAt?_anatomy hinv
    have h₁ := hanatomy.headEnd_le_stop
    have h₂ := hanatomy.stop_le_size (by omega)
    refine ⟨by omega, filterMap_range'_skip (Nat.le_max_right _ _) (by omega) fun j hj hlt => ?_⟩
    rw [matchAt?_inside (.of_matchAt? hinv) hj (by omega)]
    rfl
  fun_induction scanFrom table s bodies i with
  | case1 i hlt hnone ih => rw [ih (by omega), first i (by omega), hnone, filter_none, toList_none, nil_append]
  | case2 i hlt inv hinv rest hconv ih =>
    obtain ⟨hsize, hrest⟩ := behind i inv hinv hlt _
    rw [first i (by omega), hinv, filter_some, if_pos hconv, hrest, ← ih hsize]
    rfl
  | case3 i hlt inv hinv rest hconv ih =>
    obtain ⟨hsize, hrest⟩ := behind i inv hinv hlt _
    rw [first i (by omega), hinv, filter_some, if_neg hconv, hrest, ← ih hsize]
    rfl
  | case4 i hlt =>
    rw [filterMap_range'_skip hi le_rfl fun j hij _ => ?_, Nat.sub_self]
    · rfl
    · cases hj : matchAt? table s j with
      | none => rfl
      | some inv => have := lt_of_matchAt? hj; omega

/-- **The scan finds every call**: it gives the calls of all positions, in order, that are to be converted. -/
theorem scan_eq_filterMap (table : AliasTable) (s : TokenStream) :
    scan table s
      = (range s.size).filterMap fun i =>
          (matchAt? table s i).filter (·.isConvertible (staticBodies s)) := by
  rw [scan, scanFrom_eq_filterMap table s _ 0 (Nat.zero_le _), Nat.sub_zero, ← range_eq_range']

theorem isInside_compact {inv : Invocation} (h : IsCallOf table s inv) :
    (inv.relocate s.rank).isInside (staticBodies s.compact) = inv.isInside (staticBodies s) := by
  have hstart := isCode_of_matchAt? h
  obtain ⟨last, hlast, hstop⟩ := h.anatomy.exists_last hstart
  rw [Invocation.isInside, staticBodies_compact, List.any_map, Invocation.isInside]
  rw [Bool.eq_iff_iff, List.any_eq_true, List.any_eq_true]
  refine exists_congr fun body => and_congr_right fun hbody => ?_
  obtain ⟨f, left, right, hfun, rfl⟩ := mem_staticBodies_iff.mp hbody
  have h₁ := rank_lt_iff (j := inv.span.start) (isCode_of_kind? hfun.brace rfl)
  have h₂ := rank_lt_iff (j := right + 1) hlast
  have h₃ := rank_code hlast
  show (decide (s.rank left < s.rank inv.span.start) && decide (s.rank inv.span.stop ≤ s.rank (right + 1))) = true
    ↔ (decide (left < inv.span.start) && decide (inv.span.stop ≤ right + 1)) = true
  simp only [Bool.and_eq_true, decide_eq_true_eq, hstop]
  omega

theorem scan_compact (table : AliasTable) (s : TokenStream) :
    scan table s.compact = (scan table s).map (Invocation.relocate s.rank) := by
  rw [scan_eq_filterMap, scan_eq_filterMap]
  refine filterMap_range_compact (fun i hi => ?_) fun i hi => ?_
  · cases h : matchAt? table s i with
    | none => rfl
    | some inv => exact absurd (isCode_of_matchAt? h) hi
  · rw [matchAt?_compact hi]
    cases h : matchAt? table s i with
    | none => rfl
    | some inv =>
      have hin := isInside_compact (.of_matchAt? h)
      rw [map_some, filter_some, filter_some, Invocation.isConvertible, hin,
        Invocation.isConvertible]
      show (if (!(_ && inv.collaborator.isSome)) = true then _ else _) = _
      split <;> rfl

/-! ## §6. The converted stream. -/

theorem Call.Invocation.edits_relocate (f : Nat → Nat) (inv : Invocation) :
    (inv.relocate f).edits = inv.edits.map (Edit.relocate f) := by
  rw [Invocation.edits, Invocation.codeEdits, Invocation.edits, Invocation.codeEdits, List.map_map]
  cases h : inv.tail <;> simp [Invocation.relocate, h, CodeEdit.relocate, CodeEdit.toEdit, Edit.relocate, Span.relocate]

theorem callEdits_compact (table : AliasTable) (s : TokenStream) :
    callEdits table s.compact = (callEdits table s).map (Edit.relocate s.rank) := by
  rw [callEdits, scan_compact, flatMap_map, callEdits, map_flatMap]
  congr 1
  funext inv
  exact inv.edits_relocate s.rank

theorem callEdits_code {e : Edit Token} (he : e ∈ callEdits table s) :
    s.IsCode e.span.start ∧ e.span.start ≤ e.span.stop := by
  obtain ⟨inv, hinv, he⟩ := mem_flatMap.mp he
  obtain ⟨code, hcode, rfl⟩ := mem_map.mp he
  have hcall := isCall_mem hinv
  refine ⟨?_, (hcall.anatomy.codeEdits_inside hcode).2.1⟩
  rcases mem_cons.mp hcode with rfl | htail
  · exact isCode_of_matchAt? hcall
  · obtain ⟨left, close, commas, -, -, hclose, htop, -, hspan⟩ :=
      hcall.anatomy.tail_cases (mem_toList.mp htail)
    rcases hspan with hspan | ⟨comma, hmem, hspan⟩
    · rw [CodeEdit.toEdit, hspan]
      exact isCode_of_close hclose
    · rw [CodeEdit.toEdit, hspan]
      exact isCode_of_kind? (topCommas?_spec htop hmem).2.2 rfl

theorem significant_convertedStream (table : AliasTable) (s : TokenStream) :
    significant (convertedStream table s).tokens.toList
      = significant (convertedStream table s.compact).tokens.toList := by
  have := @significant_woven s (callEdits table s) fun e he => callEdits_code he
  rwa [← callEdits_compact] at this

end MageUplift
