/-!
# Batches of edits

An edit replaces a span of a sequence; an edit with an empty span inserts. All edits of a batch speak
about the positions of one snapshot, and the whole batch is applied at once, so no edit sees positions
that another one has shifted.

A batch is put in order first (`normalize`): sorted by span, insertions at one place joined in the order
in which they were given. It is refused when a span is out of bounds, and otherwise when two edits
overlap. `splice` then builds the result from front to back.
-/

namespace MageUplift

/-! ## §1. Spans and edits. -/

/-- The positions from `start` up to, but without, `stop`. -/
structure Span where
  start : Nat
  stop : Nat
  deriving Repr, DecidableEq

namespace Span

def empty (i : Nat) : Span := ⟨i, i⟩

def length (s : Span) : Nat := s.stop - s.start

def isEmpty (s : Span) : Bool := s.start == s.stop

def text (s : Span) : String := toString s.start ++ ".." ++ toString s.stop

def le (a b : Span) : Bool := a.start < b.start || (a.start == b.start && a.stop ≤ b.stop)

/-- The span lies within a sequence of `size` items and does not run backwards. -/
def fits (s : Span) (size : Nat) : Bool := s.start ≤ s.stop && s.stop ≤ size

end Span

/-- Puts `replacement` in the place of the items of `span`. -/
structure Edit (α : Type) where
  span : Span
  replacement : List α
  deriving Repr, DecidableEq

namespace Edit

variable {α : Type}

def insert (i : Nat) (items : List α) : Edit α := ⟨.empty i, items⟩

def delete (span : Span) : Edit α := ⟨span, []⟩

/-! ## §2. Putting a batch in order. -/

inductive Error where
  | outOfBounds (span : Span) (size : Nat)
  | overlapping (first second : Span)
  deriving Repr, DecidableEq

def Error.message : Error → String
  | .outOfBounds span size =>
    "edit span " ++ span.text ++ " is out of bounds for " ++ toString size ++ " tokens"
  | .overlapping first second => "overlapping edits: " ++ first.text ++ " overlaps " ++ second.text

/-- Joins insertions at one place and refuses an edit that starts before the end of the one before it.
`last` is the edit that precedes the list. -/
def coalesce (last : Edit α) : List (Edit α) → Except Error (List (Edit α))
  | [] => .ok [last]
  | e :: rest =>
    if last.span.isEmpty && last.span == e.span then
      coalesce ⟨last.span, last.replacement ++ e.replacement⟩ rest
    else if e.span.start < last.span.stop then .error (.overlapping last.span e.span)
    else (coalesce e rest).map (last :: ·)

/-- A batch against a sequence of `size` items, sorted, joined and free of overlaps. -/
def normalize (size : Nat) (edits : List (Edit α)) : Except Error (List (Edit α)) :=
  let sorted := edits.mergeSort fun a b => a.span.le b.span
  match sorted.find? fun e => !e.span.fits size with
  | some e => .error (.outOfBounds e.span size)
  | none =>
    match sorted with
    | [] => .ok []
    | e :: rest => coalesce e rest

/-! ## §3. Applying a batch. -/

/-- Applies edits in order to `rest`, which is what the sequence holds from position `i` on. -/
def splice (i : Nat) (rest : List α) : List (Edit α) → List α
  | [] => rest
  | e :: edits =>
    rest.take (e.span.start - i) ++ e.replacement
      ++ splice e.span.stop (rest.drop (e.span.stop - i)) edits

/-- Applies a whole batch at once. An empty batch changes nothing. -/
def applyAll (items : List α) (edits : List (Edit α)) : Except Error (List α) :=
  (normalize items.length edits).map (splice 0 items)

@[simp] theorem applyAll_nil (items : List α) : applyAll items [] = .ok items := by
  simp [applyAll, normalize, splice, Except.map]

end Edit

end MageUplift
