import MageUplift.Proofs.ByteReading

/-!
# Reading loses nothing

The lexer cuts a text into tokens and leaves nothing out, whatever the text is: strings, comments and heredocs
that are not terminated run to its end, and what cannot be read is a token of its own. Every cut stands
between two characters, so each token is a slice of the text, and no slice is empty. A scanner that walks over the
bytes of the text makes the same cuts, although it may step into the middle of a character.
-/

namespace MageUplift

open Php TokenStream String

/-! ## §1. Slices of a text. -/

theorem extract_of_splits {source a t b : String} {start stop : source.Pos} (hstart : start.Splits a (t ++ b))
    (hstop : stop.Splits (a ++ t) b) : source.extract start stop = t := by
  rw [← toByteArray_inj, toByteArray_extract, hstart.offset_eq_rawEndPos,
    hstop.offset_eq_rawEndPos, congrArg toByteArray hstart.eq_append]
  have hleft : a.toByteArray.extract a.utf8ByteSize (a.utf8ByteSize + t.utf8ByteSize) = ByteArray.empty :=
    ByteArray.extract_eq_empty_iff.mpr (Nat.min_le_right _ _)
  have hright : t.toByteArray.extract 0 t.utf8ByteSize = t.toByteArray := ByteArray.extract_zero_size
  simp [toByteArray_append, ByteArray.extract_append, hleft, hright]

/-- The tokens tile the text: put together they are the text, and each of them is the slice between two
boundaries of its characters, with the texts of the other tokens on both sides. The bytes are cut where the text is. -/
structure Tiles (source : String) (tokens : List Token) (slices : List (List UInt8)) : Prop where
  joined : joinTexts tokens = source
  slice : ∀ before t after, tokens = before ++ t :: after →
    ∃ start stop : source.Pos, start < stop ∧ source.extract start stop = t.text
      ∧ start.Splits (joinTexts before) (t.text ++ joinTexts after)
      ∧ stop.Splits (joinTexts before ++ t.text) (joinTexts after)
  nonempty : ∀ t ∈ tokens, t.text ≠ ""
  bytes : slices = tokens.map fun t => t.text.toByteArray.data.toList

/-- **Reading tiles the text**, in either mode. -/
theorem tiles_steps (mode : Mode) (source : String) : Tiles source ((steps mode none 0 source.toList).map LexStep.token)
    (byteSlices mode source.toByteArray.data.toList) := by
  have hjoined : joinTexts ((steps mode none 0 source.toList).map LexStep.token) = source := by
    rw [← toList_inj, toList_joinTexts, charsOf_steps]
  have hnonempty : ∀ t ∈ (steps mode none 0 source.toList).map LexStep.token, t.text ≠ "" := fun t ht hempty =>
    steps_text_ne_nil mode none 0 source.toList t ht (by rw [hempty]; rfl)
  refine ⟨hjoined, fun before t after htoks => ?_, hnonempty, ?_⟩
  · have hsplit : source = joinTexts before ++ (t.text ++ joinTexts after) := by
      rw [← hjoined, htoks, joinTexts_append, joinTexts, joinTexts, joinTexts, List.map_cons, join_cons]
    have hstart := Pos.splits_ofEqAppend hsplit
    have hstop := Pos.splits_ofEqAppend (hsplit.trans append_assoc.symm)
    refine ⟨_, _, ?_, extract_of_splits hstart hstop, hstart, hstop⟩
    rw [hstart.lt_iff_exists_eq_append hstop]
    exact ⟨t.text, hnonempty t (by simp [htoks]), rfl, rfl⟩
  · rw [byteSlices_eq, List.map_map]
    rfl

/-- **Nothing is lost when a text is read.** The tokens of a file tile its text, and so do those of a fragment of code,
and a scanner that walks over the bytes makes the same slices. In either mode and behind any token, it takes at least
one character and at most what is left, so no token is cut short by the end of the text. -/
theorem lex_tiles (source : String) :
    Tiles source (lex source) (byteSlices .html source.toByteArray.data.toList)
      ∧ Tiles source (lexFragment source) (byteSlices .php source.toByteArray.data.toList)
      ∧ ∀ mode last c cs, 0 < (lexeme mode last c cs).length ∧ (lexeme mode last c cs).length ≤ (c :: cs).length := by
  refine ⟨tiles_steps .html source, tiles_steps .php source, fun mode last c cs => ⟨?_, ?_⟩⟩
  · exact (lexeme mode last c cs).length_pos
  · rw [List.length_cons, Nat.add_comm]
    exact lexeme_length_le mode last c cs

end MageUplift
