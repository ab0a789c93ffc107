/-!
# Cutting a text at a separator

`split` cuts at every occurrence of a separator and always gives at least one piece; `splitOnce?` cuts at
the first occurrence and asks for one. `hasInfix` looks for a text inside another.
-/

namespace MageUplift.Text

def split (sep : Char) : List Char → List (List Char)
  | [] => [[]]
  | c :: cs =>
    if c == sep then [] :: split sep cs
    else
      match split sep cs with
      | [] => [[c]]
      | piece :: pieces => (c :: piece) :: pieces

theorem split_eq_splitOn (sep : Char) (cs : List Char) : split sep cs = cs.splitOn sep := by
  induction cs with
  | nil => rfl
  | cons c cs ih =>
    rw [split, List.splitOn_cons_eq_if_modifyHead, ih]
    split
    · rfl
    · cases hsplit : List.splitOn sep cs with
      | nil => exact absurd hsplit (List.splitOn_ne_nil sep cs)
      | cons piece pieces => rfl

theorem split_ne_nil (sep : Char) (cs : List Char) : split sep cs ≠ [] := by
  rw [split_eq_splitOn]
  exact List.splitOn_ne_nil sep cs

theorem split_append (sep : Char) (a b : List Char) : split sep (a ++ sep :: b) = split sep a ++ split sep b := by
  simp only [split_eq_splitOn, List.splitOn_append_cons_self]

def splitOnce? (sep : Char) : List Char → Option (List Char × List Char)
  | [] => none
  | c :: cs =>
    if c == sep then some ([], cs)
    else (splitOnce? sep cs).map fun (before, after) => (c :: before, after)

def hasInfix (part : List Char) : List Char → Bool
  | [] => part.isEmpty
  | c :: cs => part.isPrefixOf (c :: cs) || hasInfix part cs

def joinWith (sep : List Char) (pieces : List (List Char)) : List Char := sep.intercalate pieces

theorem split_joinWith {sep : Char} {pieces : List (List Char)} (hne : pieces ≠ []) (hclean : ∀ p ∈ pieces, sep ∉ p) :
    split sep (joinWith [sep] pieces) = pieces := by
  rw [split_eq_splitOn, joinWith, List.splitOn_intercalate sep hclean hne]

end MageUplift.Text
