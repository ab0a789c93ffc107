import MageUplift.Text.Lowercase

/-!
# Case folding

The simple case folding of Unicode sends one character to one character; two characters that it sends to
the same place differ in case only.
-/

namespace MageUplift.Text

/-- The characters that folding moves: capitals to their small letters, and letters that have no capital
of their own to the usual form of the same letter. Of the Cherokee letters it is the small ones that
move. -/
def foldShifts : List Shift :=
  [⟨181, 181, 1, 775⟩, ⟨383, 383, 1, -268⟩, ⟨837, 837, 1, 116⟩, ⟨962, 962, 1, 1⟩, ⟨976, 976, 1, -30⟩,
   ⟨977, 977, 1, -25⟩, ⟨981, 981, 1, -15⟩, ⟨982, 982, 1, -22⟩, ⟨1008, 1008, 1, -54⟩,
   ⟨1009, 1009, 1, -48⟩, ⟨1013, 1013, 1, -64⟩, ⟨5112, 5117, 1, -8⟩, ⟨7296, 7296, 1, -6222⟩,
   ⟨7297, 7297, 1, -6221⟩, ⟨7298, 7298, 1, -6212⟩, ⟨7299, 7300, 1, -6210⟩, ⟨7301, 7301, 1, -6211⟩,
   ⟨7302, 7302, 1, -6204⟩, ⟨7303, 7303, 1, -6180⟩, ⟨7304, 7304, 1, 35267⟩, ⟨7835, 7835, 1, -58⟩,
   ⟨8126, 8126, 1, -7173⟩, ⟨8147, 8147, 1, -7235⟩, ⟨8163, 8163, 1, -7219⟩, ⟨42956, 42956, 1, 1⟩,
   ⟨42960, 42960, 1, 1⟩, ⟨42966, 42970, 2, 1⟩, ⟨43888, 43967, 1, -38864⟩, ⟨64261, 64261, 1, 1⟩]
  ++ lowercaseShifts.filter fun s => s.first ∉ [5024, 5104, 42956, 93856]

def foldCase (c : Char) : Char :=
  if c.toNat < 128 then c.toLower else (shifted? foldShifts c).getD c

def sameLetter (a b : Char) : Bool := foldCase a == foldCase b

def caseVariants (c : Char) : List Char :=
  let base := foldCase c
  base :: foldShifts.filterMap fun s => s.source? base

end MageUplift.Text
