/-!
White space: the characters that carry no ink, by the Unicode property of that name.
-/

namespace ReleaseTrain.Text

def blankRanges : List (Nat × Nat) :=
  [(0x9, 0xD), (0x20, 0x20), (0x85, 0x85), (0xA0, 0xA0), (0x1680, 0x1680), (0x2000, 0x200A),
    (0x2028, 0x2029), (0x202F, 0x202F), (0x205F, 0x205F), (0x3000, 0x3000)]

def isBlank (c : Char) : Bool :=
  blankRanges.any fun (lo, hi) ↦ lo ≤ c.toNat && c.toNat ≤ hi

/-- A text with nothing but white space in it; the empty text is one. -/
def blank (s : String) : Bool := s.toList.all isBlank

example : blank "\t \u3000" = true := by decide
example : blank "\u200b" = false := by decide

end ReleaseTrain.Text
