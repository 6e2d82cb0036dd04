/-
# Aligned text

Key definition: `alignRight`.
-/

namespace Intcode.Text

/-- A text with spaces before it up to a width; a longer one is left as it
is. -/
def alignRight (width : Nat) (s : String) : String :=
  String.ofList (List.replicate (width - s.length) ' ') ++ s

end Intcode.Text
