/-!
Blanks at the end of a text.
-/

namespace Scriptlet.Text

/-- The code points with the Unicode property White_Space. -/
def isWhiteSpace (c : Char) : Bool :=
  let n := c.toNat
  (0x09 ≤ n && n ≤ 0x0D) || n == 0x20 || n == 0x85 || n == 0xA0 || n == 0x1680 ||
    (0x2000 ≤ n && n ≤ 0x200A) || n == 0x2028 || n == 0x2029 || n == 0x202F || n == 0x205F ||
    n == 0x3000

/-- The list without the longest run of such elements at its end. -/
def dropEndWhile {α : Type} (p : α → Bool) (xs : List α) : List α :=
  (xs.reverse.dropWhile p).reverse

def trimEnd (text : String) : String :=
  String.ofList (dropEndWhile isWhiteSpace text.toList)

def spaces (n : Nat) : String :=
  String.ofList (List.replicate n ' ')

end Scriptlet.Text
