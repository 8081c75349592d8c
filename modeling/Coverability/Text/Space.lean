/-!
# White space and lines

White space is the Unicode property White_Space. `trim` removes it at both ends of a text, and
`lines` cuts a text at its line feeds.
-/

namespace Coverability.Text

/-- Whether the character has the Unicode property White_Space. -/
def isSpace (c : Char) : Bool :=
  let code := c.toNat
  (9 ≤ code && code ≤ 13) || code == 0x20 || code == 0x85 || code == 0xa0 || code == 0x1680 ||
    (0x2000 ≤ code && code ≤ 0x200a) || code == 0x2028 || code == 0x2029 || code == 0x202f ||
    code == 0x205f || code == 0x3000

def trim (cs : List Char) : List Char :=
  ((cs.dropWhile isSpace).reverse.dropWhile isSpace).reverse

/-- The pieces between line feeds, the last one included even if it is empty. -/
def lines : List Char → List (List Char)
  | [] => [[]]
  | c :: cs =>
    if c = '\n' then [] :: lines cs
    else
      match lines cs with
      | [] => [[c]]
      | line :: rest => (c :: line) :: rest

example : trim [' ', '\t', 'a', ' ', 'b', '\r'] = ['a', ' ', 'b'] := by decide

example : lines ['a', '\n', '\n', 'b'] = [['a'], [], ['b']] := by decide

end Coverability.Text
