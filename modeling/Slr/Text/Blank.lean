/-!
Blank characters: the white space of Unicode (property `White_Space`) and the four information
separators U+001C to U+001F. `trimEnd` drops a longest blank tail and nothing else.
-/

namespace Slr.Text

def isBlank (c : Char) : Bool :=
  let n := c.toNat
  (0x09 ≤ n && n ≤ 0x0D) || (0x1C ≤ n && n ≤ 0x20) || n == 0x85 || n == 0xA0 || n == 0x1680 ||
    (0x2000 ≤ n && n ≤ 0x200A) || n == 0x2028 || n == 0x2029 || n == 0x202F || n == 0x205F ||
    n == 0x3000

def skipBlanks (cs : List Char) : List Char := cs.dropWhile isBlank

def trimEnd : List Char → List Char
  | [] => []
  | c :: cs =>
    match trimEnd cs with
    | [] => if isBlank c then [] else [c]
    | r => c :: r

theorem trimEnd_cons_of_not_blank {c : Char} {cs : List Char} (h : isBlank c = false) :
    trimEnd (c :: cs) = c :: trimEnd cs := by
  rw [trimEnd]
  cases hr : trimEnd cs <;> simp [h]

end Slr.Text
