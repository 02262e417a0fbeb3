/-!
# Blank characters and words

A character is blank when it has the Unicode property White_Space, a set of
twenty-five code points. A line is read through its words, the longest runs
without a blank; every other blank only separates.
-/

namespace CuttingPlanes.Text

/-- The property White_Space of Unicode. -/
def isBlank (c : Char) : Bool :=
  let n := c.toNat
  (9 ≤ n && n ≤ 13) || n == 0x20 || n == 0x85 || n == 0xA0 || n == 0x1680 ||
    (0x2000 ≤ n && n ≤ 0x200A) || n == 0x2028 || n == 0x2029 || n == 0x202F ||
    n == 0x205F || n == 0x3000

def trimStart (cs : List Char) : List Char := cs.dropWhile isBlank

def trimEnd (cs : List Char) : List Char := (cs.reverse.dropWhile isBlank).reverse

/-- The words of a text that starts with `c`, which is not blank, given the
character after `c` and the words from there on. -/
def wordsBefore (c : Char) (next : Option Char) (ws : List (List Char)) : List (List Char) :=
  match next, ws with
  | some d, w :: rest => if isBlank d then [c] :: w :: rest else (c :: w) :: rest
  | _, _ => [c] :: ws

/-- The longest runs of characters that are not blank, in order. -/
def words : List Char → List (List Char)
  | [] => []
  | c :: cs => if isBlank c then words cs else wordsBefore c cs.head? (words cs)

theorem words_cons_of_blank {c : Char} {cs : List Char} (h : isBlank c = true) :
    words (c :: cs) = words cs := by
  rw [words, if_pos h]

theorem words_cons_of_not_blank {c : Char} {cs : List Char} (h : isBlank c = false) :
    words (c :: cs) = wordsBefore c cs.head? (words cs) := by
  rw [words, if_neg (by rw [h]; decide)]

end CuttingPlanes.Text
