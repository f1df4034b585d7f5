/-! # Blank characters and trimming

* `isWhite`: Unicode's `White_Space` property.
* `isBlank`: what counts as blank around an answer, `White_Space` and the four information
  separators U+001C to U+001F.
* `trim`: a text without the characters of a class at both ends.
* `split`: the pieces of a text between the occurrences of a separator. -/

namespace Scaffold.Text

/-- A code point lies in one of the ranges, both ends included. -/
def inRanges (ranges : List (Nat × Nat)) (n : Nat) : Bool :=
  ranges.any fun r => r.1 ≤ n && n ≤ r.2

/-- The code points with the property `White_Space`. -/
def whiteRanges : List (Nat × Nat) :=
  [(0x09, 0x0D), (0x20, 0x20), (0x85, 0x85), (0xA0, 0xA0), (0x1680, 0x1680), (0x2000, 0x200A),
   (0x2028, 0x2029), (0x202F, 0x202F), (0x205F, 0x205F), (0x3000, 0x3000)]

/-- A character with the property `White_Space`. -/
def isWhite (c : Char) : Bool := inRanges whiteRanges c.toNat

/-- A blank character: white space or an information separator. -/
def isBlank (c : Char) : Bool := isWhite c || inRanges [(0x1C, 0x1F)] c.toNat

/-- The characters left after those of a class are taken away at both ends. -/
def trimChars (p : Char → Bool) (cs : List Char) : List Char :=
  ((cs.dropWhile p).reverse.dropWhile p).reverse

/-- A text without the characters of a class at both ends. -/
def trim (p : Char → Bool) (s : String) : String := String.ofList (trimChars p s.toList)

/-- The pieces between the occurrences of a separator. -/
def split (sep : Char) : List Char → List (List Char)
  | [] => [[]]
  | c :: cs =>
    if c = sep then [] :: split sep cs
    else match split sep cs with
      | [] => [[c]]
      | p :: ps => (c :: p) :: ps

/-- The pieces of a text between the occurrences of a separator. -/
def pieces (sep : Char) (s : String) : List String := (split sep s.toList).map String.ofList

theorem split_ne_nil (sep : Char) (cs : List Char) : split sep cs ≠ [] := by
  cases cs with
  | nil => simp [split]
  | cons c cs =>
    rw [split]
    split
    · simp
    · split <;> simp

end Scaffold.Text
