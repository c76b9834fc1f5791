/-!
# Byte offsets in a text

Places in a source are byte offsets of its encoding in UTF-8, while the source itself is a list of
characters.

* `splitAtByte`: the characters before and after a byte offset.  An offset inside a character counts
  as the offset of that character, and one beyond the end as the end.
-/

namespace FrameLang

/-- The longest first part of at most `n` bytes, and the rest. -/
def splitAtByte : Nat → List Char → List Char × List Char
  | _, [] => ([], [])
  | n, c :: cs =>
    if c.utf8Size ≤ n then
      let (before, after) := splitAtByte (n - c.utf8Size) cs
      (c :: before, after)
    else ([], c :: cs)

end FrameLang
