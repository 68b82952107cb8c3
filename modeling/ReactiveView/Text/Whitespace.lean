import ReactiveView.Text.Ranges

namespace ReactiveView

/-- The code points with the Unicode property `White_Space`: tab to carriage return, space, next
line, no-break space, Ogham space, the typographic spaces, the two separators, narrow no-break
space, mathematical space and ideographic space. -/
def whiteSpaceRanges : Ranges :=
  [(0x09, 0x0d), (0x20, 0x20), (0x85, 0x85), (0xa0, 0xa0), (0x1680, 0x1680), (0x2000, 0x200a),
    (0x2028, 0x2029), (0x202f, 0x202f), (0x205f, 0x205f), (0x3000, 0x3000)]

def isSpace (c : Char) : Bool := whiteSpaceRanges.holds c.toNat

def trimEnd (cs : List Char) : List Char :=
  (cs.reverse.dropWhile isSpace).reverse

def trim (cs : List Char) : List Char :=
  trimEnd (cs.dropWhile isSpace)

end ReactiveView
