namespace ClassListing

def blankRanges : List (UInt32 × UInt32) :=
  [(0x09, 0x0D), (0x20, 0x20), (0x85, 0x85), (0xA0, 0xA0), (0x1680, 0x1680), (0x2000, 0x200A),
    (0x2028, 0x2029), (0x202F, 0x202F), (0x205F, 0x205F), (0x3000, 0x3000)]

def isBlank (c : Char) : Bool :=
  blankRanges.any fun range => range.1 ≤ c.val && c.val ≤ range.2

def isBlankText (text : String) : Bool :=
  text.toList.all isBlank

def trimRight (text : String) : String :=
  String.ofList ((text.toList.reverse.dropWhile isBlank).reverse)

end ClassListing
