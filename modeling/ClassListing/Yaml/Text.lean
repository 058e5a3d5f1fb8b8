namespace ClassListing.Yaml

/-- A character and where it stands. The index counts bytes, the column counts characters. -/
structure At where
  char : Char
  index : Nat
  line : Nat
  column : Nat
  deriving DecidableEq, Repr

abbrev Stream := List At

def isBlank (c : Char) : Bool := c == ' ' || c == '\t'

def isBreak (c : Char) : Bool :=
  c == '\r' || c == '\n' || c == '\x85' || c == '\u2028' || c == '\u2029'

/-- A carriage return and the line feed after it are one break. -/
def endsLine (c : Char) (next : Option Char) : Bool :=
  isBreak c && !(c == '\r' && next == some '\n')

def locateFrom (index line column : Nat) : List Char → Stream
  | [] => []
  | c :: rest =>
    ⟨c, index, line, column⟩ ::
      if endsLine c rest.head? then locateFrom (index + c.utf8Size) (line + 1) 0 rest
      else locateFrom (index + c.utf8Size) line (column + 1) rest

def locate (text : String) : Stream := locateFrom 0 0 0 text.toList

def isAllowed (c : Char) : Bool :=
  let n := c.val
  n == 0x09 || n == 0x0A || n == 0x0D || (0x20 ≤ n && n ≤ 0x7E) || n == 0x85 ||
    (0xA0 ≤ n && n ≤ 0xFFFD) || 0x10000 ≤ n

def peek (s : Stream) : Option Char := s.head?.map (·.char)

def startsWith (s : Stream) (c : Char) : Bool := peek s == some c

def isWordEnd (s : Stream) : Bool :=
  match peek s with
  | none => true
  | some c => isBlank c || isBreak c

def isLineEnd (s : Stream) : Bool :=
  match peek s with
  | none => true
  | some c => isBreak c

def isMarker (mark : Char) (s : Stream) : Bool :=
  match s with
  | a :: b :: c :: rest =>
    a.column == 0 && a.char == mark && b.char == mark && c.char == mark && isWordEnd rest
  | _ => false

def isDocumentMarker (s : Stream) : Bool := isMarker '-' s || isMarker '.' s

/-- A byte order mark at the start of a line is passed over, but takes its column. -/
def skipByteOrderMark (s : Stream) : Stream :=
  match s with
  | a :: rest => if a.column == 0 && a.char == '\ufeff' then rest else s
  | [] => []

def skipBreak : Stream → Stream
  | a :: b :: rest => if a.char == '\r' && b.char == '\n' then rest else b :: rest
  | _ => []

/-- The breaks among blanks and breaks. All but two kinds are the same in a text. -/
def breaksOf : List Char → List Char
  | [] => []
  | [c] => if isBlank c then [] else [if c == '\u2028' || c == '\u2029' then c else '\n']
  | c :: d :: rest =>
    if isBlank c || (c == '\r' && d == '\n') then breaksOf (d :: rest)
    else (if c == '\u2028' || c == '\u2029' then c else '\n') :: breaksOf (d :: rest)

/-- Breaks in a text that goes on: a single one is a blank, and of several the first is lost. -/
def foldBreaks : List Char → List Char
  | [] => []
  | ['\n'] => [' ']
  | '\n' :: others => others
  | breaks => breaks

def isGap (a : At) : Bool := isBlank a.char || isBreak a.char

def hasBreak (gap : Stream) : Bool := gap.any (isBreak ·.char)

/-- What blanks and breaks inside a text come to. Blanks beside a break are lost. -/
def gapText (gap : Stream) : List Char :=
  let chars := gap.map (·.char)
  if hasBreak gap then foldBreaks (breaksOf chars) else chars

end ClassListing.Yaml
