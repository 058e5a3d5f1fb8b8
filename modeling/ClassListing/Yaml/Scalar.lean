import ClassListing.Json.Reader
import ClassListing.Yaml.Text

namespace ClassListing.Yaml

inductive Style where
  | plain
  | quoted
  | literal
  | folded
  deriving DecidableEq, Repr

def isFlowIndicator (c : Char) : Bool :=
  c == ',' || c == '[' || c == ']' || c == '\x7b' || c == '\x7d'

def plainWord? (inFlow : Bool) : Stream → Option (List Char × Stream)
  | [] => some ([], [])
  | a :: rest =>
    let next := peek rest
    if isGap a then some ([], a :: rest)
    else if inFlow && a.char == ':' && next.any (fun c => isFlowIndicator c || c == '?') then none
    else if (a.char == ':' && isWordEnd rest) || (inFlow && isFlowIndicator a.char) then
      some ([], a :: rest)
    else do
      let (word, rest) ← plainWord? inFlow rest
      return (a.char :: word, rest)

/-- A tab on a line after the first, in front of where the lines of a scalar start. -/
def hasTabInIndent (indent : Int) (gap : Stream) : Bool :=
  (gap.dropWhile fun a => isBlank a.char).any fun a => a.char == '\t' && a.column < indent

structure Plain where
  text : List Char
  rest : Stream
  /-- The scalar is followed by a break, so that a key may come next. -/
  brokeLine : Bool

/-- A plain scalar. In a block its further lines start at `indent` or after it. -/
def plain? (inFlow : Bool) (indent : Int) (fuel : Nat) (pending : List Char) (s : Stream) :
    Option Plain :=
  match fuel with
  | 0 => none
  | fuel + 1 => do
    if isDocumentMarker s || startsWith s '#' then return ⟨[], s, false⟩
    let (word, rest) ← plainWord? inFlow s
    if word.isEmpty then return ⟨[], s, false⟩
    let gap := rest.takeWhile isGap
    let after := rest.dropWhile isGap
    if hasTabInIndent indent gap then none
    let outdented := !inFlow && after.head?.any fun a => a.column < indent
    let following ←
      if gap.isEmpty || outdented then pure ⟨[], after, false⟩
      else plain? inFlow indent fuel (gapText gap) after
    return ⟨pending ++ word ++ following.text, following.rest,
      if following.text.isEmpty then hasBreak gap else following.brokeLine⟩

def hexNumber? (digits : List Char) : Option Nat :=
  digits.foldlM (fun n c => return n * 16 + (← Json.hexValue? c).toNat) 0

def numbered? (width : Nat) (s : Stream) : Option (Char × Stream) := do
  let digits := s.take width
  if digits.length < width then none
  else
    let n ← hexNumber? (digits.map (·.char))
    if n.isValidChar then return (Char.ofNat n, s.drop width) else none

def escaped? (c : Char) : Option Char :=
  match c with
  | '0' => some '\x00'
  | 'a' => some '\x07'
  | 'b' => some '\x08'
  | 't' | '\t' => some '\t'
  | 'n' => some '\n'
  | 'v' => some '\x0b'
  | 'f' => some '\x0c'
  | 'r' => some '\r'
  | 'e' => some '\x1b'
  | ' ' | '"' | '/' | '\\' => some c
  | 'N' => some '\x85'
  | '_' => some '\xa0'
  | 'L' => some '\u2028'
  | 'P' => some '\u2029'
  | _ => none

def escape? (s : Stream) : Option (Char × Stream) :=
  match s with
  | [] => none
  | a :: rest =>
    match a.char with
    | 'x' => numbered? 2 rest
    | 'u' => numbered? 4 rest
    | 'U' => numbered? 8 rest
    | c => (escaped? c).map fun c => (c, rest)

/-- A quoted scalar after its opening quote. A doubled single quote stands for one; escapes are
known only between double quotes. -/
def quoted? (mark : Char) (fuel : Nat) (s : Stream) : Option (List Char × Stream) :=
  match fuel with
  | 0 => none
  | fuel + 1 =>
    if isDocumentMarker s then none
    else
      match s with
      | [] => none
      | a :: rest =>
        let go (chars : List Char) (rest : Stream) : Option (List Char × Stream) := do
          let (others, rest) ← quoted? mark fuel rest
          return (chars ++ others, rest)
        if isGap a then
          let gap := s.takeWhile isGap
          go (gapText gap) (s.dropWhile isGap)
        else if a.char == mark then
          if mark == '\'' && startsWith rest '\'' then go ['\''] (rest.drop 1)
          else some ([], rest)
        else if mark == '"' && a.char == '\\' then
          if (peek rest).any isBreak then
            let below := skipBreak rest
            go (breaksOf ((below.takeWhile isGap).map (·.char))) (below.dropWhile isGap)
          else do
            let (c, rest) ← escape? rest
            go [c] rest
        else go [a.char] rest

inductive Chomp where
  | strip
  | clip
  | keep
  deriving DecidableEq, Repr

def chomp? (c : Char) : Option Chomp :=
  if c = '+' then some .keep else if c = '-' then some .strip else none

def indentMark? (c : Char) : Option Nat :=
  if '1' ≤ c ∧ c ≤ '9' then some (c.toNat - '0'.toNat) else none

def blockHead (s : Stream) : Chomp × Option Nat × Stream :=
  match s with
  | [] => (.clip, none, [])
  | a :: rest =>
    match chomp? a.char, indentMark? a.char with
    | some chomp, _ =>
      match (peek rest).bind indentMark? with
      | some n => (chomp, some n, rest.drop 1)
      | none => (chomp, none, rest)
    | none, some n =>
      match (peek rest).bind chomp? with
      | some chomp => (chomp, some n, rest.drop 1)
      | none => (.clip, some n, rest)
    | none, none => (.clip, none, s)

def restOfLine? (s : Stream) : Option Stream :=
  let s := s.dropWhile fun a => isBlank a.char
  let s := if startsWith s '#' then s.dropWhile fun a => !isBreak a.char else s
  if isLineEnd s then some (skipBreak s) else none

/-- Empty lines in front of a line of a block: their breaks, the greatest column reached, and the
rest. Lines are moved in by `indent`, or as far as it goes while that is not known. -/
def emptyLines? (indent : Option Nat) (fuel : Nat) (s : Stream) :
    Option (List Char × Nat × Stream) :=
  match fuel with
  | 0 => none
  | fuel + 1 =>
    let isIndent (a : At) : Bool := indent.all fun n => a.column < n
    let spaces := s.takeWhile fun a => a.char == ' ' && isIndent a
    let after := s.dropWhile fun a => a.char == ' ' && isIndent a
    let reached := match spaces.getLast? with
      | some a => a.column + 1
      | none => 0
    match after with
    | [] => some ([], reached, [])
    | a :: _ =>
      if a.char == '\t' && isIndent a then none
      else if isBreak a.char then do
        let (breaks, deepest, rest) ← emptyLines? indent fuel (skipBreak after)
        return (breaksOf [a.char] ++ breaks, max reached deepest, rest)
      else some ([], reached, after)

/-- The lines of a block. `leading` is the break before the next line, `breaks` are those of the
empty lines after it, and `wasBlank` tells whether the line before starts with a blank. -/
def blockLines? (literal : Bool) (chomp : Chomp) (indent fuel : Nat)
    (leading breaks : List Char) (wasBlank : Bool) (s : Stream) : Option (List Char × Stream) :=
  match fuel with
  | 0 => none
  | fuel + 1 =>
    match s with
    | a :: _ =>
      if a.column == indent then do
        let startsBlank := isBlank a.char
        let joined :=
          if !literal && leading == ['\n'] && !wasBlank && !startsBlank then
            if breaks.isEmpty then [' '] else breaks
          else leading ++ breaks
        let line := (s.takeWhile fun a => !isBreak a.char).map (·.char)
        let after := s.dropWhile fun a => !isBreak a.char
        let newLeading := breaksOf ((after.take 1).map (·.char))
        let (newBreaks, _, rest) ← emptyLines? (some indent) (fuel + 1) (skipBreak after)
        let (others, rest) ←
          blockLines? literal chomp indent fuel newLeading newBreaks startsBlank rest
        return (joined ++ line ++ others, rest)
      else some (tail, s)
    | [] => some (tail, [])
where
  tail : List Char :=
    match chomp with
    | .strip => []
    | .clip => leading
    | .keep => leading ++ breaks

def block? (literal : Bool) (parent : Int) (fuel : Nat) (s : Stream) :
    Option (List Char × Stream) := do
  let (chomp, mark, rest) := blockHead s
  let below ← restOfLine? rest
  let given : Option Nat := mark.map fun n => if 0 ≤ parent then parent.toNat + n else n
  let (breaks, deepest, rest) ← emptyLines? given fuel below
  let indent := given.getD (max deepest (max (parent + 1).toNat 1))
  blockLines? literal chomp indent fuel [] breaks false rest

end ClassListing.Yaml
