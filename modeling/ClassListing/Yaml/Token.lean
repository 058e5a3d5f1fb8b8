import ClassListing.Yaml.Scalar
import ClassListing.Yaml.Tag

namespace ClassListing.Yaml

inductive Token where
  | version (major minor : Nat)
  | tagHandle (handle : String) (target : Octets)
  | documentStart
  | documentEnd
  | blockSequenceStart
  | blockMappingStart
  | blockEnd
  | flowSequenceStart
  | flowSequenceEnd
  | flowMappingStart
  | flowMappingEnd
  | blockEntry
  | flowEntry
  | key
  | value
  | alias (name : String)
  | anchor (name : String)
  | tag (handle : String) (suffix : Octets)
  | scalar (style : Style) (text : String)
  deriving DecidableEq, Repr

/-- A token that may turn out to start a key. `required` marks one that has to, because the block
around it goes on there. -/
structure Candidate where
  place : Nat
  required : Bool
  index : Nat
  line : Nat
  column : Nat
  deriving DecidableEq, Repr

/-- The list `candidates` holds one slot for each level of brackets, the innermost first. No loop
over the stream takes more than `size` rounds. -/
structure Scanner where
  stream : Stream
  size : Nat
  tokens : Array Token := #[]
  indent : Int := -1
  indents : List Int := []
  flow : Nat := 0
  keyAllowed : Bool := true
  candidates : List (Option Candidate) := [none]

namespace Scanner

def push (sc : Scanner) (token : Token) : Scanner :=
  { sc with tokens := sc.tokens.push token }

def insertAt (sc : Scanner) (place : Nat) (token : Token) : Scanner :=
  { sc with tokens := sc.tokens.insertIdxIfInBounds place token }

def unroll (sc : Scanner) (column : Int) : Scanner :=
  if 0 < sc.flow then sc
  else
    let ended := (sc.indent :: sc.indents).takeWhile (column < ·)
    let left := (sc.indent :: sc.indents).dropWhile (column < ·)
    { sc with
      tokens := sc.tokens ++ (ended.map fun _ => Token.blockEnd).toArray
      indent := left.headD (-1)
      indents := left.tail }

def roll (sc : Scanner) (column : Nat) (place : Nat) (token : Token) : Scanner :=
  if sc.flow = 0 ∧ sc.indent < column then
    { sc.insertAt place token with indent := column, indents := sc.indent :: sc.indents }
  else sc

def dropCandidate? (sc : Scanner) : Option Scanner :=
  match sc.candidates with
  | some candidate :: others =>
    if candidate.required then none else some { sc with candidates := none :: others }
  | _ => some sc

def saveCandidate? (sc : Scanner) (a : At) : Option Scanner :=
  if sc.keyAllowed then do
    let sc ← sc.dropCandidate?
    let candidate : Candidate :=
      ⟨sc.tokens.size, sc.flow = 0 && sc.indent == a.column, a.index, a.line, a.column⟩
    return { sc with candidates := some candidate :: sc.candidates.tail }
  else some sc

/-- A key is on one line, and its colon comes within 1024 bytes. -/
def isStale (a : At) (candidate : Candidate) : Bool :=
  candidate.line < a.line || candidate.index + 1024 < a.index

def dropStale? (sc : Scanner) (a : At) : Option Scanner :=
  if sc.candidates.any fun slot => slot.any fun c => isStale a c && c.required then none
  else some { sc with candidates := sc.candidates.map fun slot => slot.filter (!isStale a ·) }

/-- Blanks, comments and breaks between tokens. A tab is a blank only where no key may stand. -/
def skipToToken (fuel : Nat) (sc : Scanner) : Scanner :=
  match fuel with
  | 0 => sc
  | fuel + 1 =>
    let tabs := 0 < sc.flow || !sc.keyAllowed
    let s := (skipByteOrderMark sc.stream).dropWhile fun a =>
      a.char == ' ' || (tabs && a.char == '\t')
    let s := if startsWith s '#' then s.dropWhile fun a => !isBreak a.char else s
    if (peek s).any isBreak then
      skipToToken fuel
        { sc with stream := skipBreak s, keyAllowed := sc.keyAllowed || sc.flow = 0 }
    else { sc with stream := s }

def name? (s : Stream) : Option (String × Stream) :=
  let name := s.takeWhile isNameChar
  let rest := s.dropWhile isNameChar
  let ended := isWordEnd rest || (peek rest).any fun c => "?:,]\x7d%@`".toList.contains c
  if name.isEmpty || !ended then none else some (textOf name, rest)

def number? (s : Stream) : Option (Nat × Stream) :=
  let digits := s.takeWhile (·.char.isDigit)
  if digits.isEmpty || 9 < digits.length then none
  else some (digits.foldl (fun n a => n * 10 + (a.char.toNat - '0'.toNat)) 0,
    s.dropWhile (·.char.isDigit))

def skipBlanks (s : Stream) : Stream := s.dropWhile fun a => isBlank a.char

def version? (s : Stream) : Option (Token × Stream) := do
  let (major, rest) ← number? (skipBlanks s)
  if startsWith rest '.' then
    let (minor, rest) ← number? (rest.drop 1)
    return (.version major minor, rest)
  else none

def tagHandle? (s : Stream) : Option (Token × Stream) := do
  let (handle, rest) ← handle? (skipBlanks s)
  if (peek rest).any isBlank then
    let (target, rest) ← someSuffix? true (skipBlanks rest)
    if isWordEnd rest then return (.tagHandle handle target, rest) else none
  else none

def directive? (s : Stream) : Option (Token × Stream) := do
  let name := textOf (s.takeWhile isNameChar)
  let rest := s.dropWhile isNameChar
  if isWordEnd rest then
    let (token, rest) ←
      if name = "YAML" then version? rest
      else if name = "TAG" then tagHandle? rest
      else none
    return (token, ← restOfLine? rest)
  else none

/-- The characters that no plain scalar starts with, or only when others follow. -/
def indicators : List Char := " \t-?:,[]\x7b\x7d#&*!|>'\"%@`".toList

def startsPlain (inFlow : Bool) (c : Char) (rest : Stream) : Bool :=
  !indicators.contains c || (c == '-' && !(peek rest).any isBlank) ||
    (!inFlow && (c == '?' || c == ':') && !isWordEnd rest)

def bracket? (sc : Scanner) (a : At) (rest : Stream) : Option Scanner := do
  match a.char with
  | '[' | '\x7b' =>
    let sc ← sc.saveCandidate? a
    let token := if a.char == '[' then Token.flowSequenceStart else Token.flowMappingStart
    let sc := sc.push token
    return { sc with
      stream := rest, keyAllowed := true, flow := sc.flow + 1, candidates := none :: sc.candidates }
  | ']' | '\x7d' =>
    let sc ← sc.dropCandidate?
    let token := if a.char == ']' then Token.flowSequenceEnd else Token.flowMappingEnd
    let sc := sc.push token
    let candidates := if sc.flow = 0 then sc.candidates else sc.candidates.tail
    return { sc with stream := rest, keyAllowed := false, flow := sc.flow - 1, candidates }
  | ',' =>
    let sc ← sc.dropCandidate?
    return { sc.push .flowEntry with stream := rest, keyAllowed := true }
  | _ => none

def entry? (sc : Scanner) (a : At) (rest : Stream) : Option Scanner := do
  if sc.flow = 0 && !sc.keyAllowed then none
  else
    let sc := sc.roll a.column sc.tokens.size .blockSequenceStart
    let sc ← sc.dropCandidate?
    return { sc.push .blockEntry with stream := rest, keyAllowed := true }

def key? (sc : Scanner) (a : At) (rest : Stream) : Option Scanner := do
  if sc.flow = 0 && !sc.keyAllowed then none
  else
    let sc := sc.roll a.column sc.tokens.size .blockMappingStart
    let sc ← sc.dropCandidate?
    return { sc.push .key with stream := rest, keyAllowed := sc.flow = 0 }

def value? (sc : Scanner) (a : At) (rest : Stream) : Option Scanner :=
  match sc.candidates with
  | some candidate :: others =>
    let sc := sc.insertAt candidate.place .key
    let sc := sc.roll candidate.column candidate.place .blockMappingStart
    some { sc.push .value with
      stream := rest, keyAllowed := false, candidates := none :: others }
  | _ =>
    if sc.flow = 0 && !sc.keyAllowed then none
    else
      let sc := sc.roll a.column sc.tokens.size .blockMappingStart
      some { sc.push .value with stream := rest, keyAllowed := sc.flow = 0 }

def endBlocks? (sc : Scanner) : Option Scanner := do
  let sc ← (sc.unroll (-1)).dropCandidate?
  return { sc with keyAllowed := false }

def content? (sc : Scanner) (a : At) (rest : Stream) : Option Scanner := do
  let inFlow := decide (0 < sc.flow)
  match a.char with
  | '*' =>
    let sc ← sc.saveCandidate? a
    let (name, rest) ← name? rest
    return { sc.push (.alias name) with stream := rest, keyAllowed := false }
  | '&' =>
    let sc ← sc.saveCandidate? a
    let (name, rest) ← name? rest
    return { sc.push (.anchor name) with stream := rest, keyAllowed := false }
  | '!' =>
    let sc ← sc.saveCandidate? a
    let (handle, suffix, rest) ← tag? inFlow rest
    return { sc.push (.tag handle suffix) with stream := rest, keyAllowed := false }
  | '\'' | '"' =>
    let sc ← sc.saveCandidate? a
    let (text, rest) ← quoted? a.char sc.size rest
    return { sc.push (.scalar .quoted (String.ofList text)) with
      stream := rest, keyAllowed := false }
  | c =>
    if (c == '|' || c == '>') && !inFlow then
      let sc ← sc.dropCandidate?
      let (text, rest) ← block? (c == '|') sc.indent sc.size rest
      let style := if c == '|' then Style.literal else Style.folded
      return { sc.push (.scalar style (String.ofList text)) with
        stream := rest, keyAllowed := true }
    else if startsPlain inFlow c rest then
      let sc ← sc.saveCandidate? a
      let found ← plain? inFlow (sc.indent + 1) sc.size [] (a :: rest)
      return { sc.push (.scalar .plain (String.ofList found.text)) with
        stream := found.rest, keyAllowed := found.brokeLine }
    else none

def token? (sc : Scanner) (a : At) (rest : Stream) : Option Scanner := do
  let sc ← sc.dropStale? a
  let sc := sc.unroll a.column
  let inFlow := decide (0 < sc.flow)
  if a.column == 0 && a.char == '%' then
    let sc ← sc.endBlocks?
    let (token, rest) ← directive? rest
    return { sc.push token with stream := rest }
  else if isMarker '-' (a :: rest) then
    let sc ← sc.endBlocks?
    return { sc.push .documentStart with stream := rest.drop 2 }
  else if isMarker '.' (a :: rest) then
    let sc ← sc.endBlocks?
    return { sc.push .documentEnd with stream := rest.drop 2 }
  else if "[]\x7b\x7d,".toList.contains a.char then sc.bracket? a rest
  else if a.char == '-' && isWordEnd rest then sc.entry? a rest
  else if a.char == '?' && (inFlow || isWordEnd rest) then sc.key? a rest
  else if a.char == ':' && (inFlow || isWordEnd rest) then sc.value? a rest
  else sc.content? a rest

def scan? (fuel : Nat) (sc : Scanner) : Option (List Token) :=
  match fuel with
  | 0 => none
  | fuel + 1 =>
    let sc := skipToToken sc.size sc
    match sc.stream with
    | [] => do
      let sc ← sc.endBlocks?
      return sc.tokens.toList
    | a :: rest => do
      let sc ← sc.token? a rest
      scan? fuel sc

end Scanner

def tokens? (text : String) : Option (List Token) :=
  if text.toList.all isAllowed then
    let stream := locate text
    let size := stream.length + 2
    Scanner.scan? size { stream, size }
  else none

end ClassListing.Yaml
