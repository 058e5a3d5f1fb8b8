import ClassListing.Yaml.Token

namespace ClassListing.Yaml

structure Properties where
  anchor : Option String := none
  tag : Option Octets := none
  deriving DecidableEq, Repr

inductive Node where
  | alias (name : String)
  | scalar (properties : Properties) (style : Style) (text : String)
  | sequence (properties : Properties) (items : List Node)
  | mapping (properties : Properties) (members : List (Node × Node))
  deriving Repr

def Node.empty : Node := .scalar {} .plain ""

abbrev Handles := List (String × Octets)

def standardHandles : Handles := [("!", asciiOctets "!"), ("!!", asciiOctets "tag:yaml.org,2002:")]

def expandTag? (handles : Handles) (handle : String) (suffix : Octets) : Option Octets :=
  if handle = "" then some suffix else (handles.lookup handle).map (· ++ suffix)

def properties? (handles : Handles) : List Token → Option (Properties × List Token)
  | .anchor name :: .tag handle suffix :: rest
  | .tag handle suffix :: .anchor name :: rest => do
    return (⟨some name, some (← expandTag? handles handle suffix)⟩, rest)
  | .anchor name :: rest => some (⟨some name, none⟩, rest)
  | .tag handle suffix :: rest => do
    return (⟨none, some (← expandTag? handles handle suffix)⟩, rest)
  | rest => some ({}, rest)

inductive Position where
  | block
  | member
  | flow
  deriving DecidableEq, Repr

def endsMember : List Token → Bool
  | .key :: _ | .value :: _ | .blockEnd :: _ => true
  | _ => false

def endsEntry : List Token → Bool
  | .blockEntry :: _ | .blockEnd :: _ => true
  | _ => false

def endsFlow (close : Token) : List Token → Bool
  | token :: _ => token == .flowEntry || token == close
  | [] => false

def endsKey (close : Token) (tokens : List Token) : Bool :=
  endsFlow close tokens || tokens.head? == some .value

mutual

def node? (handles : Handles) (fuel : Nat) (position : Position) (tokens : List Token) :
    Option (Node × List Token) :=
  match fuel with
  | 0 => none
  | fuel + 1 =>
    match tokens with
    | .alias name :: rest => some (.alias name, rest)
    | _ => do
      let (props, rest) ← properties? handles tokens
      match rest with
      | .scalar style text :: rest => return (.scalar props style text, rest)
      | .flowSequenceStart :: rest =>
        let (items, rest) ← flowItems? handles fuel true rest
        return (.sequence props items, rest)
      | .flowMappingStart :: rest =>
        let (members, rest) ← flowMembers? handles fuel true rest
        return (.mapping props members, rest)
      | _ =>
        match position, rest with
        | .member, .blockEntry :: _ =>
          let (items, rest) ← looseItems? handles fuel rest
          return (.sequence props items, rest)
        | .block, .blockSequenceStart :: rest | .member, .blockSequenceStart :: rest =>
          let (items, rest) ← blockItems? handles fuel rest
          return (.sequence props items, rest)
        | .block, .blockMappingStart :: rest | .member, .blockMappingStart :: rest =>
          let (members, rest) ← blockMembers? handles fuel rest
          return (.mapping props members, rest)
        | _, _ =>
          if props.anchor.isSome || props.tag.isSome then return (.scalar props .plain "", rest)
          else none

def blockItems? (handles : Handles) (fuel : Nat) (tokens : List Token) :
    Option (List Node × List Token) :=
  match fuel with
  | 0 => none
  | fuel + 1 =>
    match tokens with
    | .blockEnd :: rest => some ([], rest)
    | .blockEntry :: rest => do
      let (item, rest) ← if endsEntry rest then some (Node.empty, rest)
        else node? handles fuel .block rest
      let (items, rest) ← blockItems? handles fuel rest
      return (item :: items, rest)
    | _ => none

/-- Items that are not moved in further than the key they belong to. -/
def looseItems? (handles : Handles) (fuel : Nat) (tokens : List Token) :
    Option (List Node × List Token) :=
  match fuel with
  | 0 => none
  | fuel + 1 =>
    match tokens with
    | .blockEntry :: rest => do
      let (item, rest) ← if endsEntry rest || endsMember rest then some (Node.empty, rest)
        else node? handles fuel .block rest
      let (items, rest) ← looseItems? handles fuel rest
      return (item :: items, rest)
    | _ => some ([], tokens)

def blockMembers? (handles : Handles) (fuel : Nat) (tokens : List Token) :
    Option (List (Node × Node) × List Token) :=
  match fuel with
  | 0 => none
  | fuel + 1 =>
    match tokens with
    | .blockEnd :: rest => some ([], rest)
    | .key :: rest => do
      let (key, rest) ← if endsMember rest then some (Node.empty, rest)
        else node? handles fuel .member rest
      let (value, rest) ← match rest with
        | .value :: rest =>
          if endsMember rest then some (Node.empty, rest) else node? handles fuel .member rest
        | _ => some (Node.empty, rest)
      let (members, rest) ← blockMembers? handles fuel rest
      return ((key, value) :: members, rest)
    | _ => none

def flowValue? (handles : Handles) (fuel : Nat) (close : Token) (tokens : List Token) :
    Option (Node × List Token) :=
  match fuel with
  | 0 => none
  | fuel + 1 =>
    match tokens with
    | .value :: rest =>
      if endsFlow close rest then some (Node.empty, rest) else node? handles fuel .flow rest
    | _ => some (Node.empty, tokens)

/-- Items to the closing bracket. A key among them is a mapping of its own; where such a key is
left out, the token after its mark is passed over. -/
def flowItems? (handles : Handles) (fuel : Nat) (first : Bool) (tokens : List Token) :
    Option (List Node × List Token) :=
  match fuel with
  | 0 => none
  | fuel + 1 =>
    match tokens with
    | .flowSequenceEnd :: rest => some ([], rest)
    | _ => do
      let tokens ← match first, tokens with
        | true, _ => some tokens
        | false, .flowEntry :: rest => some rest
        | false, _ => none
      match tokens with
      | .flowSequenceEnd :: rest => return ([], rest)
      | .key :: rest =>
        let (key, rest) ← if endsKey .flowSequenceEnd rest then some (Node.empty, rest.drop 1)
          else node? handles fuel .flow rest
        let (value, rest) ← flowValue? handles fuel .flowSequenceEnd rest
        let (items, rest) ← flowItems? handles fuel false rest
        return (.mapping {} [(key, value)] :: items, rest)
      | _ =>
        let (item, rest) ← node? handles fuel .flow tokens
        let (items, rest) ← flowItems? handles fuel false rest
        return (item :: items, rest)

def flowMembers? (handles : Handles) (fuel : Nat) (first : Bool) (tokens : List Token) :
    Option (List (Node × Node) × List Token) :=
  match fuel with
  | 0 => none
  | fuel + 1 =>
    match tokens with
    | .flowMappingEnd :: rest => some ([], rest)
    | _ => do
      let tokens ← match first, tokens with
        | true, _ => some tokens
        | false, .flowEntry :: rest => some rest
        | false, _ => none
      match tokens with
      | .flowMappingEnd :: rest => return ([], rest)
      | .key :: rest =>
        let (key, rest) ← if endsKey .flowMappingEnd rest then some (Node.empty, rest)
          else node? handles fuel .flow rest
        let (value, rest) ← flowValue? handles fuel .flowMappingEnd rest
        let (members, rest) ← flowMembers? handles fuel false rest
        return ((key, value) :: members, rest)
      | _ =>
        let (key, rest) ← node? handles fuel .flow tokens
        let (members, rest) ← flowMembers? handles fuel false rest
        return ((key, Node.empty) :: members, rest)

end

/-- Directives in front of a document: whether there are any, whether one gives the version, and
the handles that they add. -/
structure Directives where
  given : Bool := false
  versioned : Bool := false
  handles : Handles := []

def directives? (found : Directives) : List Token → Option (Directives × List Token)
  | .version major minor :: rest =>
    if found.versioned || major != 1 || (minor != 1 && minor != 2) then none
    else directives? { found with given := true, versioned := true } rest
  | .tagHandle handle target :: rest =>
    if (found.handles.lookup handle).isSome then none
    else directives? { found with given := true, handles := (handle, target) :: found.handles } rest
  | rest => some (found, rest)

def endsDocument : List Token → Bool
  | [] | .version _ _ :: _ | .tagHandle _ _ :: _ | .documentStart :: _ | .documentEnd :: _ => true
  | _ => false

def skipEnds : List Token → List Token
  | .documentEnd :: rest => skipEnds rest
  | rest => rest

def document? (tokens : List Token) : Option (Option Node) := do
  let (found, rest) ← directives? {} tokens
  let handles := found.handles ++ standardHandles
  let fuel := 2 * tokens.length + 2
  match rest with
  | [] => if found.given then none else return none
  | .documentStart :: rest =>
    let (node, rest) ← if endsDocument rest then some (Node.empty, rest)
      else node? handles fuel .block rest
    if (skipEnds rest).isEmpty then return some node else none
  | _ =>
    if found.given then none
    else
      let (node, rest) ← node? handles fuel .block rest
      if (skipEnds rest).isEmpty then return some node else none

end ClassListing.Yaml
