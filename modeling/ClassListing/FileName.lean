import ClassListing.Bytes.Reader
import ClassListing.Path

namespace ClassListing

/-- The name of an entry of a directory. Its bytes need not be those of a text. -/
inductive FileName where
  | text (name : String)
  | raw (bytes : Bytes) (h : String.fromUTF8? ⟨bytes.toArray⟩ = none)
  deriving DecidableEq, Repr

namespace FileName

def bytes : FileName → Bytes
  | text name => name.toUTF8.data.toList
  | raw bytes _ => bytes

def text? : FileName → Option String
  | text name => some name
  | raw .. => none

/-- The ranges of the bytes that a first byte asks for behind it. -/
def followers (first : UInt8) : List (UInt8 × UInt8) :=
  let any := (0x80, 0xBF)
  if first < 0xC2 then []
  else if first < 0xE0 then [any]
  else if first = 0xE0 then [(0xA0, 0xBF), any]
  else if first = 0xED then [(0x80, 0x9F), any]
  else if first < 0xF0 then [any, any]
  else if first = 0xF0 then [(0x90, 0xBF), any, any]
  else if first < 0xF4 then [any, any, any]
  else if first = 0xF4 then [(0x80, 0x8F), any, any]
  else []

/-- How many bytes at the front lie in the ranges, one after the other. -/
def fitting : List (UInt8 × UInt8) → Bytes → Nat
  | range :: ranges, byte :: rest =>
    if range.1 ≤ byte ∧ byte ≤ range.2 then fitting ranges rest + 1 else 0
  | _, _ => 0

/-- Bytes as a text. Each longest start of a character that breaks off becomes U+FFFD. -/
def lossyText : Bytes → String
  | [] => ""
  | first :: rest =>
    let count := fitting (followers first) rest
    let group := first :: rest.take count
    (String.fromUTF8? ⟨group.toArray⟩).getD "\uFFFD" ++ lossyText (rest.drop count)
termination_by bytes => bytes.length

def shown : FileName → String
  | text name => name
  | raw bytes _ => lossyText bytes

def isClassFile : FileName → Bool
  | text name => Path.isClassFile name
  | raw bytes _ =>
    let ending := ".class".toUTF8.data.toList
    ending.isSuffixOf bytes && ending.length < bytes.length

def className (names : List FileName) : Except Path.NameError String :=
  match names.mapM text? with
  | some names => Path.className (Path.join names)
  | none => .error (.notText (Path.join (names.map shown)))

end FileName

end ClassListing
