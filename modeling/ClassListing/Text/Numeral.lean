namespace ClassListing.Numeral

def natural (n : Nat) : String :=
  String.ofList (Nat.toDigits 10 n)

def decimal : Int → String
  | .ofNat n => natural n
  | .negSucc n => "-" ++ natural (n + 1)

def hexDigits (width n : Nat) : List Char :=
  (Nat.toDigits 16 n).leftpad width '0'

def upperHex (width n : Nat) : String :=
  String.ofList ((hexDigits width n).map Char.toUpper)

end ClassListing.Numeral
