namespace ClassListing.Column

def right (width : Nat) (text : String) : String :=
  String.ofList (text.toList.leftpad width ' ')

def left (width : Nat) (text : String) : String :=
  String.ofList (text.toList.rightpad width ' ')

end ClassListing.Column
