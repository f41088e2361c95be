namespace Octet.Text

def padLeft (width : Nat) (fill : Char) (s : String) : String :=
  String.ofList (s.toList.leftpad width fill)

def padRight (width : Nat) (s : String) : String :=
  String.ofList (s.toList.rightpad width ' ')

end Octet.Text
