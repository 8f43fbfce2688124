/-! Small operations on whole texts: lines, search and padding. -/
namespace Spellbook.Text

def dropReturn (cs : List Char) : List Char :=
  match cs.getLast? with
  | some '\r' => cs.dropLast
  | _ => cs

/-- The lines of a text, each without the newline, or carriage return and newline, that ends
it. A newline at the very end opens no further line. -/
def linesOf : List Char → List Char → List (List Char)
  | [], [] => []
  | line, [] => [line]
  | line, '\n' :: rest => dropReturn line :: linesOf [] rest
  | line, c :: rest => linesOf (line ++ [c]) rest

def lines (s : String) : List String := (linesOf [] s.toList).map String.ofList

def startsWith (s part : String) : Bool := part.toList.isPrefixOf s.toList

def hasInfix (part : List Char) : List Char → Bool
  | [] => part.isEmpty
  | c :: cs => part.isPrefixOf (c :: cs) || hasInfix part cs

def contains (s part : String) : Bool := hasInfix part.toList s.toList

def padLeft (width : Nat) (s : String) : String :=
  String.ofList (List.replicate (width - s.length) ' ') ++ s

def repeated (n : Nat) (c : Char) : String := String.ofList (List.replicate n c)

def joined (sep : String) : List String → String
  | [] => ""
  | s :: rest => rest.foldl (fun whole part => whole ++ sep ++ part) s

def copies (n : Nat) (s : String) : String :=
  if n = 0 then ""
  else
    let half := copies (n / 2) s
    if n % 2 = 0 then half ++ half else half ++ half ++ s

end Spellbook.Text
