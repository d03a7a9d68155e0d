import TableParsing.Json.Text

/-! JSON is read by recursive descent. Every value takes at least one character, so
the length of the text bounds the depth of the descent. -/

namespace TableParsing.Json

def isDigit (c : Char) : Bool := '0' ≤ c && c ≤ '9'

def digitsValue (cs : List Char) : Nat :=
  cs.foldl (fun n c => n * 10 + (c.toNat - '0'.toNat)) 0

def digits? (cs : List Char) : Option (List Char × List Char) :=
  match cs.takeWhile isDigit with
  | [] => none
  | ds => some (ds, cs.dropWhile isDigit)

def integer? (cs : List Char) : Option (Nat × List Char) :=
  match digits? cs with
  | some (['0'], rest) => some (0, rest)
  | some ('0' :: _, _) => none
  | some (ds, rest) => some (digitsValue ds, rest)
  | none => none

/-- Passes over a fraction, if there is one; the flag says whether there was. -/
def fraction? : List Char → Option (Bool × List Char)
  | '.' :: rest => (digits? rest).map fun (_, rest) => (true, rest)
  | rest => some (false, rest)

def exponentDigits? : List Char → Option (List Char × List Char)
  | '+' :: rest => digits? rest
  | '-' :: rest => digits? rest
  | rest => digits? rest

def exponent? : List Char → Option (Bool × List Char)
  | 'e' :: rest => (exponentDigits? rest).map fun (_, rest) => (true, rest)
  | 'E' :: rest => (exponentDigits? rest).map fun (_, rest) => (true, rest)
  | rest => some (false, rest)

def unsigned? (cs : List Char) : Option (Json × List Char) := do
  let (n, rest) ← integer? cs
  let (fractional, rest) ← fraction? rest
  let (scaled, rest) ← exponent? rest
  return (if fractional || scaled then number else natural n, rest)

def number? : List Char → Option (Json × List Char)
  | '-' :: rest => (unsigned? rest).map fun (_, rest) => (number, rest)
  | cs => unsigned? cs

mutual

def value? : Nat → List Char → Option (Json × List Char)
  | 0, _ => none
  | fuel + 1, cs =>
    match skipBlanks cs with
    | 'n' :: 'u' :: 'l' :: 'l' :: rest => some (null, rest)
    | 't' :: 'r' :: 'u' :: 'e' :: rest => some (bool true, rest)
    | 'f' :: 'a' :: 'l' :: 's' :: 'e' :: rest => some (bool false, rest)
    | '"' :: rest => (literal? rest).map fun (t, rest) => (text t, rest)
    | '[' :: rest =>
      match skipBlanks rest with
      | ']' :: rest => some (array [], rest)
      | _ => (items? fuel rest).map fun (items, rest) => (array items, rest)
    | '{' :: rest =>
      match skipBlanks rest with
      | '}' :: rest => some (object [], rest)
      | _ => (fields? fuel rest).map fun (fields, rest) => (object fields, rest)
    | cs => number? cs

def items? : Nat → List Char → Option (List Json × List Char)
  | 0, _ => none
  | fuel + 1, cs =>
    match value? fuel cs with
    | none => none
    | some (j, rest) =>
      match skipBlanks rest with
      | ',' :: rest => (items? fuel rest).map fun (items, rest) => (j :: items, rest)
      | ']' :: rest => some ([j], rest)
      | _ => none

def fields? : Nat → List Char → Option (List (Option String × Json) × List Char)
  | 0, _ => none
  | fuel + 1, cs =>
    match skipBlanks cs with
    | '"' :: rest =>
      match literal? rest with
      | none => none
      | some (name, rest) =>
        match skipBlanks rest with
        | ':' :: rest =>
          match value? fuel rest with
          | none => none
          | some (j, rest) =>
            match skipBlanks rest with
            | ',' :: rest =>
              (fields? fuel rest).map fun (fields, rest) => ((name, j) :: fields, rest)
            | '}' :: rest => some ([(name, j)], rest)
            | _ => none
        | _ => none
    | _ => none

end

def parse? (t : String) : Option Json :=
  let cs := t.toList
  match value? (cs.length + 1) cs with
  | some (j, rest) => if (skipBlanks rest).isEmpty then some j else none
  | none => none

end TableParsing.Json
