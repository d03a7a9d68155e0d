import TableParsing.Json.Text

/-! JSON is written either compactly or with one item a line, two blanks deeper at
each level. -/

namespace TableParsing.Json

def separated (between : List Char) : List (List Char) → List Char
  | [] => []
  | [t] => t
  | t :: rest => t ++ between ++ separated between rest

def key (name : Option String) : List Char := quote (name.getD "").toList

mutual

def compact : Json → List Char
  | null => "null".toList
  | bool b => (if b then "true" else "false").toList
  | natural n => Nat.toDigits 10 n
  | number => ['0']
  | text t => quote (t.getD "").toList
  | array items => '[' :: separated [','] (compactItems items) ++ [']']
  | object fields => '{' :: separated [','] (compactFields fields) ++ ['}']

def compactItems : List Json → List (List Char)
  | [] => []
  | j :: rest => compact j :: compactItems rest

def compactFields : List (Option String × Json) → List (List Char)
  | [] => []
  | (name, j) :: rest => (key name ++ ':' :: compact j) :: compactFields rest

end

def lineBreak (depth : Nat) : List Char := '\n' :: List.replicate (2 * depth) ' '

def block (depth : Nat) (opening closing : Char) (items : List (List Char)) : List Char :=
  if items.isEmpty then [opening, closing]
  else
    opening :: lineBreak (depth + 1) ++ separated (',' :: lineBreak (depth + 1)) items ++
      lineBreak depth ++ [closing]

mutual

def pretty (depth : Nat) : Json → List Char
  | array items => block depth '[' ']' (prettyItems (depth + 1) items)
  | object fields => block depth '{' '}' (prettyFields (depth + 1) fields)
  | null => compact null
  | bool b => compact (bool b)
  | natural n => compact (natural n)
  | number => compact number
  | text t => compact (text t)

def prettyItems (depth : Nat) : List Json → List (List Char)
  | [] => []
  | j :: rest => pretty depth j :: prettyItems depth rest

def prettyFields (depth : Nat) : List (Option String × Json) → List (List Char)
  | [] => []
  | (name, j) :: rest => (key name ++ ':' :: ' ' :: pretty depth j) :: prettyFields depth rest

end

def render (j : Json) : String := String.ofList (compact j)

def renderPretty (j : Json) : String := String.ofList (pretty 0 j)

end TableParsing.Json
