import ControlVoltage.Toml.Scalar
import ControlVoltage.Toml.Table
import ControlVoltage.Toml.Token

/-!
# Documents

`Toml.parse?` reads a TOML document, in the version of the format that allows inline tables to go
over several lines, with line breaks anywhere but inside a key, and to end with a comma. The result
is the fields of the document's root table, or `none` if the text is no document.

Each function takes tokens from the front of a list and gives back those that it left. Values are
read with fuel, of which the count of tokens is enough; arrays and inline tables may be nested 80
deep, and a key may have 80 parts.
-/

namespace ControlVoltage.Toml

/-- How deep arrays and inline tables may be nested. -/
def maxNesting : Nat := 80

/-- How many parts a key may have. -/
def maxKeyParts : Nat := 80

def skipBlank : List Token → List Token
  | .blank _ :: rest => skipBlank rest
  | tokens => tokens

/-- Skips blanks and line breaks. -/
def skipLines : List Token → List Token
  | .blank _ :: rest => skipLines rest
  | .newline :: rest => skipLines rest
  | tokens => tokens

/-! ## Keys -/

def isBareKeyChar (c : Char) : Bool := c.isAlphanum || c = '_' || c = '-'

/-- One part of a key. -/
def keyPart? : List Token → Option (String × List Token)
  | .atom s :: rest => if s.toList.all isBareKeyChar then some (s, rest) else none
  | .text false s :: rest => some (s, rest)
  | _ => none

/-- A dotted key of at most `limit` parts: its parts before the last one, and the last one. -/
def keyWithin? : (limit : Nat) → List Token → Option (List String × String × List Token)
  | 0, _ => none
  | limit + 1, tokens => do
    let (part, rest) ← keyPart? tokens
    match skipBlank rest with
    | .mark '.' :: rest =>
      let (path, last, rest) ← keyWithin? limit (skipBlank rest)
      some (part :: path, last, rest)
    | rest => some ([], part, rest)

/-- A dotted key. -/
def key? (tokens : List Token) : Option (List String × String × List Token) :=
  keyWithin? maxKeyParts tokens

/-! ## Values -/

/-- A run of atoms and points with the blanks between them, as one text. -/
def plainText : List Token → String × List Token
  | .atom s :: rest =>
    let (more, rest) := plainText rest
    (s ++ more, rest)
  | .mark '.' :: rest =>
    let (more, rest) := plainText rest
    ("." ++ more, rest)
  | .blank s :: rest =>
    match plainText rest with
    | ("", _) => ("", .blank s :: rest)
    | (more, rest) => (s ++ more, rest)
  | tokens => ("", tokens)

/-- A value without quotes. -/
def scalar? (tokens : List Token) : Option (Value × List Token) :=
  let (text, rest) := plainText tokens
  (Scalar.read? text).map fun v => (v, rest)

mutual

/-- A value; `nesting` counts the arrays and inline tables around it. -/
def value? : (fuel nesting : Nat) → List Token → Option (Value × List Token)
  | 0, _, _ => none
  | fuel + 1, nesting, tokens =>
    match tokens with
    | .text _ s :: rest => some (.string s, rest)
    | .mark '[' :: rest =>
      if maxNesting ≤ nesting then none
      else (items? fuel (nesting + 1) rest).map fun (items, rest) => (.array items, rest)
    | .mark '{' :: rest =>
      if maxNesting ≤ nesting then none
      else
        (members? fuel (nesting + 1) [] rest).map fun (fields, rest) =>
          (.table (finishFields fields), rest)
    | tokens => scalar? tokens

/-- The items of an array up to its closing bracket. -/
def items? : (fuel nesting : Nat) → List Token → Option (List Value × List Token)
  | 0, _, _ => none
  | fuel + 1, nesting, tokens =>
    match skipLines tokens with
    | .mark ']' :: rest => some ([], rest)
    | tokens => do
      let (v, rest) ← value? fuel nesting tokens
      match skipLines rest with
      | .mark ']' :: rest => some ([v], rest)
      | .mark ',' :: rest =>
        let (items, rest) ← items? fuel nesting rest
        some (v :: items, rest)
      | _ => none

/-- The members of an inline table up to its closing brace, put into `fields`. -/
def members? : (fuel nesting : Nat) → Fields → List Token → Option (Fields × List Token)
  | 0, _, _, _ => none
  | fuel + 1, nesting, fields, tokens =>
    match skipLines tokens with
    | .mark '}' :: rest => some (fields, rest)
    | tokens => do
      let (path, key, rest) ← key? tokens
      match skipLines rest with
      | .mark '=' :: rest =>
        let (v, rest) ← value? fuel nesting (skipLines rest)
        let (_, fields) ← Fields.insertDotted path key v .explicit fields
        match skipLines rest with
        | .mark '}' :: rest => some (fields, rest)
        | .mark ',' :: rest => members? fuel nesting fields rest
        | _ => none
      | _ => none

end

/-! ## Lines -/

/-- What is left after the end of a line. -/
def endOfLine? (tokens : List Token) : Option (List Token) :=
  match skipBlank tokens with
  | [] => some []
  | .newline :: rest => some rest
  | _ => none

/-- The document so far: its tables, and the path of the table opened last. -/
structure Reading where
  root : Fields
  opened : List String

/-- Reads one line that is not empty. -/
def line? (fuel : Nat) (reading : Reading) (tokens : List Token) :
    Option (Reading × List Token) :=
  match tokens with
  | .mark '[' :: .mark '[' :: rest => do
    let (path, key, rest) ← key? (skipBlank rest)
    match skipBlank rest with
    | .mark ']' :: .mark ']' :: rest =>
      let root ← Fields.openArrayItem path key reading.root
      let rest ← endOfLine? rest
      some (⟨root, path ++ [key]⟩, rest)
    | _ => none
  | .mark '[' :: rest => do
    let (path, key, rest) ← key? (skipBlank rest)
    match skipBlank rest with
    | .mark ']' :: rest =>
      let root ← Fields.openTable path key reading.root
      let rest ← endOfLine? rest
      some (⟨root, path ++ [key]⟩, rest)
    | _ => none
  | tokens => do
    let (path, key, rest) ← key? tokens
    match skipBlank rest with
    | .mark '=' :: rest =>
      let (v, rest) ← value? fuel 0 (skipBlank rest)
      let root ← Fields.insert reading.opened path key v reading.root
      let rest ← endOfLine? rest
      some (⟨root, reading.opened⟩, rest)
    | _ => none

/-- Reads lines to the end. -/
def lines? : (fuel : Nat) → Reading → List Token → Option Reading
  | 0, _, _ => none
  | fuel + 1, reading, tokens =>
    match skipLines tokens with
    | [] => some reading
    | tokens => do
      let (reading, rest) ← line? (fuel + 1) reading tokens
      lines? fuel reading rest

/-- The fields of the root table of a document. -/
def parse? (text : String) : Option (List (String × Value)) := do
  let tokens ← Token.scan text
  let reading ← lines? (tokens.length + 1) ⟨[], []⟩ tokens
  some (finishFields reading.root)

end ControlVoltage.Toml
