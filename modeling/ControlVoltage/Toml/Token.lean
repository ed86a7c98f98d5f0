/-!
# Tokens of a document

`Token.scan` cuts a text into tokens without regard to where they stand: a number such as `1.5` is
two atoms with a point between them, and it is put together where a value is expected. A quote
starts a string, but not inside an atom. Comments
leave no token. A line ends with a line feed, before which a carriage return may stand. `none`
stands for a text that has no tokens.

* `quoted`, `literal` and their multi-line forms cut a string off the text.
* `Unescape` turns the inside of a quoted string into the text it stands for, one character at a
  time.
-/

namespace ControlVoltage.Toml

/-- A piece of a document. -/
inductive Token where
  /-- Spaces and tabs. -/
  | blank (s : String)
  | newline
  /-- One of the characters `. = , [ ] { }`. -/
  | mark (c : Char)
  /-- A string in quotes, without them and with its escapes resolved. -/
  | text (multiline : Bool) (s : String)
  /-- A run of other characters. -/
  | atom (s : String)
deriving DecidableEq, Repr, Inhabited

/-! ## Characters -/

/-- A control character other than the tab. -/
def isControl (c : Char) : Bool :=
  (c.toNat < 0x20 && c != '\t') || c.toNat = 0x7f

def isMark (c : Char) : Bool := ['.', '=', ',', '[', ']', '{', '}'].contains c

def isSpace (c : Char) : Bool := c = ' ' || c = '\t'

/-- A character that goes on with an atom. -/
def isAtomChar (c : Char) : Bool :=
  !isMark c && !isSpace c && c != '\n' && c != '\r' && c != '#'

/-! ## Escapes -/

namespace Unescape

/-- Where the reading of a quoted string stands. -/
inductive Mode where
  | plain
  /-- After a backslash. -/
  | escaped
  /-- `left` hexadecimal digits of a code point are still to come. -/
  | code (left value : Nat)
  /-- After a backslash that ends its line: blank characters are skipped, and a line break has to
  be among them. -/
  | skipping (broken : Bool)
deriving DecidableEq

/-- The character that a one-letter escape stands for. -/
def simple? : Char → Option Char
  | 'b' => some '\x08'
  | 't' => some '\t'
  | 'n' => some '\n'
  | 'f' => some '\x0c'
  | 'r' => some '\r'
  | 'e' => some '\x1b'
  | '"' => some '"'
  | '\\' => some '\\'
  | _ => none

/-- The number of digits of an escape by code point. -/
def codeLength? : Char → Option Nat
  | 'x' => some 2
  | 'u' => some 4
  | 'U' => some 8
  | _ => none

def hexValue? (c : Char) : Option Nat :=
  if c.isDigit then some (c.toNat - '0'.toNat)
  else if 'a' ≤ c ∧ c ≤ 'f' then some (c.toNat - 'a'.toNat + 10)
  else if 'A' ≤ c ∧ c ≤ 'F' then some (c.toNat - 'A'.toNat + 10)
  else none

/-- The character with a code point; surrogates have none. -/
def ofCode? (n : Nat) : Option Char :=
  if n < 0xd800 ∨ (0xdfff < n ∧ n < 0x110000) then some (Char.ofNat n) else none

/-- Reads one character; `out` is what has been read, the last character first. -/
def step (multiline : Bool) : Mode × List Char → Char → Option (Mode × List Char)
  | (.plain, out), c =>
    if c = '\\' then some (.escaped, out)
    else if c = '\n' ∨ c = '\r' then if multiline then some (.plain, c :: out) else none
    else if isControl c then none
    else some (.plain, c :: out)
  | (.escaped, out), c =>
    match simple? c, codeLength? c with
    | some x, _ => some (.plain, x :: out)
    | none, some n => some (.code n 0, out)
    | none, none =>
      if multiline ∧ isSpace c then some (.skipping false, out)
      else if multiline ∧ (c = '\n' ∨ c = '\r') then some (.skipping true, out)
      else none
  | (.code left value, out), c =>
    match hexValue? c with
    | none => none
    | some d =>
      let value := 16 * value + d
      if left ≤ 1 then (ofCode? value).map fun x => (.plain, x :: out)
      else some (.code (left - 1) value, out)
  | (.skipping broken, out), c =>
    if isSpace c then some (.skipping broken, out)
    else if c = '\n' ∨ c = '\r' then some (.skipping true, out)
    else if !broken then none
    else if c = '\\' then some (.escaped, out)
    else if isControl c then none
    else some (.plain, c :: out)

/-- The text that the inside of a quoted string stands for. -/
def run (multiline : Bool) (cs : List Char) : Option String :=
  match cs.foldlM (step multiline) (.plain, []) with
  | some (.plain, out) => some (String.ofList out.reverse)
  | some (.skipping true, out) => some (String.ofList out.reverse)
  | _ => none

end Unescape

/-! ## Strings -/

/-- A line break right after the opening quotes does not count. -/
def dropFirstBreak : List Char → List Char
  | '\n' :: rest => rest
  | '\r' :: '\n' :: rest => rest
  | cs => cs

/-- The inside of a quoted string on one line, and what follows its closing quote. -/
def quoted : List Char → Option (List Char × List Char)
  | [] => none
  | '"' :: rest => some ([], rest)
  | '\\' :: c :: rest => (quoted rest).map fun (inside, rest) => ('\\' :: c :: inside, rest)
  | c :: rest =>
    if c = '\n' then none else (quoted rest).map fun (inside, rest) => (c :: inside, rest)

/-- The inside of a literal string on one line, and what follows its closing quote. -/
def literal : List Char → Option (List Char × List Char)
  | [] => none
  | c :: rest =>
    if c = '\'' then some ([], rest)
    else if isControl c then none
    else (literal rest).map fun (inside, rest) => (c :: inside, rest)

/-- Up to two more quotes after three closing ones belong to the inside. -/
def extraQuotes (q : Char) : List Char → List Char × List Char
  | a :: b :: rest =>
    if a = q ∧ b = q then ([q, q], rest)
    else if a = q then ([q], b :: rest)
    else ([], a :: b :: rest)
  | [a] => if a = q then ([q], []) else ([], [a])
  | [] => ([], [])

/-- The inside of a quoted string on several lines, and what follows its closing quotes. -/
def quotedLines : List Char → Option (List Char × List Char)
  | [] => none
  | '"' :: '"' :: '"' :: rest => some (extraQuotes '"' rest)
  | '\\' :: c :: rest => (quotedLines rest).map fun (inside, rest) => ('\\' :: c :: inside, rest)
  | c :: rest => (quotedLines rest).map fun (inside, rest) => (c :: inside, rest)

/-- The inside of a literal string on several lines, and what follows its closing quotes. -/
def literalLines : List Char → Option (List Char × List Char)
  | [] => none
  | '\'' :: '\'' :: '\'' :: rest => some (extraQuotes '\'' rest)
  | c :: rest =>
    if isControl c && c != '\n' && c != '\r' then none
    else (literalLines rest).map fun (inside, rest) => (c :: inside, rest)

/-- A string that begins with a quote, and what follows it. -/
def string? : List Char → Option (Token × List Char)
  | '"' :: '"' :: '"' :: rest => do
    let (inside, rest) ← quotedLines (dropFirstBreak rest)
    let s ← Unescape.run true inside
    some (.text true s, rest)
  | '"' :: rest => do
    let (inside, rest) ← quoted rest
    let s ← Unescape.run false inside
    some (.text false s, rest)
  | '\'' :: '\'' :: '\'' :: rest => do
    let (inside, rest) ← literalLines (dropFirstBreak rest)
    some (.text true (String.ofList inside), rest)
  | '\'' :: rest => do
    let (inside, rest) ← literal rest
    some (.text false (String.ofList inside), rest)
  | _ => none

/-! ## The whole text -/

namespace Token

/-- Whether every carriage return stands before a line feed. -/
def returnsPaired : List Char → Bool
  | [] => true
  | '\r' :: '\n' :: rest => returnsPaired rest
  | c :: rest => c != '\r' && returnsPaired rest

/-- The first token of a text that is not empty, and what follows it; a comment has no token, nor
has a carriage return. -/
def next? : List Char → Option (Option Token × List Char)
  | [] => none
  | c :: rest =>
    if c = '\n' then some (some .newline, rest)
    else if c = '\r' then some (none, rest)
    else if isSpace c then
      some (some (.blank (String.ofList (c :: rest.takeWhile isSpace))), rest.dropWhile isSpace)
    else if c = '#' then
      let comment := rest.takeWhile fun c => c != '\n' && c != '\r'
      if comment.any isControl then none else some (none, rest.drop comment.length)
    else if isMark c then some (some (.mark c), rest)
    else if c = '"' ∨ c = '\'' then
      (string? (c :: rest)).map fun (token, rest) => (some token, rest)
    else
      let cs := rest.takeWhile isAtomChar
      some (some (.atom (String.ofList (c :: cs))), rest.drop cs.length)

/-- The tokens of a text. Each takes at least one character, so the length of the text is fuel
enough. -/
def scanFrom : (fuel : Nat) → List Char → Option (List Token)
  | _, [] => some []
  | 0, _ => none
  | fuel + 1, cs =>
    match next? cs with
    | none => none
    | some (none, rest) => scanFrom fuel rest
    | some (some token, rest) => (scanFrom fuel rest).map (token :: ·)

/-- The tokens of a text; a byte order mark in front does not count. -/
def scan (text : String) : Option (List Token) :=
  let cs := text.toList
  let cs := if cs.head? = some '\ufeff' then cs.tail else cs
  if returnsPaired cs then scanFrom cs.length cs else none

end Token

end ControlVoltage.Toml
