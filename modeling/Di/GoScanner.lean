import Di.GoStrings

/-!
# The scanner of Go's `text/scanner`

The tokens that a scanner in its default mode finds in a text, as in Go 1.5:
white space and comments are skipped, a raw string is reported as a string, and
an illegal literal is reported to the error handler while scanning goes on.  A
scanner is the text that is left; `scan` says where the next token starts, what
it is and what remains behind it.
-/

namespace Di
namespace GoScanner

inductive Kind
  | eof
  | ident
  | int
  | float
  | char
  | string
  | symbol (c : Char)
  deriving DecidableEq, Repr

structure Token where
  kind : Kind
  /-- The text from the first character of the token on. -/
  start : List Char
  rest : List Char
  errors : List String := []

def doubleQuote : Char := '\x22'

def singleQuote : Char := '\x27'

def backQuote : Char := '\x60'

/-- The characters that lie between two points of a text. -/
def between (start rest : List Char) : List Char := start.take (start.length - rest.length)

def Token.text (token : Token) : List Char := between token.start token.rest

def isSpace (c : Char) : Bool := c = ' ' || c = '\t' || c = '\n' || c = '\r'

def isDecimal (c : Char) : Bool := '0' ≤ c && c ≤ '9'

def digitVal (c : Char) : ℕ :=
  if isDecimal c then c.toNat - '0'.toNat
  else if 'a' ≤ c && c ≤ 'f' then c.toNat - 'a'.toNat + 10
  else if 'A' ≤ c && c ≤ 'F' then c.toNat - 'A'.toNat + 10
  else 16

def isIdentStart (u : Unicode) (c : Char) : Bool := c = '_' || u.letter c

def isIdentPart (u : Unicode) (c : Char) : Bool := c = '_' || u.letter c || u.digit c

/-! ## White space and comments -/

mutual

def skipBlank : List Char → List Char × List String
  | [] => ([], [])
  | '/' :: '/' :: rest => skipLine rest
  | '/' :: '*' :: rest => skipBlock rest
  | c :: rest => if isSpace c then skipBlank rest else (c :: rest, [])

def skipLine : List Char → List Char × List String
  | [] => ([], [])
  | c :: rest => if c = '\n' then skipBlank rest else skipLine rest

def skipBlock : List Char → List Char × List String
  | [] => ([], ["comment not terminated"])
  | '*' :: '/' :: rest => skipBlank rest
  | _ :: rest => skipBlock rest

end

/-! ## Numbers -/

def skipDecimals (text : List Char) : List Char := text.dropWhile isDecimal

def scanFraction : List Char → List Char
  | '.' :: rest => skipDecimals rest
  | rest => rest

def scanExponent : List Char → List Char
  | c :: rest =>
      if c = 'e' ∨ c = 'E' then
        match rest with
        | sign :: more => if sign = '-' ∨ sign = '+' then skipDecimals more else skipDecimals rest
        | [] => []
      else c :: rest
  | [] => []

/-- Whether the digits that were read begin a floating-point number. -/
def continuesFloat : List Char → Bool
  | c :: _ => c = '.' || c = 'e' || c = 'E'
  | [] => false

def scanNumber (c : Char) (rest : List Char) : Kind × List Char × List String :=
  if c = '0' then
    match rest with
    | x :: more =>
        if x = 'x' ∨ x = 'X' then
          let after := more.dropWhile fun d => digitVal d < 16
          (.int, after, if after.length = more.length then ["illegal hexadecimal number"] else [])
        else
          let after := skipDecimals rest
          if continuesFloat after then (.float, scanExponent (scanFraction after), [])
          else
            (.int, after,
              if (between rest after).any fun d => '7' < d then ["illegal octal number"] else [])
    | [] => (.int, [], [])
  else
    let after := skipDecimals rest
    if continuesFloat after then (.float, scanExponent (scanFraction after), [])
    else (.int, after, [])

/-! ## Quoted literals -/

inductive QuoteState
  | body
  | escape
  | digits (base left : ℕ)

inductive QuoteStep
  | goto (state : QuoteState) (count : ℕ)
  | close
  | cut

/-- One character of the body; every character or escape sequence counts once. -/
def bodyStep (quote c : Char) : QuoteStep :=
  if c = quote then .close
  else if c = '\n' then .cut
  else if c = '\\' then .goto .escape 1
  else .goto .body 1

def escapeStep (quote c : Char) : List String × QuoteStep :=
  if c ∈ ['a', 'b', 'f', 'n', 'r', 't', 'v', '\\'] ∨ c = quote then ([], .goto .body 0)
  else if digitVal c < 8 then ([], .goto (.digits 8 2) 0)
  else if c = 'x' then ([], .goto (.digits 16 2) 0)
  else if c = 'u' then ([], .goto (.digits 16 4) 0)
  else if c = 'U' then ([], .goto (.digits 16 8) 0)
  else (["illegal char escape"], bodyStep quote c)

def quoteStep (quote c : Char) : QuoteState → List String × QuoteStep
  | .body => ([], bodyStep quote c)
  | .escape => escapeStep quote c
  | .digits _ 0 => ([], bodyStep quote c)
  | .digits base (left + 1) =>
      if digitVal c < base then ([], .goto (.digits base left) 0)
      else (["illegal char escape"], bodyStep quote c)

/-- The errors at the end of the text. -/
def quoteEnd : QuoteState → List String
  | .body => ["literal not terminated"]
  | .digits _ 0 => ["literal not terminated"]
  | _ => ["illegal char escape", "literal not terminated"]

structure Quoted where
  rest : List Char
  count : ℕ
  errors : List String

def scanString (quote : Char) : QuoteState → List Char → Quoted
  | state, [] => ⟨[], 0, quoteEnd state⟩
  | state, c :: text =>
      match quoteStep quote c state with
      | (errors, .close) => ⟨text, 0, errors⟩
      | (errors, .cut) => ⟨text, 0, errors ++ ["literal not terminated"]⟩
      | (errors, .goto next n) =>
          let more := scanString quote next text
          ⟨more.rest, more.count + n, errors ++ more.errors⟩

def scanRawString : List Char → List Char × List String
  | [] => ([], ["literal not terminated"])
  | c :: rest => if c = backQuote then (rest, []) else scanRawString rest

/-! ## Tokens -/

/-- The token that starts at the character `c`. -/
def scanAt (u : Unicode) (c : Char) (rest : List Char) : Kind × List Char × List String :=
  if isIdentStart u c then (.ident, rest.dropWhile (isIdentPart u), [])
  else if isDecimal c then scanNumber c rest
  else if c = doubleQuote then
    let quoted := scanString doubleQuote .body rest
    (.string, quoted.rest, quoted.errors)
  else if c = singleQuote then
    let quoted := scanString singleQuote .body rest
    (.char, quoted.rest,
      quoted.errors ++ if quoted.count = 1 then [] else ["illegal char literal"])
  else if c = '.' then
    match rest with
    | d :: _ =>
        if isDecimal d then (.float, scanExponent (skipDecimals rest), [])
        else (.symbol c, rest, [])
    | [] => (.symbol c, rest, [])
  else if c = backQuote then
    let raw := scanRawString rest
    (.string, raw.1, raw.2)
  else (.symbol c, rest, [])

def nulErrors (consumed : List Char) : List String :=
  (consumed.filter (· = '\x00')).map fun _ => "illegal character NUL"

def scan (u : Unicode) (text : List Char) : Token :=
  match skipBlank text with
  | ([], errors) => ⟨.eof, [], [], errors ++ nulErrors text⟩
  | (c :: rest, errors) =>
      match scanAt u c rest with
      | (kind, after, more) =>
          ⟨kind, c :: rest, after, errors ++ more ++ nulErrors (between text after)⟩

end GoScanner
end Di
