import Di.GoScanner
import Di.DslEval

/-!
# Parsing, imports and compilation

`parse` turns a text into syntax trees, `resolveImports` replaces the imports at
the top of a program by the modules they name, and `new` evaluates the result.
Reading a file is a parameter.  Every step of the parser consumes a character
or ends it, so the length of the text bounds its recursion.
-/

namespace Di
namespace Lang

open GoScanner

/-! ## Positions -/

def Position.advance (pos : Position) (c : Char) : Position :=
  if c = '\n' then
    { pos with offset := pos.offset + c.utf8Size, line := pos.line + 1, column := 1 }
  else { pos with offset := pos.offset + c.utf8Size, column := pos.column + 1 }

/-- A scanner in the middle of a text. -/
structure Source where
  rest : List Char
  pos : Position
  errors : List String

/-- A byte order mark at the beginning is ignored. -/
def Source.start (filename : String) (text : List Char) : Source :=
  let pos : Position := ⟨filename, 0, 1, 1⟩
  match text with
  | '\uFEFF' :: rest => ⟨rest, { pos with offset := '\uFEFF'.utf8Size }, []⟩
  | _ => ⟨text, pos, []⟩

def Source.moveTo (src : Source) (rest : List Char) : Source :=
  { src with rest := rest, pos := (between src.rest rest).foldl Position.advance src.pos }

def Source.scan (u : Unicode) (src : Source) : Token × Source :=
  let token := GoScanner.scan u src.rest
  (token, { src.moveTo token.rest with errors := src.errors ++ token.errors })

/-! ## Trees -/

def parseIdent (name : String) : Ast :=
  if name = "true" then .bool true else if name = "false" then .bool false else .ident name

/-- `strconv.Atoi` with its error ignored: out of range is the largest number, any other error
is zero. -/
def atoi (text : List Char) : ℤ :=
  if text ≠ [] ∧ text.all isDecimal then min (GoFloat.digitsValue text) (2 ^ 63 - 1) else 0

/-- `strings.Trim` of double quotes. -/
def trimQuotes (text : List Char) : List Char :=
  ((text.dropWhile (· = doubleQuote)).reverse.dropWhile (· = doubleQuote)).reverse

def operators : List Char := ['+', '-', '/', '%', '*', '=', '<', '>', '!']

/-- The rest of an identifier with periods. -/
def parseDotted (u : Unicode) : ℕ → List Char → Source → Except DslError (List Char) × Source
  | 0, name, src => (.ok name, src)
  | fuel + 1, name, src =>
      match src.rest with
      | '.' :: rest =>
          let (token, next) := (src.moveTo rest).scan u
          if token.kind = .ident then parseDotted u fuel (name ++ '.' :: token.text) next
          else
            (.error (.located next.pos
              (.plain ("bad ident name: " ++ String.ofList (name ++ ['.'])))),
              next)
      | _ => (.ok name, src)

inductive Element
  | leaf (tree : Ast)
  | opening
  | closing
  | eof
  | bad (err : DslError)

/-- The next element of a program and the scanner behind it. -/
def parseElement (u : Unicode) (src : Source) : Element × Source :=
  let (token, next) := src.scan u
  match token.kind with
  | .symbol c =>
      if c ∈ operators then (.leaf (parseIdent (String.ofList token.text)), next)
      else if c = '(' then (.opening, next)
      else if c = ')' then (.closing, next)
      else
        (.bad (.located next.pos (.plain ("bad element: " ++ String.ofList token.text))), next)
  | .ident =>
      match parseDotted u next.rest.length token.text next with
      | (.ok name, after) => (.leaf (parseIdent (String.ofList name)), after)
      | (.error err, after) => (.bad err, after)
  | .float => (.leaf (.float (GoFloat.parseFloat token.text)), next)
  | .int => (.leaf (.int (atoi token.text)), next)
  | .string => (.leaf (.str (String.ofList (trimQuotes token.text))), next)
  | .eof => (.eof, next)
  | .char =>
      (.bad (.located next.pos (.plain ("bad element: " ++ String.ofList token.text))), next)

def unbalancedParens (src : Source) : DslError := .located src.pos (.plain "unbalanced Parenthesis")

def parseText (u : Unicode) : ℕ → ℕ → Source → Except DslError (List Ast) × Source
  | 0, _, src => (.error (unbalancedParens src), src)
  | fuel + 1, depth, src =>
      match parseElement u src with
      | (.leaf tree, next) =>
          match parseText u fuel depth next with
          | (.ok trees, last) => (.ok (tree :: trees), last)
          | (.error err, last) => (.error err, last)
      | (.opening, next) =>
          match parseText u fuel (depth + 1) next with
          | (.ok elems, after) =>
              match parseText u fuel depth after with
              | (.ok trees, last) => (.ok (.sexp elems next.pos :: trees), last)
              | (.error err, last) => (.error err, last)
          | (.error err, after) => (.error err, after)
      | (.closing, next) =>
          if depth = 0 then (.error (unbalancedParens next), next) else (.ok [], next)
      | (.eof, next) =>
          if depth = 0 then (.ok [], next) else (.error (unbalancedParens next), next)
      | (.bad err, next) => (.error err, next)

/-- An error of the scanner prevails over one of the parser. -/
def parse (u : Unicode) (filename : String) (text : List Char) : Except DslError (List Ast) :=
  match parseText u (text.length + 1) 0 (Source.start filename text) with
  | (result, last) =>
      if last.errors = [] then result else .error (.plain ("\n".intercalate last.errors))

/-! ## Imports -/

/-- The file of a path, if it can be opened. -/
abbrev Files := String → Option (List Char)

/-- The name that a tree imports, empty for any other tree. -/
def parseImport : Ast → Outcome DslError String
  | .sexp (.ident name :: args) _ =>
      if name = "import" then
        match args with
        | [] => .panic
        | .str text :: _ => .ok text
        | _ => .ok ""
      else .ok ""
  | _ => .ok ""

def openImport (files : Files) (name : String) : List String → Option (String × List Char)
  | [] => none
  | path :: paths =>
      let modulePath := path ++ "/" ++ name ++ ".spec"
      match files modulePath with
      | some text => some (modulePath, text)
      | none => openImport files name paths

def liftParse {α : Type} : Except DslError α → Outcome DslError α
  | .ok a => .ok a
  | .error err => .error err

/-- The loop of `resolveImportsRec`; imports are allowed as long as `top` holds. -/
def resolveTrees (u : Unicode) (files : Files) (paths imported : List String)
    (resolve : List String → List Ast → Outcome DslError (List Ast)) :
    Bool → List Ast → Outcome DslError (List Ast)
  | _, [] => .ok []
  | top, tree :: rest => do
      let name ← parseImport tree
      if name = "" then do
        let more ← resolveTrees u files paths imported resolve false rest
        pure (tree :: more)
      else if top = false then .error (.plain "import must be begin the module")
      else if name ∈ imported then
        .error (.plain ("import cycle: [" ++ " ".intercalate (imported ++ [name]) ++ "]"))
      else
        match openImport files name paths with
        | none => .error (.plain ("unable to open import " ++ name))
        | some (modulePath, text) => do
            let parsed ← liftParse (parse u modulePath text)
            let body ← resolve (imported ++ [name]) parsed
            let more ← resolveTrees u files paths imported resolve top rest
            pure (.moduleNode name body :: more)

def resolveImportsRec (u : Unicode) (files : Files) (paths : List String) :
    ℕ → List String → List Ast → Outcome DslError (List Ast)
  | 0, _, _ => .timeout
  | fuel + 1, imported, trees =>
      resolveTrees u files paths imported (resolveImportsRec u files paths fuel) true trees

/-! ## Compilation -/

/-- A scanner and the import path, the arguments of `New`. -/
structure Spec where
  filename : String := ""
  text : List Char
  paths : List String := []

/-- The program that `New` evaluates. -/
def compile (u : Unicode) (files : Files) (fuel : ℕ) (spec : Spec) :
    Outcome DslError (List Ast) := do
  let parsed ← liftParse (parse u spec.filename spec.text)
  resolveImportsRec u files spec.paths fuel [] parsed

def runProgram (rt : Runtime) (fuel : ℕ) (program : List Ast) : Outcome DslError Dsl :=
  match evalProgram rt fuel program with
  | ⟨.ok _, env, _⟩ => .ok (env.dsl program)
  | ⟨.error err, _, _⟩ => .error err
  | ⟨.panic, _, _⟩ => .panic
  | ⟨.timeout, _, _⟩ => .timeout

def new (rt : Runtime) (files : Files) (fuel : ℕ) (spec : Spec) : Outcome DslError Dsl := do
  let program ← compile rt.unicode files fuel spec
  runProgram rt fuel program

/-! ## What compilation produces -/

theorem runProgram_eq_ok {rt : Runtime} {fuel : ℕ} {program : List Ast} {dsl : Dsl} :
    runProgram rt fuel program = .ok dsl ↔
      ∃ values, (evalProgram rt fuel program).outcome = .ok values ∧
        dsl = (evalProgram rt fuel program).final.dsl program := by
  unfold runProgram
  rcases evalProgram rt fuel program with ⟨outcome, env, trace⟩
  cases outcome with
  | ok values => simp [eq_comm]
  | error err => simp
  | panic => simp
  | timeout => simp

theorem new_eq_ok {rt : Runtime} {files : Files} {fuel : ℕ} {spec : Spec} {dsl : Dsl} :
    new rt files fuel spec = .ok dsl ↔
      ∃ program values, compile rt.unicode files fuel spec = .ok program ∧
        (evalProgram rt fuel program).outcome = .ok values ∧
        dsl = (evalProgram rt fuel program).final.dsl program := by
  unfold new
  rw [Outcome.bind_eq_ok]
  constructor
  · rintro ⟨program, hprogram, hrun⟩
    rcases runProgram_eq_ok.mp hrun with ⟨values, hvalues, hdsl⟩
    exact ⟨program, values, hprogram, hvalues, hdsl⟩
  · rintro ⟨program, values, hprogram, hvalues, hdsl⟩
    exact ⟨program, hprogram, runProgram_eq_ok.mpr ⟨values, hvalues, hdsl⟩⟩

end Lang
end Di
