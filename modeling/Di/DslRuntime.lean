import Di.Procedure
import Di.DslPrint
import Di.KeyedTable

/-!
# What the evaluator works on

Evaluation happens in a context, the chain of frames of bindings that are in
scope, over the one store that all contexts share.  A context is kept by value:
a lambda takes a copy of the chain when it is created, and no other context is
written to once the evaluation has left it.

Besides changing the environment, a run records the stores it has gone through,
the placement statements it has executed, whether it has looked at something
that the text of the program does not show, the calls of built-in functions with
their evaluated arguments, the keys it has hashed, and how deeply the lambdas it has
called are nested.  An observer may be told of the names it binds.
-/

namespace Di
namespace Lang

/-! ## Errors -/

/-- A plain error, or a `dslError` around another error. -/
inductive DslError
  | plain (text : String)
  | located (pos : Position) (inner : DslError)
  deriving DecidableEq

namespace DslError

/-- The most nested position that is set. -/
def innermostPos (pos : Position) : DslError → Position
  | .plain _ => pos
  | .located inner rest =>
      let found := innermostPos inner rest
      if found.line = 0 then pos else found

def innermostText : DslError → String
  | .plain text => text
  | .located _ inner => inner.innermostText

/-- `Error`. -/
def message : DslError → String
  | .plain text => text
  | .located pos inner =>
      let at' := innermostPos pos inner
      let line := String.ofList (natChars at'.line)
      if at'.filename = "" then line ++ ": " ++ inner.innermostText
      else at'.filename ++ ":" ++ line ++ ": " ++ inner.innermostText

end DslError

/-! ## The environment -/

structure Env where
  ctx : Ctx
  store : Store
  /-- The number of looks outside of the program so far. -/
  visits : ℕ
  /-- The number of lambdas whose bodies are being evaluated. -/
  depth : ℕ

inductive Event
  | wrote (store : Store)
  | placed (labels : List String)
  | sighted
  | matched
  | called (name : String) (args : List Ast)
  | hashed (key : Ast)
  | entered (depth : ℕ)

abbrev EvalM := Procedure Env DslError Event

/-- A name, a value for it, and the context before the name is bound to the value. -/
structure Assignment where
  ctx : Ctx
  name : String
  value : Ast

/-- A definition is attempted or has succeeded, or a module has exported a name. -/
inductive Moment
  | defining (a : Assignment)
  | defined (a : Assignment)
  | exported (a : Assignment)

/-- What is done whenever the evaluation passes through such a moment. -/
class Observer where
  observe : Moment → EvalM Unit

/-- The language itself does nothing there. -/
instance (priority := low) unobserved : Observer := ⟨fun _ => pure ()⟩

/-- What is outside of the program, for each look at it: what `fmt.Sprintf` returns for formats
that are not modelled, the order in which the entries of a hash map are visited, by their
numbers, and the tables of Unicode. -/
structure Runtime where
  sprintf : ℕ → Store → String → List Ast → String
  order : ℕ → IterOrder ℕ
  unicode : Unicode

open Procedure

def fail {α : Type} (text : String) : EvalM α := throw (.plain text)

def readStore : EvalM Store := do
  let env ← get
  pure env.store

def writeStore (store : Store) : EvalM Unit := do
  modify fun env => { env with store := store }
  emit (.wrote store)

/-- Records a look at something that the program text does not show. -/
def sightUnless (shown : Bool) : EvalM Unit :=
  if shown then pure () else emit .sighted

/-- Records a comparison whose result may depend on source positions. -/
def matchUnless (apart : Bool) : EvalM Unit :=
  if apart then pure () else emit .matched

/-- The number of a look outside of the program. -/
def lookOutside : EvalM ℕ := do
  let env ← get
  modify fun env => { env with visits := env.visits + 1 }
  pure env.visits

/-- An error whose text ends with the text of a value. -/
def complain {α : Type} (text : String) (culprit : Ast) : EvalM α := do
  let store ← readStore
  fail (text ++ culprit.text store)

def inCtx {α : Type} (ctx : Ctx) (m : EvalM α) : EvalM α :=
  within (fun env => { env with ctx := ctx }) (fun env env' => { env' with ctx := env.ctx }) m

/-- Evaluates the body of a lambda. -/
def calling {α : Type} (m : EvalM α) : EvalM α := do
  let env ← get
  emit (.entered env.depth)
  within (fun env => { env with depth := env.depth + 1 })
    (fun env env' => { env' with depth := env.depth }) m

/-- Assignment in the innermost frame. -/
def Ctx.bind (ctx : Ctx) (name : String) (value : Ast) : Ctx :=
  match ctx with
  | [] => []
  | binds :: outer => assign binds name value :: outer

def bindHere (name : String) (value : Ast) : EvalM Unit :=
  modify fun env => { env with ctx := env.ctx.bind name value }

def Ctx.find : Ctx → String → Option Ast
  | [], _ => none
  | binds :: outer, name =>
      match binds.lookup name with
      | some value => some value
      | none => Ctx.find outer name

/-! ## Values -/

def emptyList : Ast := .list false []

/-- A slice that was declared without a value and appended to. -/
def appended (elems : List Ast) : Ast := .list elems.isEmpty elems

def toBool : Ast → Bool
  | .list _ elems => !elems.isEmpty
  | .str text => text ≠ ""
  | .int x => x ≠ 0
  | .bool b => b
  | _ => true

/-- The text of a number without a point or an exponent is that of an integer. -/
def Scalar.settled : Scalar → Bool
  | .float x => '.' ∈ x.formatG || 'e' ∈ x.formatG
  | _ => true

/-- The value that is read from the text of a literal. -/
def Scalar.shown : Scalar → Scalar
  | .float x => if Scalar.settled (.float x) then .float x else .int (GoFloat.digitsValue x.formatG)
  | value => value

/-- A floating-point zero is true, the integer with its text is false. -/
def decisive : Ast → Bool
  | .float x => x ≠ .zero
  | _ => true

def test (value : Ast) : EvalM Bool := do
  sightUnless (decisive value)
  pure (toBool value)

/-- A key for a hash map with the given entries; the other kinds of value cannot be hashed.  The
text does not tell a number from the integer with the same text. -/
def hashKey (entries : List (Scalar × Ast)) (key : Ast) : EvalM Scalar := do
  emit (.hashed key)
  match key with
  | .scalar k => do
      sightUnless (entries.all fun entry => entry.1.shown ≠ k.shown || entry.1 = k)
      pure k
  | _ => crash

mutual

def flattenOne : Ast → List Ast
  | .list _ elems => flatten elems
  | value => [value]

def flatten : List Ast → List Ast
  | [] => []
  | elem :: rest => flattenOne elem ++ flatten rest

end

/-- Contexts other than the root hold no labels, so only the store is searched. -/
def Store.resolveLabel (store : Store) : Ast → Option AstLabel
  | .str text =>
      if text = publicInternetLabel then some ⟨text, []⟩ else store.labels.lookup text
  | .label l => some l
  | _ => none

/-- Integer arithmetic of 64 bits. -/
def wrap (x : ℤ) : ℤ := Int.bmod x (2 ^ 64)

/-! ## `reflect.DeepEqual` -/

/-- Pointers are equal if they are the same or what they point to is equal. -/
def Store.sameAtom (store : Store) : Atom → Atom → Bool
  | .machine i, .machine j => i = j ∨ store.machines[i]? = store.machines[j]?
  | .container i, .container j => i = j ∨ store.containers[i]? = store.containers[j]?
  | _, _ => false

def Store.sameAtoms (store : Store) : List Atom → List Atom → Bool
  | [], [] => true
  | a :: as, b :: bs => store.sameAtom a b && store.sameAtoms as bs
  | _, _ => false

def Store.sameScalar (store : Store) : Scalar → Scalar → Bool
  | .atom a, .atom b => store.sameAtom a b
  | x, y => x = y

mutual

def deepEqual (store : Store) : Ast → Ast → Bool
  | .list isNil elems, .list isNil' elems' => isNil = isNil' && deepEquals store elems elems'
  | .hmap entries, .hmap entries' =>
      entries.length = entries'.length && deepEqualEntries store entries entries'
  | .sexp elems pos, .sexp elems' pos' => deepEquals store elems elems' && pos = pos'
  | .lambda argNames body ctx, .lambda argNames' body' ctx' =>
      argNames = argNames' && deepEquals store body body' && deepEqualCtx store ctx ctx'
  | .moduleNode name body, .moduleNode name' body' =>
      name = name' && deepEquals store body body'
  | .label l, .label l' => l.ident = l'.ident && store.sameAtoms l.elems l'.elems
  | .scalar x, .scalar y => store.sameScalar x y
  | _, _ => false

def deepEquals (store : Store) : List Ast → List Ast → Bool
  | [], [] => true
  | a :: as, b :: bs => deepEqual store a b && deepEquals store as bs
  | _, _ => false

def deepEqualEntries (store : Store) : List (Scalar × Ast) → List (Scalar × Ast) → Bool
  | [], _ => true
  | (k, value) :: rest, entries =>
      (match entries.lookup k with
        | some value' => deepEqual store value value'
        | none => false) && deepEqualEntries store rest entries

def deepEqualBinds (store : Store) : List (String × Ast) → List (String × Ast) → Bool
  | [], _ => true
  | (name, value) :: rest, binds =>
      (match binds.lookup name with
        | some value' => deepEqual store value value'
        | none => false) && deepEqualBinds store rest binds

def deepEqualCtx (store : Store) :
    List (List (String × Ast)) → List (List (String × Ast)) → Bool
  | [], [] => true
  | binds :: outer, binds' :: outer' =>
      binds.length = binds'.length && deepEqualBinds store binds binds' &&
        deepEqualCtx store outer outer'
  | _, _ => false

end

mutual

/-- A tree with the numbers that are read from its text. -/
def Ast.shown : Ast → Ast
  | .list isNil elems => .list isNil (Ast.showns elems)
  | .hmap entries => .hmap (Ast.shownEntries entries)
  | .sexp elems pos => .sexp (Ast.showns elems) pos
  | .lambda argNames body ctx => .lambda argNames (Ast.showns body) (Ast.shownCtx ctx)
  | .moduleNode name body => .moduleNode name (Ast.showns body)
  | .label l => .label l
  | .scalar value => .scalar value.shown

def Ast.showns : List Ast → List Ast
  | [] => []
  | elem :: rest => elem.shown :: Ast.showns rest

def Ast.shownEntries : List (Scalar × Ast) → List (Scalar × Ast)
  | [] => []
  | (k, value) :: rest => (k.shown, value.shown) :: Ast.shownEntries rest

def Ast.shownBinds : List (String × Ast) → List (String × Ast)
  | [] => []
  | (name, value) :: rest => (name, value.shown) :: Ast.shownBinds rest

def Ast.shownCtx : List (List (String × Ast)) → List (List (String × Ast))
  | [] => []
  | binds :: outer => Ast.shownBinds binds :: Ast.shownCtx outer

end

mutual

/-- A tree without the source positions of its S-expressions. -/
def Ast.unplaced : Ast → Ast
  | .list isNil elems => .list isNil (Ast.unplaceds elems)
  | .hmap entries => .hmap (Ast.unplacedEntries entries)
  | .sexp elems _ => .sexp (Ast.unplaceds elems) {}
  | .lambda argNames body ctx => .lambda argNames (Ast.unplaceds body) (Ast.unplacedCtx ctx)
  | .moduleNode name body => .moduleNode name (Ast.unplaceds body)
  | .label l => .label l
  | .scalar value => .scalar value

def Ast.unplaceds : List Ast → List Ast
  | [] => []
  | elem :: rest => elem.unplaced :: Ast.unplaceds rest

def Ast.unplacedEntries : List (Scalar × Ast) → List (Scalar × Ast)
  | [] => []
  | (k, value) :: rest => (k, value.unplaced) :: Ast.unplacedEntries rest

def Ast.unplacedBinds : List (String × Ast) → List (String × Ast)
  | [] => []
  | (name, value) :: rest => (name, value.unplaced) :: Ast.unplacedBinds rest

def Ast.unplacedCtx : List (List (String × Ast)) → List (List (String × Ast))
  | [] => []
  | binds :: outer => Ast.unplacedBinds binds :: Ast.unplacedCtx outer

end

mutual

/-- Holds no code, and no number that has the text of an integer. -/
def Ast.plain : Ast → Bool
  | .list _ elems => Ast.plains elems
  | .hmap entries => Ast.plainEntries entries
  | .label _ => true
  | .scalar value => value.settled
  | _ => false

def Ast.plains : List Ast → Bool
  | [] => true
  | elem :: rest => elem.plain && Ast.plains rest

def Ast.plainEntries : List (Scalar × Ast) → Bool
  | [] => true
  | (k, value) :: rest => k.settled && value.plain && Ast.plainEntries rest

end

/-- Values that differ in more than source positions, or hold no code. -/
def apart (store : Store) (a b : Ast) : Bool :=
  !deepEqual store a.shown.unplaced b.shown.unplaced || a.shown.plain && b.shown.plain

/-! ## `fmt.Sprintf` -/

/-- A directive without flags whose verb fits its argument.  The verbs `%s` and `%v` print
everything but strings and integers through `String`. -/
def directive (store : Store) (verb : Char) (arg : Ast) : Option String :=
  match arg with
  | .str text => if verb = 's' ∨ verb = 'v' then some text else none
  | .int x => if verb = 'd' ∨ verb = 'v' then some (intText x) else none
  | arg => if verb = 's' ∨ verb = 'v' then some (arg.text store) else none

/-- Formats that consist of such directives only, one for each argument. -/
def sprintfPlain (store : Store) : List Char → List Ast → Option (List Char)
  | [], [] => some []
  | [], _ :: _ => none
  | '%' :: '%' :: rest, args => (sprintfPlain store rest args).map ('%' :: ·)
  | '%' :: verb :: rest, arg :: args =>
      match directive store verb arg with
      | some text => (sprintfPlain store rest args).map (text.toList ++ ·)
      | none => none
  | '%' :: _, _ => none
  | c :: rest, args => (sprintfPlain store rest args).map (c :: ·)

def Ast.settled : Ast → Bool
  | .scalar value => value.settled
  | _ => true

/-- `%s` does not fit an integer, so it tells the numbers with one text apart. -/
def sprintfSettled : List Char → List Ast → Bool
  | [], _ => true
  | '%' :: '%' :: rest, args => sprintfSettled rest args
  | '%' :: verb :: rest, arg :: args => (verb ≠ 's' || arg.settled) && sprintfSettled rest args
  | _ :: rest, args => sprintfSettled rest args

end Lang
end Di
