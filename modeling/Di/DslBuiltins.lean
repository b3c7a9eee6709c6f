import Di.DslRuntime

/-!
# The built-in functions

Each function is written over the evaluator `ev` that it calls back for
unevaluated arguments and for the S-expressions it builds; the evaluator itself
ties the knot.  The table records, as in the source, how many arguments a
function needs and whether they reach it unevaluated.  An index out of range, a
failed type assertion, a division by zero and a map key that cannot be hashed
crash the process.
-/

namespace Di
namespace Lang

open Procedure

/-! ## Arithmetic and comparison -/

def intArg : Ast → EvalM ℤ
  | .int x => pure x
  | arg => complain "bad arithmetic argument: " arg

def arithFun (op : ℤ → ℤ → Option ℤ) (args : List Ast) : EvalM Ast := do
  let ints ← collect intArg args
  match ints with
  | [] => crash
  | first :: rest =>
      match rest.foldlM op first with
      | some total => pure (.int total)
      | none => crash

def modImpl : List Ast → EvalM Ast :=
  arithFun fun a b => if b = 0 then none else some (a.tmod b)

def mulImpl : List Ast → EvalM Ast := arithFun fun a b => some (wrap (a * b))

def subImpl : List Ast → EvalM Ast := arithFun fun a b => some (wrap (a - b))

def divImpl : List Ast → EvalM Ast :=
  arithFun fun a b => if b = 0 then none else some (wrap (a.tdiv b))

def concatArg : Ast → EvalM String
  | .str text => pure text
  | arg => complain "bad string concatenation argument: " arg

def plusImpl (args : List Ast) : EvalM Ast :=
  match args with
  | .str _ :: _ => do
      let texts ← collect concatArg args
      pure (.str ("".intercalate texts))
  | _ => arithFun (fun a b => some (wrap (a + b))) args

def compareFun (op : ℤ → ℤ → Bool) (args : List Ast) : EvalM Ast := do
  let ints ← collect intArg args
  match ints with
  | a :: b :: _ => pure (.bool (op a b))
  | _ => crash

def lessImpl : List Ast → EvalM Ast := compareFun fun a b => a < b

def moreImpl : List Ast → EvalM Ast := compareFun fun a b => b < a

def eqImpl : List Ast → EvalM Ast
  | a :: b :: _ => do
      let store ← readStore
      sightUnless (deepEqual store a b = deepEqual store a.shown b.shown)
      matchUnless (apart store a b)
      pure (.bool (deepEqual store a b))
  | _ => crash

/-! ## Containers -/

def stringArg : Ast → EvalM String
  | .str text => pure text
  | elem => complain "expected string, found: " elem

def flattenString (args : List Ast) : EvalM (List String) := collect stringArg (flatten args)

def dockerImpl (args : List Ast) : EvalM Ast := do
  let texts ← flattenString args
  match texts with
  | [] => crash
  | image :: command =>
      let store ← readStore
      writeStore { store with
        containers := store.containers ++ [{ image := image, command := command }] }
      pure (.atom (.container store.containers.length))

def modifyContainer (i : ℕ) (f : AstContainer → AstContainer) : EvalM Unit := do
  let store ← readStore
  writeStore { store with containers := store.containers.modify i f }

/-- The message prints a nil pointer. -/
def setEnvHelper (k value : Ast) : Atom → EvalM Unit
  | .machine _ => fail "cannot setEnv on non-container: <nil>"
  | .container i =>
      match k with
      | .str name =>
          match value with
          | .str text => modifyContainer i fun c => { c with env := c.env.insert name text }
          | _ => complain "setEnv value must be a string: " value
      | _ => complain "setEnv key must be a string: " k

def setEnvLabel (k value target : Ast) : EvalM Unit := do
  let store ← readStore
  match store.resolveLabel target with
  | some l => forEach (setEnvHelper k value) l.elems
  | none => complain "cannot setEnv on invalid label: " target

def setEnvTarget (k value target : Ast) : EvalM Unit :=
  match target with
  | .atom (.container i) => setEnvHelper k value (.container i)
  | .str _ => setEnvLabel k value target
  | .label _ => setEnvLabel k value target
  | _ => complain "setEnv target must be either a label or container: " target

def setEnvImpl : List Ast → EvalM Ast
  | target :: k :: value :: _ => do
      forEach (setEnvTarget k value) (flatten [target])
      pure emptyList
  | _ => crash

/-! ## Labels, placement and connections -/

def labelArg (elem : Ast) : EvalM AstLabel := do
  let store ← readStore
  match store.resolveLabel elem with
  | some l => pure l
  | none => complain "expected label, found: " elem

def flattenLabel (args : List Ast) : EvalM (List AstLabel) := collect labelArg (flatten args)

def sortedPair (a b : String) : String × String := if a < b then (a, b) else (b, a)

/-- `parsedLabels`: one pair for any two positions. -/
def exclusivePairs : List String → List (String × String)
  | [] => []
  | name :: rest => rest.map (sortedPair name) ++ exclusivePairs rest

def excludeAtom (l : AstLabel) (pairs : List (String × String)) : Atom → EvalM Unit
  | .container i => modifyContainer i fun c => { c with exclusive := c.exclusive ∪ pairs.toFinset }
  | .machine _ => complain "placement labels must contain containers: " (.label l)

def placementImpl (args : List Ast) : EvalM Ast :=
  match args with
  | [] => crash
  | .str ptype :: rest => do
      let labels ← flattenLabel rest
      let names := labels.map AstLabel.ident
      if labels.length < 2 then fail "placment requires at least 2 labels."
      else if ptype = "exclusive" then do
        forEach (fun l => forEach (excludeAtom l (exclusivePairs names)) l.elems) labels
        emit (.placed names)
        pure (.sexp (.ident "placement" :: args) {})
      else fail ("not a valid placement type: " ++ ptype)
  | arg :: _ => complain "placement type must be a string, found: " arg

def portRange : Ast → EvalM (ℤ × ℤ)
  | .int port => pure (port, port)
  | .list isNil elems =>
      match elems with
      | [.int low, .int high] => pure (low, high)
      | _ => complain "port range must have two ints: " (.list isNil elems)
  | arg => complain "port range must be an int or a list of ints: " arg

def connectLabels (low high : ℤ) (source target : AstLabel) : EvalM Unit :=
  if (source.ident = publicInternetLabel ∨ target.ident = publicInternetLabel) ∧ low ≠ high then
    fail "Public Internet cannot connect on port ranges"
  else if source.ident = publicInternetLabel ∧ target.ident = publicInternetLabel then
    fail "cannot connect Public Internet to itself"
  else do
    let store ← readStore
    writeStore { store with
      connections := store.connections.insert ⟨source.ident, target.ident, low, high⟩ }

def connectImpl : List Ast → EvalM Ast
  | ports :: source :: targets => do
      let (low, high) ← portRange ports
      if low < 0 ∨ 65535 < high ∨ high < low then
        fail ("invalid port range: [" ++ intText low ++ ", " ++ intText high ++ "]")
      else do
        let sources ← flattenLabel [source]
        let targets ← flattenLabel targets
        forEach (fun s => forEach (connectLabels low high s) targets) sources
        pure emptyList
  | _ => crash

def Store.setLabels (store : Store) (labels : List String) : Atom → Store
  | .machine i =>
      { store with machines := store.machines.modify i fun m => { m with labels := labels } }
  | .container i =>
      { store with containers := store.containers.modify i fun c => { c with labels := labels } }

/-- Only the label added last is compared with the new one. -/
def Store.tag (label : String) (store : Store) (a : Atom) : Store :=
  let labels := store.labelsOf a
  if labels.getLast? = some label then store else store.setLabels (labels ++ [label]) a

def Store.withLabel (store : Store) (label : String) (atoms : List Atom) : Store :=
  let tagged := atoms.foldl (Store.tag label) store
  { tagged with labels := tagged.labels.insert label ⟨label, atoms⟩ }

def labelMembers (elem : Ast) : EvalM (List Atom) := do
  let store ← readStore
  match store.resolveLabel elem with
  | some l => pure l.elems
  | none => complain "undefined label: " elem

def labelTarget (elem : Ast) : EvalM (List Atom) :=
  match elem with
  | .atom a => pure [a]
  | .str _ => labelMembers elem
  | .label _ => labelMembers elem
  | _ => complain "label must apply to atoms or other labels, found: " elem

def labelImpl : List Ast → EvalM Ast
  | [] => crash
  | .str label :: rest =>
      if label = publicInternetLabel then
        fail "the \"public\" label is reserved for the public internet"
      else do
        let store ← readStore
        if (store.resolveLabel (.str label)).isSome then
          fail ("attempt to redefine label: " ++ label)
        else do
          let groups ← collect labelTarget (flatten rest)
          let store ← readStore
          writeStore (store.withLabel label groups.flatten)
          pure (.label ⟨label, groups.flatten⟩)
  | arg :: _ => complain "label must be a string, found: " arg

def labelNameImpl : List Ast → EvalM Ast
  | [] => crash
  | arg :: _ => do
      let store ← readStore
      match store.resolveLabel arg with
      | some l => pure (.str l.ident)
      | none => complain "labelName applies to labels: " arg

def labelHostImpl : List Ast → EvalM Ast
  | [] => crash
  | arg :: _ => do
      let store ← readStore
      match store.resolveLabel arg with
      | some l => pure (.str (l.ident ++ ".di"))
      | none => complain "labelHost applies to labels: " arg

/-! ## Machines -/

/-- `setMachineAttributes`; attributes before an unknown one stay set. -/
def setMachineAttributes (machine : AstMachine) : List Ast → AstMachine × Option Ast
  | [] => (machine, none)
  | .provider text :: rest => setMachineAttributes { machine with provider := text } rest
  | .region text :: rest => setMachineAttributes { machine with region := text } rest
  | .size text :: rest => setMachineAttributes { machine with size := text } rest
  | .diskSize x :: rest => setMachineAttributes { machine with diskSize := x } rest
  | .role text :: rest => setMachineAttributes { machine with role := text } rest
  | .range r :: rest =>
      if r.ident = "ram" then setMachineAttributes { machine with ram := r } rest
      else if r.ident = "cpu" then setMachineAttributes { machine with cpu := r } rest
      else (machine, some (.range r))
  | .key k :: rest =>
      setMachineAttributes { machine with sshKeys := machine.sshKeys ++ [k] } rest
  | arg :: _ => (machine, some arg)

def unrecognized : Option Ast → EvalM Unit
  | none => pure ()
  | some arg => complain "unrecognized argument to machine definition: " arg

def machineImpl (args : List Ast) : EvalM Ast := do
  let (machine, unknown) := setMachineAttributes {} (flatten args)
  unrecognized unknown
  let store ← readStore
  writeStore { store with machines := store.machines ++ [machine] }
  pure (.atom (.machine store.machines.length))

def changeMachine (attributes : List Ast) : Ast → EvalM Ast
  | .atom (.machine i) => do
      let store ← readStore
      match store.machines[i]? with
      | none => crash
      | some machine =>
          let (changed, unknown) := setMachineAttributes machine attributes
          writeStore { store with machines := store.machines.set i changed }
          unrecognized unknown
          pure (.atom (.machine i))
  | m => complain "bad type, cannot change machine attributes: " m

def machineAttributeImpl : List Ast → EvalM Ast
  | [] => crash
  | target :: attributes => do
      let machines ← collect (changeMachine (flatten attributes)) (flatten [target])
      pure (appended machines)

/-- A constructor of a kind of value that wraps a string. -/
def wrapString (wrapper : String → Ast) (message : String) : List Ast → EvalM Ast
  | [] => crash
  | .str text :: _ => pure (wrapper text)
  | arg :: _ => complain message arg

def githubKeyImpl : List Ast → EvalM Ast :=
  wrapString (fun text => .key (.github text)) "github username must be a string: "

def plaintextKeyImpl : List Ast → EvalM Ast :=
  wrapString (fun text => .key (.plaintext text)) "key must be a string: "

def roleImpl : List Ast → EvalM Ast := wrapString .role "role must be a string: "

def regionImpl : List Ast → EvalM Ast := wrapString .region "region must be a string: "

/-- `providerImpl` and `sizeImpl` assert the type of their argument unchecked. -/
def assertString (wrapper : String → Ast) : List Ast → EvalM Ast
  | .str text :: _ => pure (wrapper text)
  | _ => crash

def providerImpl : List Ast → EvalM Ast := assertString .provider

def sizeImpl : List Ast → EvalM Ast := assertString .size

def diskSizeImpl : List Ast → EvalM Ast
  | [] => crash
  | .int x :: _ => pure (.diskSize x)
  | arg :: _ => complain "diskSize must be an int: " arg

def toFloat : Ast → Option GoFloat
  | .int x => some (GoFloat.ofInt x)
  | .float x => some x
  | _ => none

def rangeTypeImpl (ident : String) (args : List Ast) : EvalM Ast :=
  let bad : EvalM Ast := do
    let store ← readStore
    fail ("range arguments must be convertable to floats: " ++ slicedText store args)
  match args with
  | [] => crash
  | [low] =>
      match toFloat low with
      | some low => pure (.range ⟨ident, low, .zero⟩)
      | none => bad
  | low :: high :: _ =>
      match toFloat low, toFloat high with
      | some low, some high => pure (.range ⟨ident, low, high⟩)
      | _, _ => bad

/-! ## Lists -/

def listImpl (args : List Ast) : EvalM Ast := pure (appended args)

def makeListImpl (ev : Ast → EvalM Ast) : List Ast → EvalM Ast
  | count :: elem :: _ => do
      let n ← ev count
      match n with
      | .int n =>
          if n < 0 then complain "makeList must begin with a positive integer, found: " count
          else do
            let elems ← collect (fun _ => ev elem) (List.range n.toNat)
            pure (appended elems)
      | _ => complain "makeList must begin with a positive integer, found: " count
  | _ => crash

def lenImpl : List Ast → EvalM Ast
  | [] => crash
  | .list _ elems :: _ => pure (.int elems.length)
  | arg :: _ => complain "len applies to lists: " arg

def carImpl : List Ast → EvalM Ast
  | [] => crash
  | .list _ (first :: _) :: _ => pure first
  | arg :: _ => complain "car applies to populated lists: " arg

def cdrImpl : List Ast → EvalM Ast
  | [] => crash
  | .list _ (_ :: rest) :: _ => pure (.list false rest)
  | arg :: _ => complain "cdr applies to populated lists: " arg

def consImpl : List Ast → EvalM Ast
  | first :: .list _ rest :: _ => pure (.list false (first :: rest))
  | first :: _ :: _ => complain "cons applies to lists: " first
  | _ => crash

def nthImpl : List Ast → EvalM Ast
  | .int index :: .list _ elems :: _ =>
      if index < 0 then fail ("array index out of bounds: " ++ intText index)
      else match elems[index.toNat]? with
        | some elem => pure elem
        | none => fail ("array index out of bounds: " ++ intText index)
  | .int _ :: arg :: _ => complain "nth applies to lists: " arg
  | arg :: _ :: _ => complain "nth list index must be an int: " arg
  | _ => crash

def rangeArg : Ast → EvalM ℤ
  | .int x => pure x
  | arg => complain "range arguments must be integers: " arg

/-- The loop of `rangeImpl`; its counter wraps around. -/
def rangeFrom : ℕ → ℤ → ℤ → ℤ → Option (List ℤ)
  | 0, i, stop, _ => if i < stop then none else some []
  | fuel + 1, i, stop, step =>
      if i < stop then (rangeFrom fuel (wrap (i + step)) stop step).map (i :: ·) else some []

def rangeBetween (fuel : ℕ) (start stop step : ℤ) : EvalM Ast :=
  if step ≤ 0 then fail "step must be greater than zero"
  else match rangeFrom fuel start stop step with
    | some ints => pure (appended (ints.map .int))
    | none => outOfFuel

def rangeImpl (fuel : ℕ) (args : List Ast) : EvalM Ast := do
  let ints ← collect rangeArg args
  match ints with
  | [stop] => rangeBetween fuel 0 stop 1
  | [start, stop] => rangeBetween fuel start stop 1
  | [start, stop, step] => rangeBetween fuel start stop step
  | _ => fail ("range expects 1, 2 or 3 arguments, found: " ++
      String.ofList (natChars ints.length))

/-! ## Hash maps -/

def parseBinding : Ast → EvalM (Ast × Ast)
  | .sexp [k, value] _ => pure (k, value)
  | elem => complain "binds must be exactly 2 arguments: " elem

def hmapBind (ev : Ast → EvalM Ast) :
    List (Ast × Ast) → List (Scalar × Ast) → EvalM (List (Scalar × Ast))
  | [], entries => pure entries
  | (keyExpr, valueExpr) :: rest, entries => do
      let k ← ev keyExpr
      let value ← ev valueExpr
      let k ← hashKey entries k
      hmapBind ev rest (assign entries k value)

def hmapImpl (ev : Ast → EvalM Ast) (args : List Ast) : EvalM Ast := do
  let bindings ← collect parseBinding args
  let entries ← hmapBind ev bindings []
  pure (.hmap entries)

def notHmap (arg : Ast) : EvalM Ast := do
  let store ← readStore
  fail (arg.text store ++ " must be a hmap")

def hmapSetImpl : List Ast → EvalM Ast
  | .hmap entries :: k :: value :: _ => do
      let k ← hashKey entries k
      pure (.hmap (assign entries k value))
  | arg :: _ :: _ :: _ => notHmap arg
  | _ => crash

def hmapGetImpl : List Ast → EvalM Ast
  | .hmap entries :: k :: _ => do
      let s ← hashKey entries k
      match entries.lookup s with
      | some value => pure value
      | none => complain "undefined key: " k
  | arg :: _ :: _ => notHmap arg
  | _ => crash

def hmapContainsImpl : List Ast → EvalM Ast
  | .hmap entries :: k :: _ => do
      let s ← hashKey entries k
      pure (.bool (entries.lookup s).isSome)
  | arg :: _ :: _ => notHmap arg
  | _ => crash

/-- The entries in the order of one traversal. -/
def visitEntries (rt : Runtime) (entries : List (Scalar × Ast)) :
    EvalM (List (Scalar × Ast)) := do
  let visit ← lookOutside
  pure (((rt.order visit).visit (List.range entries.length)).filterMap (entries[·]?))

def hmapKeysImpl (rt : Runtime) : List Ast → EvalM Ast
  | [] => crash
  | .hmap entries :: _ => do
      let visited ← visitEntries rt entries
      pure (appended (visited.map fun entry => .scalar entry.1))
  | arg :: _ => notHmap arg

def hmapValuesImpl (rt : Runtime) : List Ast → EvalM Ast
  | [] => crash
  | .hmap entries :: _ => do
      let visited ← visitEntries rt entries
      pure (appended (visited.map Prod.snd))
  | arg :: _ => notHmap arg

/-! ## Text and messages -/

def sprintfImpl (rt : Runtime) : List Ast → EvalM Ast
  | [] => crash
  | .str format :: args => do
      let store ← readStore
      match sprintfPlain store format.toList args with
      | some text =>
          sightUnless (sprintfSettled format.toList args)
          pure (.str (String.ofList text))
      | none =>
          sightUnless (Ast.plains args)
          let look ← lookOutside
          pure (.str (rt.sprintf look store format args))
  | arg :: _ => complain "sprintf format must be a string: " arg

def logLevels : List String := ["print", "debug", "info", "warn", "error"]

/-- The first message prints the zero value of the level. -/
def logImpl : List Ast → EvalM Ast
  | .str level :: .str _ :: _ =>
      if level ∈ logLevels then pure emptyList
      else fail ("log level must be one of [print, info, debug, warn, error]: " ++ quoted level)
  | .str _ :: arg :: _ => do
      let store ← readStore
      fail ("log message must be a string: " ++ arg.text store ++ "\n")
  | _ :: _ :: _ => fail "log level must be a string: \"\"\n"
  | _ => crash

def panicImpl : List Ast → EvalM Ast
  | .str text :: _ => fail ("panic: runtime error: " ++ text)
  | _ :: arg :: _ => do
      let store ← readStore
      fail ("panic message must be a string: " ++ arg.text store ++ "\n")
  | _ => crash

/-! ## Binding names -/

def argName : Ast → EvalM String
  | .ident name => pure name
  | _ => fail "lambda argument names must be idents"

def lambdaImpl : List Ast → EvalM Ast
  | [] => crash
  | .sexp args _ :: body => do
      let names ← collect argName args
      let env ← get
      pure (.lambda names body env.ctx)
  | _ :: _ => fail "lambda functions must define an argument list"

/-- The end of `defineImpl`; only the innermost frame is searched. -/
def bindNew [Observer] (name : String) (value : Ast) : EvalM Ast := do
  let env ← get
  Observer.observe (.defining ⟨env.ctx, name, value⟩)
  if ((env.ctx.headD []).lookup name).isSome then
    fail ("attempt to redefine: \"" ++ name ++ "\"")
  else do
    bindHere name value
    Observer.observe (.defined ⟨env.ctx, name, value⟩)
    pure emptyList

def defineImpl [Observer] (ev : Ast → EvalM Ast) : List Ast → EvalM Ast
  | [] => crash
  | .sexp elems _ :: body =>
      match elems with
      | [] => fail "define function must begin with a name"
      | .ident name :: args => do
          let value ← lambdaImpl (.sexp args {} :: body)
          bindNew name value
      | first :: _ => complain "define name must be an ident: " first
  | .ident name :: rest =>
      match rest with
      | [] => crash
      | [expr] => do
          let value ← ev expr
          bindNew name value
      | _ => fail ("not enough arguments: " ++ name)
  | arg :: _ => complain "define name must be an ident: " arg

/-- Earlier bindings are in scope for later ones. -/
def letBindings (ev : Ast → EvalM Ast) : List (Ast × Ast) → EvalM (List (String × Ast))
  | [] => pure []
  | (nameExpr, valueExpr) :: rest =>
      match nameExpr with
      | .ident name => do
          let value ← ev valueExpr
          bindHere name value
          let more ← letBindings ev rest
          pure ((name, value) :: more)
      | _ => complain "bind name must be an ident: " nameExpr

def letImpl (ev : Ast → EvalM Ast) : List Ast → EvalM Ast
  | [] => crash
  | .sexp bindings _ :: body => do
      let pairs ← collect parseBinding bindings
      let env ← get
      let bound ← inCtx ([] :: env.ctx) (letBindings ev pairs)
      let body := if body.isEmpty then [emptyList] else body
      ev (.sexp (.lambda (bound.map Prod.fst) body env.ctx :: bound.map Prod.snd) {})
  | _ :: _ => fail "let binds must be defined in an S-expression"

/-! ## Control -/

def boolImpl : List Ast → EvalM Ast
  | [] => crash
  | arg :: _ => do
      let b ← test arg
      pure (.bool b)

def notImpl (ev : Ast → EvalM Ast) : List Ast → EvalM Ast
  | [] => crash
  | arg :: _ => do
      let value ← ev arg
      let b ← test value
      pure (.bool !b)

def andImpl (ev : Ast → EvalM Ast) : List Ast → EvalM Ast
  | [] => pure (.bool true)
  | arg :: rest => do
      let value ← ev arg
      let b ← test value
      if b then andImpl ev rest else pure (.bool false)

def orImpl (ev : Ast → EvalM Ast) : List Ast → EvalM Ast
  | [] => pure (.bool false)
  | arg :: rest => do
      let value ← ev arg
      let b ← test value
      if b then pure (.bool true) else orImpl ev rest

/-- What the two have in common: the first value `stop` decides. -/
def shortCircuit (stop : Bool) (ev : Ast → EvalM Ast) : List Ast → EvalM Ast
  | [] => pure (.bool !stop)
  | arg :: rest => do
      let value ← ev arg
      let b ← test value
      if b = stop then pure (.bool stop) else shortCircuit stop ev rest

theorem andImpl_eq (ev : Ast → EvalM Ast) (args : List Ast) :
    andImpl ev args = shortCircuit false ev args := by
  induction args with
  | nil => rfl
  | cons arg rest ih =>
      rw [andImpl, shortCircuit, ih]
      congr 1
      funext value
      congr 1
      funext b
      cases b with
      | true => rfl
      | false => rfl

theorem orImpl_eq (ev : Ast → EvalM Ast) (args : List Ast) :
    orImpl ev args = shortCircuit true ev args := by
  induction args with
  | nil => rfl
  | cons arg rest ih =>
      rw [orImpl, shortCircuit, ih]

def ifImpl (ev : Ast → EvalM Ast) : List Ast → EvalM Ast
  | cond :: thenExpr :: rest => do
      let value ← ev cond
      let b ← test value
      if b then ev thenExpr
      else match rest with
        | [] => pure emptyList
        | elseExpr :: _ => ev elseExpr
  | _ => crash

def prognImpl (args : List Ast) : EvalM Ast :=
  match args.getLast? with
  | some value => pure value
  | none => crash

def applyImpl (ev : Ast → EvalM Ast) : List Ast → EvalM Ast
  | f :: .list _ elems :: _ => ev (.sexp (f :: elems) {})
  | _ :: arg :: _ => complain "apply requires a lists: " arg
  | _ => crash

def listArg : Ast → EvalM (List Ast)
  | .list _ elems => pure elems
  | arg => complain "map applies to list: " arg

def mapImpl (ev : Ast → EvalM Ast) : List Ast → EvalM Ast
  | [] => crash
  | f :: args => do
      let lists ← collect listArg args
      match lists with
      | [] => crash
      | first :: others =>
          if others.all fun l => l.length = first.length then do
            let mapped ← collect
              (fun i => ev (.sexp (f :: lists.map fun l => l.getD i emptyList) {}))
              (List.range first.length)
            pure (appended mapped)
          else fail "unbalanced lists"

def reduceFrom (ev : Ast → EvalM Ast) (f : Ast) : Ast → List Ast → EvalM Ast
  | result, [] => pure result
  | result, item :: rest => do
      let next ← ev (.sexp [f, result, item] {})
      reduceFrom ev f next rest

def reduceImpl (ev : Ast → EvalM Ast) : List Ast → EvalM Ast
  | f :: .list isNil elems :: _ =>
      match elems with
      | first :: second :: rest => reduceFrom ev f first (second :: rest)
      | _ => complain "not enough elements to reduce: " (.list isNil elems)
  | _ :: arg :: _ => complain "reduce applies to lists: " arg
  | _ => crash

/-! ## Modules -/

def importImpl (_ : List Ast) : EvalM Ast := fail "import must be begin the module"

/-- The first character of an empty name is not upper case. -/
def shouldExport (rt : Runtime) (name : String) : Bool :=
  match name.toList with
  | [] => false
  | c :: _ => rt.unicode.upper c

/-- A name that a module exports is bound without a check. -/
def bindExport [Observer] (name : String) (value : Ast) : EvalM Unit := do
  let env ← get
  bindHere name value
  Observer.observe (.exported ⟨env.ctx, name, value⟩)

/-- `astModule.eval`: the body sees neither the bindings of the importing context nor those of
the root. -/
def evalModule [Observer] (rt : Runtime) (ev : Ast → EvalM Ast) (name : String)
    (body : List Ast) : EvalM Ast := do
  let (results, ctx) ← inCtx [[], []] do
    let results ← collect ev body
    let env ← get
    pure (results, env.ctx)
  forEach (fun bind => bindExport (name ++ "." ++ bind.1) bind.2)
    ((ctx.headD []).filter fun bind => shouldExport rt bind.1)
  pure (.moduleNode name results)

def moduleImpl [Observer] (rt : Runtime) (ev : Ast → EvalM Ast) : List Ast → EvalM Ast
  | [] => crash
  | nameExpr :: body => do
      let value ← ev nameExpr
      match value with
      | .str name => evalModule rt ev name body
      | _ => complain "module name must be a string: " value

/-! ## The table -/

structure FuncImpl where
  run : List Ast → EvalM Ast
  minArgs : ℕ
  lazy : Bool

def funcImplMap [Observer] (rt : Runtime) (fuel : ℕ) (ev : Ast → EvalM Ast) :
    List (String × FuncImpl) :=
  [("!", ⟨notImpl ev, 1, false⟩),
   ("%", ⟨modImpl, 2, false⟩),
   ("*", ⟨mulImpl, 2, false⟩),
   ("+", ⟨plusImpl, 2, false⟩),
   ("-", ⟨subImpl, 2, false⟩),
   ("/", ⟨divImpl, 2, false⟩),
   ("<", ⟨lessImpl, 2, false⟩),
   ("=", ⟨eqImpl, 2, false⟩),
   (">", ⟨moreImpl, 2, false⟩),
   ("and", ⟨andImpl ev, 1, true⟩),
   ("apply", ⟨applyImpl ev, 2, false⟩),
   ("bool", ⟨boolImpl, 1, false⟩),
   ("car", ⟨carImpl, 1, false⟩),
   ("cdr", ⟨cdrImpl, 1, false⟩),
   ("connect", ⟨connectImpl, 3, false⟩),
   ("cons", ⟨consImpl, 2, false⟩),
   ("cpu", ⟨rangeTypeImpl "cpu", 1, false⟩),
   ("define", ⟨defineImpl ev, 2, true⟩),
   ("diskSize", ⟨diskSizeImpl, 1, false⟩),
   ("docker", ⟨dockerImpl, 1, false⟩),
   ("githubKey", ⟨githubKeyImpl, 1, false⟩),
   ("hmap", ⟨hmapImpl ev, 0, true⟩),
   ("hmapGet", ⟨hmapGetImpl, 2, false⟩),
   ("hmapContains", ⟨hmapContainsImpl, 2, false⟩),
   ("hmapSet", ⟨hmapSetImpl, 3, false⟩),
   ("hmapKeys", ⟨hmapKeysImpl rt, 1, false⟩),
   ("hmapValues", ⟨hmapValuesImpl rt, 1, false⟩),
   ("if", ⟨ifImpl ev, 2, true⟩),
   ("import", ⟨importImpl, 1, true⟩),
   ("label", ⟨labelImpl, 2, false⟩),
   ("labelName", ⟨labelNameImpl, 1, false⟩),
   ("labelHost", ⟨labelHostImpl, 1, false⟩),
   ("lambda", ⟨lambdaImpl, 2, true⟩),
   ("let", ⟨letImpl ev, 1, true⟩),
   ("len", ⟨lenImpl, 1, false⟩),
   ("log", ⟨logImpl, 2, false⟩),
   ("list", ⟨listImpl, 0, false⟩),
   ("machine", ⟨machineImpl, 0, false⟩),
   ("machineAttribute", ⟨machineAttributeImpl, 2, false⟩),
   ("makeList", ⟨makeListImpl ev, 2, true⟩),
   ("map", ⟨mapImpl ev, 2, false⟩),
   ("module", ⟨moduleImpl rt ev, 2, true⟩),
   ("nth", ⟨nthImpl, 2, false⟩),
   ("or", ⟨orImpl ev, 1, true⟩),
   ("placement", ⟨placementImpl, 2, false⟩),
   ("plaintextKey", ⟨plaintextKeyImpl, 1, false⟩),
   ("panic", ⟨panicImpl, 1, false⟩),
   ("progn", ⟨prognImpl, 1, false⟩),
   ("provider", ⟨providerImpl, 1, false⟩),
   ("reduce", ⟨reduceImpl ev, 2, false⟩),
   ("region", ⟨regionImpl, 1, false⟩),
   ("ram", ⟨rangeTypeImpl "ram", 1, false⟩),
   ("range", ⟨rangeImpl fuel, 1, false⟩),
   ("role", ⟨roleImpl, 1, false⟩),
   ("setEnv", ⟨setEnvImpl, 3, false⟩),
   ("size", ⟨sizeImpl, 1, false⟩),
   ("sprintf", ⟨sprintfImpl rt, 1, false⟩)]

end Lang
end Di
