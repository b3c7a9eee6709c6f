import Di.DslBuiltins
import Di.DslQuery

/-!
# The evaluator

The evaluator is given fuel, one unit for each nested call of `eval`; a program
has a result if some amount of fuel yields it.  Arguments of a lambda are
evaluated twice, in the calling context and again in the context of the lambda,
as in the source.
-/

namespace Di
namespace Lang

open Procedure

def bindArgs : List String → List Ast → Binds → Binds
  | name :: names, value :: values, binds => bindArgs names values (assign binds name value)
  | _, _, binds => binds

def evalLambda (ev : Ast → EvalM Ast) (argNames : List String) (body : List Ast) (ctx : Ctx)
    (args : List Ast) : EvalM Ast :=
  if argNames.length ≠ args.length then do
    let store ← readStore
    fail ("bad number of arguments: [" ++ " ".intercalate argNames ++ "] " ++
      slicedText store args)
  else inCtx ctx do
    let values ← collect ev args
    let env ← get
    let results ← inCtx (bindArgs argNames values [] :: env.ctx) (calling (collect ev body))
    match results.getLast? with
    | some value => pure value
    | none => crash

/-- The error of a head that cannot be evaluated. -/
def headError (head : Ast) (pos : Position) (err : DslError) : DslError :=
  match head with
  | .ident name => .located pos (.plain ("unknown function: " ++ name))
  | _ => err

def callBuiltin (ev : Ast → EvalM Ast) (name : String) (impl : FuncImpl) (args : List Ast) :
    EvalM Ast :=
  if impl.lazy then impl.run args
  else do
    let values ← collect ev args
    emit (.called name values)
    impl.run values

def callLambda (ev : Ast → EvalM Ast) (argNames : List String) (body : List Ast) (ctx : Ctx)
    (args : List Ast) : EvalM Ast := do
  let args ← collect ev args
  evalLambda ev argNames body ctx args

def applyHead [Observer] (rt : Runtime) (fuel : ℕ) (ev : Ast → EvalM Ast) (pos : Position)
    (args : List Ast) : Ast → EvalM Ast
  | .ident name =>
      match (funcImplMap rt fuel ev).lookup name with
      | none => crash
      | some impl =>
          if args.length < impl.minArgs then
            throw (.located pos (.plain ("not enough arguments: " ++ name)))
          else mapError (.located pos) (callBuiltin ev name impl args)
  | .lambda argNames body ctx => mapError (.located pos) (callLambda ev argNames body ctx args)
  | first => mapError (.located pos)
      (complain "S-expressions must start with a function call: " first)

def evalSexp [Observer] (rt : Runtime) (fuel : ℕ) (ev : Ast → EvalM Ast) (elems : List Ast)
    (pos : Position) : EvalM Ast :=
  match elems with
  | [] => throw (.located pos (.plain "S-expressions must start with a function call: ()"))
  | head :: args => do
      let first ← mapError (headError head pos) (ev head)
      applyHead rt fuel ev pos args first

def isBuiltin [Observer] (rt : Runtime) (fuel : ℕ) (ev : Ast → EvalM Ast) (name : String) :
    Bool :=
  ((funcImplMap rt fuel ev).lookup name).isSome

def evalIdent [Observer] (rt : Runtime) (fuel : ℕ) (ev : Ast → EvalM Ast) (name : String) :
    EvalM Ast :=
  if isBuiltin rt fuel ev name then pure (.ident name)
  else do
    let env ← get
    match env.ctx.find name with
    | some value => pure value
    | none => fail ("unassigned variable: " ++ name)

def evalStep [Observer] (rt : Runtime) (fuel : ℕ) (ev : Ast → EvalM Ast) : Ast → EvalM Ast
  | .ident name => evalIdent rt fuel ev name
  | .sexp elems pos => evalSexp rt fuel ev elems pos
  | .list _ elems => do
      let values ← collect ev elems
      pure (.list false values)
  | .moduleNode name body => evalModule rt ev name body
  | value => pure value

def eval [Observer] (rt : Runtime) : ℕ → Ast → EvalM Ast
  | 0, _ => outOfFuel
  | fuel + 1, expr => evalStep rt fuel (eval rt fuel) expr

def Env.initial : Env := ⟨[[]], .empty, 0, 0⟩

/-- `astRoot.eval` in a new root context. -/
def evalProgram [Observer] (rt : Runtime) (fuel : ℕ) (program : List Ast) :
    Ran Env DslError Event (List Ast) :=
  collect (eval rt fuel) program Env.initial

def Env.dsl (env : Env) (program : List Ast) : Dsl where
  code := programText program
  binds := env.ctx.headD []
  store := env.store

end Lang
end Di
