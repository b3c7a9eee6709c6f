import Di.DslSoundness

/-!
# Evaluators that are compared call by call

The functions of the language only pass on what the evaluator does with their arguments.  Two
evaluators whose calls are related by a congruence of procedures are therefore related on
whole expressions, also if they have different observers, provided that binding a name
under the one observer is related to binding it under the other.
-/

namespace Di
namespace Lang

open Procedure

/-- The functions that depend on the evaluator or on the fuel. -/
def evaluators : List String :=
  ["!", "and", "apply", "define", "hmap", "if", "let", "makeList", "map", "module", "or", "range",
   "reduce"]

theorem lookup_plain {name : String} (hname : name ∉ evaluators) (o o' : Observer) (rt : Runtime)
    (fuel fuel' : ℕ) (ev ev' : Ast → EvalM Ast) :
    (@funcImplMap o rt fuel ev).lookup name = (@funcImplMap o' rt fuel' ev').lookup name := by
  simp only [evaluators, List.mem_cons, List.not_mem_nil, or_false, not_or, ← ne_eq,
    ← beq_eq_false_iff_ne] at hname
  simp only [funcImplMap, List.lookup_cons, hname]

/-- Binding a name under the first observer is related to binding it under the second. -/
structure Observer.Related (R : ∀ {α : Type}, EvalM α → EvalM α → Prop) (o o' : Observer) :
    Prop where
  congruence : Congruence R
  bindNew : ∀ name value, R (@bindNew o name value) (@bindNew o' name value)
  bindExport : ∀ name value, R (@bindExport o name value) (@bindExport o' name value)

theorem Observer.Related.refl {R : ∀ {α : Type}, EvalM α → EvalM α → Prop} (hR : Congruence R)
    (o : Observer) : Observer.Related R o o := ⟨hR, fun _ _ => hR.refl _, fun _ _ => hR.refl _⟩

section Functions

variable {R : ∀ {α : Type}, EvalM α → EvalM α → Prop} {ev ev' : Ast → EvalM Ast}
  (hR : Congruence R) (hev : ∀ expr, R (ev expr) (ev' expr))
include hR hev

theorem congr_notImpl (args : List Ast) : R (notImpl ev args) (notImpl ev' args) := by
  cases args with
  | nil => exact hR.refl _
  | cons arg rest => exact hR.bind (hev arg) fun _ => hR.refl _

theorem congr_shortCircuit (stop : Bool) (args : List Ast) :
    R (shortCircuit stop ev args) (shortCircuit stop ev' args) := by
  induction args with
  | nil => exact hR.refl _
  | cons arg rest ih =>
      apply hR.bind (hev arg)
      intro value
      apply hR.bind (hR.refl _)
      intro b
      split
      · exact hR.refl _
      · exact ih

theorem congr_andImpl (args : List Ast) : R (andImpl ev args) (andImpl ev' args) := by
  rw [andImpl_eq, andImpl_eq]
  exact congr_shortCircuit hR hev false args

theorem congr_orImpl (args : List Ast) : R (orImpl ev args) (orImpl ev' args) := by
  rw [orImpl_eq, orImpl_eq]
  exact congr_shortCircuit hR hev true args

theorem congr_ifImpl (args : List Ast) : R (ifImpl ev args) (ifImpl ev' args) := by
  rcases args with _ | ⟨cond, _ | ⟨thenExpr, rest⟩⟩
  · exact hR.refl _
  · exact hR.refl _
  · apply hR.bind (hev cond)
    intro value
    apply hR.bind (hR.refl _)
    intro b
    cases b with
    | true => exact hev thenExpr
    | false =>
        cases rest with
        | nil => exact hR.refl _
        | cons elseExpr _ => exact hev elseExpr

theorem congr_makeListImpl (args : List Ast) :
    R (makeListImpl ev args) (makeListImpl ev' args) := by
  rcases args with _ | ⟨count, _ | ⟨elem, rest⟩⟩
  · exact hR.refl _
  · exact hR.refl _
  · apply hR.bind (hev count)
    intro value
    cases value with
    | scalar value =>
        cases value with
        | int n =>
            dsimp only
            split_ifs
            · exact hR.refl _
            · exact hR.bind (hR.collect _ fun _ => hev elem) fun _ => hR.refl _
        | _ => exact hR.refl _
    | _ => exact hR.refl _

theorem congr_applyImpl (args : List Ast) : R (applyImpl ev args) (applyImpl ev' args) := by
  rcases args with _ | ⟨f, _ | ⟨arg, rest⟩⟩
  · exact hR.refl _
  · exact hR.refl _
  · cases arg with
    | list isNil elems => exact hev _
    | _ => exact hR.refl _

theorem congr_mapImpl (args : List Ast) : R (mapImpl ev args) (mapImpl ev' args) := by
  cases args with
  | nil => exact hR.refl _
  | cons f args =>
      apply hR.bind (hR.refl _)
      intro lists
      cases lists with
      | nil => exact hR.refl _
      | cons first others =>
          dsimp only
          split_ifs
          · exact hR.bind (hR.collect _ fun _ => hev _) fun _ => hR.refl _
          · exact hR.refl _

theorem congr_reduceFrom (f result : Ast) (items : List Ast) :
    R (reduceFrom ev f result items) (reduceFrom ev' f result items) := by
  induction items generalizing result with
  | nil => exact hR.refl _
  | cons item rest ih => exact hR.bind (hev _) ih

theorem congr_reduceImpl (args : List Ast) : R (reduceImpl ev args) (reduceImpl ev' args) := by
  rcases args with _ | ⟨f, _ | ⟨arg, rest⟩⟩
  · exact hR.refl _
  · exact hR.refl _
  · cases arg with
    | list isNil elems =>
        rcases elems with _ | ⟨first, _ | ⟨second, more⟩⟩
        · exact hR.refl _
        · exact hR.refl _
        · exact congr_reduceFrom hR hev f first (second :: more)
    | _ => exact hR.refl _

theorem congr_hmapBind (bindings : List (Ast × Ast)) (entries : List (Scalar × Ast)) :
    R (hmapBind ev bindings entries) (hmapBind ev' bindings entries) := by
  induction bindings generalizing entries with
  | nil => exact hR.refl _
  | cons pair rest ih =>
      apply hR.bind (hev pair.1)
      intro k
      apply hR.bind (hev pair.2)
      intro value
      exact hR.bind (hR.refl _) fun _ => ih _

theorem congr_hmapImpl (args : List Ast) : R (hmapImpl ev args) (hmapImpl ev' args) := by
  apply hR.bind (hR.refl _)
  intro bindings
  exact hR.bind (congr_hmapBind hR hev bindings []) fun _ => hR.refl _

theorem congr_letBindings (pairs : List (Ast × Ast)) :
    R (letBindings ev pairs) (letBindings ev' pairs) := by
  induction pairs with
  | nil => exact hR.refl _
  | cons pair rest ih =>
      rcases pair with ⟨nameExpr, valueExpr⟩
      cases nameExpr with
      | scalar value =>
          cases value with
          | ident name =>
              apply hR.bind (hev valueExpr)
              intro value
              apply hR.bind (hR.refl _)
              intro _
              exact hR.bind ih fun _ => hR.refl _
          | _ => exact hR.refl _
      | _ => exact hR.refl _

theorem congr_letImpl (args : List Ast) : R (letImpl ev args) (letImpl ev' args) := by
  cases args with
  | nil => exact hR.refl _
  | cons arg body =>
      cases arg with
      | sexp bindings pos =>
          apply hR.bind (hR.refl _)
          intro pairs
          apply hR.bind (hR.refl _)
          intro env
          apply hR.bind (hR.within (congr_letBindings hR hev pairs))
          intro bound
          exact hev _
      | _ => exact hR.refl _

theorem congr_moduleBody (body : List Ast) :
    R (inCtx [[], []] do
        let results ← collect ev body
        let env ← get
        pure (results, env.ctx))
      (inCtx [[], []] do
        let results ← collect ev' body
        let env ← get
        pure (results, env.ctx)) :=
  hR.within (hR.bind (hR.collect body hev) fun _ => hR.refl _)

end Functions

section Bindings

variable {R : ∀ {α : Type}, EvalM α → EvalM α → Prop} {o o' : Observer} {ev ev' : Ast → EvalM Ast}
  (ho : o.Related R o') (hev : ∀ expr, R (ev expr) (ev' expr))
include ho hev

theorem congr_defineImpl (args : List Ast) :
    R (@defineImpl o ev args) (@defineImpl o' ev' args) := by
  have hR := ho.congruence
  cases args with
  | nil => exact hR.refl _
  | cons arg rest =>
      cases arg with
      | sexp elems pos =>
          cases elems with
          | nil => exact hR.refl _
          | cons first more =>
              cases first with
              | scalar value =>
                  cases value with
                  | ident name => exact hR.bind (hR.refl _) (ho.bindNew name)
                  | _ => exact hR.refl _
              | _ => exact hR.refl _
      | scalar value =>
          cases value with
          | ident name =>
              rcases rest with _ | ⟨expr, _ | ⟨extra, rest⟩⟩
              · exact hR.refl _
              · exact hR.bind (hev expr) (ho.bindNew name)
              · exact hR.refl _
          | _ => exact hR.refl _
      | _ => exact hR.refl _

theorem congr_evalModule (rt : Runtime) (name : String) (body : List Ast) :
    R (@evalModule o rt ev name body) (@evalModule o' rt ev' name body) := by
  have hR := ho.congruence
  apply hR.bind (congr_moduleBody hR hev body)
  rintro ⟨results, ctx⟩
  apply hR.bind
  · exact hR.forEach _ fun bind => ho.bindExport _ bind.2
  · exact fun _ => hR.refl _

theorem congr_moduleImpl (rt : Runtime) (args : List Ast) :
    R (@moduleImpl o rt ev args) (@moduleImpl o' rt ev' args) := by
  have hR := ho.congruence
  cases args with
  | nil => exact hR.refl _
  | cons nameExpr body =>
      apply hR.bind (hev nameExpr)
      intro value
      cases value with
      | scalar value =>
          cases value with
          | str name => exact congr_evalModule ho hev rt name body
          | _ => exact hR.refl _
      | _ => exact hR.refl _

end Bindings

/-! ## The evaluator -/

section Eval

variable {R : ∀ {α : Type}, EvalM α → EvalM α → Prop} {ev ev' : Ast → EvalM Ast}
  (hR : Congruence R) (hev : ∀ expr, R (ev expr) (ev' expr))

theorem congr_calling {α : Type} {m n : EvalM α} (hR : Congruence R) (hm : R m n) :
    R (calling m) (calling n) := by
  apply hR.bind (hR.refl _)
  intro env
  exact hR.bind (hR.refl _) fun _ => hR.within hm

include hR hev

theorem congr_evalLambda (argNames : List String) (body : List Ast) (ctx : Ctx)
    (args : List Ast) :
    R (evalLambda ev argNames body ctx args) (evalLambda ev' argNames body ctx args) := by
  unfold evalLambda
  split_ifs
  · exact hR.refl _
  · apply hR.within
    apply hR.bind (hR.collect args hev)
    intro values
    apply hR.bind (hR.refl _)
    intro env
    exact hR.bind (hR.within (congr_calling hR (hR.collect body hev))) fun _ => hR.refl _

theorem congr_callBuiltin {name : String} {run run' : List Ast → EvalM Ast} {count : ℕ}
    {lazy : Bool} (hrun : ∀ args, R (run args) (run' args)) (args : List Ast) :
    R (callBuiltin ev name ⟨run, count, lazy⟩ args)
      (callBuiltin ev' name ⟨run', count, lazy⟩ args) := by
  cases lazy with
  | true => exact hrun args
  | false =>
      apply hR.bind (hR.collect args hev)
      intro values
      exact hR.bind (hR.refl _) fun _ => hrun values

theorem congr_applyBuiltin {o o' : Observer} (rt : Runtime) {fuel fuel' : ℕ} (pos : Position)
    (args : List Ast) {name : String} {run run' : List Ast → EvalM Ast} {count : ℕ} {lazy : Bool}
    (hlookup : (@funcImplMap o rt fuel ev).lookup name = some ⟨run, count, lazy⟩)
    (hlookup' : (@funcImplMap o' rt fuel' ev').lookup name = some ⟨run', count, lazy⟩)
    (hrun : ∀ args, R (run args) (run' args)) :
    R (@applyHead o rt fuel ev pos args (.ident name))
      (@applyHead o' rt fuel' ev' pos args (.ident name)) := by
  simp only [applyHead, hlookup, hlookup']
  split_ifs
  · exact hR.refl _
  · exact hR.mapError _ (congr_callBuiltin hR hev hrun args)

end Eval

section Steps

variable {R : ∀ {α : Type}, EvalM α → EvalM α → Prop} {o o' : Observer} {ev ev' : Ast → EvalM Ast}
  (ho : o.Related R o') (hev : ∀ expr, R (ev expr) (ev' expr))
include ho hev

theorem congr_applyHead (rt : Runtime) {fuel fuel' : ℕ}
    (hrange : ∀ args, R (rangeImpl fuel args) (rangeImpl fuel' args)) (pos : Position)
    (args : List Ast) (first : Ast) :
    R (@applyHead o rt fuel ev pos args first) (@applyHead o' rt fuel' ev' pos args first) := by
  have hR := ho.congruence
  cases first with
  | scalar value =>
      cases value with
      | ident name =>
          by_cases hname : name ∈ evaluators
          · simp only [evaluators, List.mem_cons, List.not_mem_nil, or_false] at hname
            rcases hname with
              rfl | rfl | rfl | rfl | rfl | rfl | rfl | rfl | rfl | rfl | rfl | rfl | rfl
            · exact congr_applyBuiltin hR hev rt pos args rfl rfl (congr_notImpl hR hev)
            · exact congr_applyBuiltin hR hev rt pos args rfl rfl (congr_andImpl hR hev)
            · exact congr_applyBuiltin hR hev rt pos args rfl rfl (congr_applyImpl hR hev)
            · exact congr_applyBuiltin hR hev rt pos args rfl rfl (congr_defineImpl ho hev)
            · exact congr_applyBuiltin hR hev rt pos args rfl rfl (congr_hmapImpl hR hev)
            · exact congr_applyBuiltin hR hev rt pos args rfl rfl (congr_ifImpl hR hev)
            · exact congr_applyBuiltin hR hev rt pos args rfl rfl (congr_letImpl hR hev)
            · exact congr_applyBuiltin hR hev rt pos args rfl rfl (congr_makeListImpl hR hev)
            · exact congr_applyBuiltin hR hev rt pos args rfl rfl (congr_mapImpl hR hev)
            · exact congr_applyBuiltin hR hev rt pos args rfl rfl (congr_moduleImpl ho hev rt)
            · exact congr_applyBuiltin hR hev rt pos args rfl rfl (congr_orImpl hR hev)
            · exact congr_applyBuiltin hR hev rt pos args rfl rfl hrange
            · exact congr_applyBuiltin hR hev rt pos args rfl rfl (congr_reduceImpl hR hev)
          · have hsame := lookup_plain hname o o' rt fuel fuel' ev ev'
            cases hlookup : (@funcImplMap o rt fuel ev).lookup name with
            | none =>
                rw [hlookup] at hsame
                simp only [applyHead, hlookup, ← hsame]
                exact hR.refl _
            | some impl =>
                exact congr_applyBuiltin hR hev rt pos args hlookup (hsame ▸ hlookup)
                  fun _ => hR.refl _
      | _ => exact hR.refl _
  | lambda argNames body ctx =>
      apply hR.mapError
      exact hR.bind (hR.collect args hev) fun values =>
        congr_evalLambda hR hev argNames body ctx values
  | _ => exact hR.refl _

omit ho hev in
theorem isBuiltin_eq (rt : Runtime) (fuel fuel' : ℕ) (name : String) :
    @isBuiltin o rt fuel ev name = @isBuiltin o' rt fuel' ev' name := by
  rw [Bool.eq_iff_iff, @isBuiltin_iff o, @isBuiltin_iff o']

theorem congr_evalStep (rt : Runtime) {fuel fuel' : ℕ}
    (hrange : ∀ args, R (rangeImpl fuel args) (rangeImpl fuel' args)) (expr : Ast) :
    R (@evalStep o rt fuel ev expr) (@evalStep o' rt fuel' ev' expr) := by
  have hR := ho.congruence
  cases expr with
  | sexp elems pos =>
      cases elems with
      | nil => exact hR.refl _
      | cons head args =>
          exact hR.bind (hR.mapError _ (hev head)) (congr_applyHead ho hev rt hrange pos args)
  | list isNil elems => exact hR.bind (hR.collect elems hev) fun _ => hR.refl _
  | moduleNode name body => exact congr_evalModule ho hev rt name body
  | scalar value =>
      cases value with
      | ident name =>
          have hsame : @evalIdent o rt fuel ev name = @evalIdent o' rt fuel' ev' name := by
            unfold evalIdent
            rw [isBuiltin_eq]
          change R (@evalIdent o rt fuel ev name) (@evalIdent o' rt fuel' ev' name)
          rw [hsame]
          exact hR.refl _
      | _ => exact hR.refl _
  | _ => exact hR.refl _

omit hev in
theorem congr_eval (rt : Runtime) (fuel : ℕ) (expr : Ast) :
    R (@eval o rt fuel expr) (@eval o' rt fuel expr) := by
  induction fuel generalizing expr with
  | zero => exact ho.congruence.refl _
  | succ fuel ih => exact congr_evalStep ho ih rt (fun _ => ho.congruence.refl _) expr

omit hev in
theorem congr_program (rt : Runtime) (fuel : ℕ) (program : List Ast) :
    R (collect (@eval o rt fuel) program) (collect (@eval o' rt fuel) program) :=
  ho.congruence.collect program (congr_eval ho rt fuel)

end Steps

end Lang
end Di
