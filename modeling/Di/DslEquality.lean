import Di.DslCompiled

/-!
# What `=` compares

A list is a slice, and the empty list is either `nil` or a slice without elements.
`reflect.DeepEqual` tells the two apart, and the built-in functions do not agree on which one
they return.  On integers, strings, booleans and lists of them, `=` therefore compares the
trees together with the kinds of their slices.
-/

namespace Di
namespace Lang

open Procedure

mutual

/-- Integers, strings, booleans and lists of these. -/
def Ast.data : Ast → Bool
  | .list _ elems => Ast.datas elems
  | .int _ => true
  | .str _ => true
  | .bool _ => true
  | _ => false

def Ast.datas : List Ast → Bool
  | [] => true
  | elem :: rest => elem.data && Ast.datas rest

end

mutual

/-- Equal leaves, and lists of the same length with pairwise the same elements. -/
def Ast.sameTree : Ast → Ast → Bool
  | .list _ elems, .list _ elems' => Ast.sameTrees elems elems'
  | .scalar x, .scalar y => x = y
  | _, _ => false

def Ast.sameTrees : List Ast → List Ast → Bool
  | [], [] => true
  | a :: as, b :: bs => a.sameTree b && Ast.sameTrees as bs
  | _, _ => false

end

mutual

/-- Wherever both are lists, both slices are `nil` or neither is. -/
def Ast.sameSlices : Ast → Ast → Bool
  | .list isNil elems, .list isNil' elems' => isNil = isNil' && Ast.sameSlicesAll elems elems'
  | _, _ => true

def Ast.sameSlicesAll : List Ast → List Ast → Bool
  | a :: as, b :: bs => a.sameSlices b && Ast.sameSlicesAll as bs
  | _, _ => true

end

theorem sameScalar_of_data {x : Scalar} (hx : (Ast.scalar x).data = true) (store : Store)
    (y : Scalar) : store.sameScalar x y = decide (x = y) := by
  cases x with
  | atom => cases hx
  | _ => rfl

mutual

theorem deepEqual_of_data (store : Store) : ∀ a b : Ast, a.data = true →
    deepEqual store a b = (a.sameTree b && a.sameSlices b)
  | .list isNil elems, .list isNil' elems', hdata => by
      have hdatas : Ast.datas elems = true := hdata
      simp only [deepEqual, Ast.sameTree, Ast.sameSlices,
        deepEquals_of_data store elems elems' hdatas]
      exact Bool.and_left_comm _ _ _
  | .scalar x, .scalar y, hdata => by
      simp only [deepEqual, Ast.sameTree, Ast.sameSlices, Bool.and_true]
      exact sameScalar_of_data hdata store y
  | .list _ _, .scalar _, _ | .list _ _, .hmap _, _ | .list _ _, .sexp _ _, _
  | .list _ _, .lambda _ _ _, _ | .list _ _, .moduleNode _ _, _ | .list _ _, .label _, _
  | .scalar _, .list _ _, _ | .scalar _, .hmap _, _ | .scalar _, .sexp _ _, _
  | .scalar _, .lambda _ _ _, _ | .scalar _, .moduleNode _ _, _ | .scalar _, .label _, _ => by
      simp only [deepEqual, Ast.sameTree, Bool.false_and]

theorem deepEquals_of_data (store : Store) : ∀ as bs : List Ast, Ast.datas as = true →
    deepEquals store as bs = (Ast.sameTrees as bs && Ast.sameSlicesAll as bs)
  | [], [], _ => by simp only [deepEquals, Ast.sameTrees, Ast.sameSlicesAll, Bool.true_and]
  | [], _ :: _, _ | _ :: _, [], _ => by simp only [deepEquals, Ast.sameTrees, Bool.false_and]
  | a :: as, b :: bs, hdata => by
      have hdatas : a.data = true ∧ Ast.datas as = true := by
        rwa [Ast.datas, Bool.and_eq_true] at hdata
      simp only [deepEquals, Ast.sameTrees, Ast.sameSlicesAll,
        deepEqual_of_data store a b hdatas.1, deepEquals_of_data store as bs hdatas.2]
      ac_rfl

end

theorem lookup_eq (rt : Runtime) (fuel : ℕ) (ev : Ast → EvalM Ast) :
    (funcImplMap rt fuel ev).lookup "=" = some ⟨eqImpl, 2, false⟩ := rfl

theorem eqImpl_outcome (a b : Ast) (env : Env) :
    (eqImpl [a, b] env).outcome = .ok (.bool (deepEqual env.store a b)) := by
  unfold eqImpl sightUnless matchUnless
  simp only
  rw [readStore_bind]
  split <;> split <;> rfl

section Calls

variable {rt : Runtime} {fuel : ℕ} {left right a b : Ast} {env env' : Env} {trace : List Event}

theorem eval_eq_ident (rt : Runtime) (fuel : ℕ) :
    eval rt (fuel + 1) (.ident "=") = pure (.ident "=") := by
  change evalIdent rt fuel (eval rt fuel) "=" = _
  unfold evalIdent isBuiltin
  rw [lookup_eq]
  rfl

theorem eval_eq_sexp (pos : Position)
    (hargs : collect (eval rt fuel) [left, right] env = ⟨.ok [a, b], env', trace⟩) :
    (eval rt (fuel + 1) (.sexp [.ident "=", left, right] pos) env).outcome =
      .ok (.bool (deepEqual env'.store a b)) := by
  cases fuel with
  | zero => cases congrArg Ran.outcome hargs
  | succ fuel =>
      change (evalSexp rt (fuel + 1) (eval rt (fuel + 1)) [.ident "=", left, right] pos
        env).outcome = _
      unfold evalSexp
      simp only
      rw [eval_eq_ident, mapError_pure, pure_bind]
      unfold applyHead
      simp only
      rw [lookup_eq]
      simp only [List.length_cons, List.length_nil]
      rw [if_neg (by omega), mapError_ok_iff]
      unfold callBuiltin
      simp only [Bool.false_eq_true, if_false]
      have hok : (collect (eval rt (fuel + 1)) [left, right] env).outcome = .ok [a, b] := by
        rw [hargs]
      rw [bind_ok hok, hargs]
      exact eqImpl_outcome a b env'

/-- `=` on two values computed in whichever way decides whether they are the same tree, if and
only if the same trees also have the same kinds of slices. -/
theorem eq_decides_sameTree_iff (pos : Position)
    (hargs : collect (eval rt fuel) [left, right] env = ⟨.ok [a, b], env', trace⟩)
    (ha : a.data = true) :
    ∃ result, (eval rt (fuel + 1) (.sexp [.ident "=", left, right] pos) env).outcome =
        .ok (.bool result) ∧
      ((result = true ↔ a.sameTree b = true) ↔
        (a.sameTree b = true → a.sameSlices b = true)) := by
  refine ⟨_, eval_eq_sexp pos hargs, ?_⟩
  rw [deepEqual_of_data env'.store a b ha, Bool.and_eq_true]
  exact and_iff_left_iff_imp

end Calls

theorem eq_decides_list_cons :
    (Ast.list false [.int 1]).data = true ∧
    ∃ result, (eval plainRuntime 4 (.sexp [.ident "=", .sexp [.ident "list", .int 1] {},
          .sexp [.ident "cons", .int 1, .sexp [.ident "list"] {}] {}] {}) Env.initial).outcome =
        .ok (.bool result) ∧
      ((result = true ↔ (Ast.list false [.int 1]).sameTree (.list false [.int 1]) = true) ↔
        ((Ast.list false [.int 1]).sameTree (.list false [.int 1]) = true →
          (Ast.list false [.int 1]).sameSlices (.list false [.int 1]) = true)) :=
  ⟨rfl, eq_decides_sameTree_iff {} rfl rfl⟩

theorem eq_list_cdr :
    (evalProgram plainRuntime 3 [.sexp [.ident "list"] {},
        .sexp [.ident "cdr", .sexp [.ident "list", .int 1] {}] {}]).outcome =
      .ok [.list true [], .list false []] ∧
    (Ast.list true []).sameTree (.list false []) = true ∧
    (eval plainRuntime 4 (.sexp [.ident "=", .sexp [.ident "list"] {},
        .sexp [.ident "cdr", .sexp [.ident "list", .int 1] {}] {}] {}) Env.initial).outcome =
      .ok (.bool false) := by
  refine ⟨rfl, rfl, (eval_eq_sexp {} rfl).trans ?_⟩
  rw [deepEqual_of_data _ _ _ rfl]
  rfl

end Lang
end Di
