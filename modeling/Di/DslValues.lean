import Di.Fuelled
import Di.DslCompiled

/-!
# Values evaluate to themselves

Values are evaluated again when they are the arguments of a lambda, the bound
values of `let`, or parts of the S-expressions that `apply`, `map` and `reduce`
build.  Two kinds of value look like code: a module evaluates its results in an
empty context, and an executed placement statement is executed once more.  The
first binds nothing, and the second finds its labels unchanged and the
containers already bound, however much the store has grown.
-/

namespace Di
namespace Lang

open Procedure

mutual

/-- An evaluated list is never nil. -/
def Ast.nonNil : Ast → Ast
  | .list _ elems => .list false (Ast.nonNils elems)
  | .sexp elems pos => .sexp (Ast.nonNils elems) pos
  | .moduleNode name body => .moduleNode name (Ast.nonNils body)
  | value => value

def Ast.nonNils : List Ast → List Ast
  | [] => []
  | elem :: rest => elem.nonNil :: Ast.nonNils rest

end

theorem length_nonNils (elems : List Ast) : (Ast.nonNils elems).length = elems.length := by
  induction elems with
  | nil => rfl
  | cons elem rest ih => simp [Ast.nonNils, ih]

mutual

theorem flattenOne_nonNil : ∀ value : Ast,
    flattenOne value.nonNil = (flattenOne value).map Ast.nonNil
  | .list _ elems => flatten_nonNils elems
  | .hmap _ | .sexp _ _ | .lambda _ _ _ | .moduleNode _ _ | .label _ | .scalar _ => rfl

theorem flatten_nonNils : ∀ elems : List Ast,
    flatten (Ast.nonNils elems) = (flatten elems).map Ast.nonNil
  | [] => rfl
  | elem :: rest => by
      rw [Ast.nonNils, flatten, flatten, List.map_append, flattenOne_nonNil elem,
        flatten_nonNils rest]

end

theorem resolveLabel_nonNil (store : Store) (value : Ast) :
    store.resolveLabel value.nonNil = store.resolveLabel value := by
  cases value <;> rfl

/-! ## Executing a placement statement once more -/

section Placement

variable {env : Env}

theorem yields_excludeAtom {pairs : List (String × String)} {a : Atom} (l : AstLabel)
    (hexcluded : env.store.Excluded pairs a) :
    Yields (fun _ => excludeAtom l pairs a) env () env := by
  rcases hexcluded with ⟨i, c, rfl, hc, hpairs⟩
  have hunion : c.exclusive ∪ pairs.toFinset = c.exclusive := by
    apply Finset.union_eq_left.mpr
    intro pair hmem
    exact hpairs pair (List.mem_toFinset.mp hmem)
  have hsame : env.store.containers.modify i
      (fun c => { c with exclusive := c.exclusive ∪ pairs.toFinset }) = env.store.containers := by
    apply List.ext_getElem?
    intro j
    rw [List.getElem?_modify]
    by_cases hij : i = j
    · subst hij
      simp [hc, hunion]
    · simp [hij]
  have hran : excludeAtom l pairs (.container i) env = ⟨.ok (), env, [.wrote env.store]⟩ := by
    change modifyContainer i _ env = _
    unfold modifyContainer
    rw [readStore_bind, hsame]
    rfl
  exact Yields.of_eq hran

theorem yields_labelArg {elem : Ast} {l : AstLabel} (hl : env.store.resolveLabel elem = some l) :
    Yields (fun _ => labelArg elem) env l env := by
  have hran : labelArg elem env = ⟨.ok l, env, []⟩ := by
    unfold labelArg
    rw [readStore_bind, hl]
    rfl
  exact Yields.of_eq hran

theorem yields_flattenLabel {rest : List Ast} {labels : List AstLabel}
    (hresolved : List.Forall₂ (fun elem l => env.store.resolveLabel elem = some l)
      (flatten rest) labels) :
    Yields (fun _ => flattenLabel (Ast.nonNils rest)) env labels env := by
  unfold flattenLabel
  rw [flatten_nonNils]
  apply Yields.collect
  rw [List.forall₂_map_left_iff]
  apply hresolved.imp
  intro elem l hl
  exact yields_labelArg ((resolveLabel_nonNil env.store elem).trans hl)

theorem yields_placementImpl {elems rest : List Ast} {pos : Position} {labels : List AstLabel}
    (hplacement : Placement env.store elems pos rest labels) :
    Yields (fun _ => placementImpl (.str "exclusive" :: Ast.nonNils rest)) env
      (.sexp (.ident "placement" :: .str "exclusive" :: Ast.nonNils rest) {}) env := by
  apply Yields.bind (yields_flattenLabel hplacement.resolved)
  rw [if_neg (not_lt.mpr hplacement.two), if_pos rfl]
  apply Yields.bind
  · apply Yields.forEach
    intro l hl
    apply Yields.forEach
    intro a ha
    exact yields_excludeAtom l (hplacement.excluded l hl a ha)
  · exact Yields.emit.bind Yields.pure

end Placement

/-! ## Evaluating a value -/

theorem yields_builtinName (rt : Runtime) (env : Env) {name : String}
    (hname : name ∈ builtinNames) :
    Yields (fun fuel => eval rt fuel (.ident name)) env (.ident name) env := by
  apply yields_succ.mp
  have hran : ∀ fuel, eval rt (fuel + 1) (.ident name) = pure (.ident name) := by
    intro fuel
    rcases exists_impl hname rt fuel (eval rt fuel) with ⟨impl, himpl⟩
    exact if_pos (Option.isSome_iff_exists.mpr ⟨impl, himpl⟩)
  simp only [hran]
  exact Yields.pure

theorem yields_placement (rt : Runtime) {env : Env} {elems rest : List Ast} {pos : Position}
    {labels : List AstLabel} (hplacement : Placement env.store elems pos rest labels)
    (hrest : List.Forall₂
      (fun value result => Yields (fun fuel => eval rt fuel value) env result env)
      rest (Ast.nonNils rest)) :
    Yields (fun fuel => eval rt fuel (.sexp elems pos)) env
      (.sexp (Ast.nonNils elems) pos) env := by
  rw [hplacement.form, hplacement.pos]
  have hargs : Yields (fun fuel => collect (eval rt fuel) (.str "exclusive" :: rest)) env
      (.str "exclusive" :: Ast.nonNils rest) env :=
    Yields.collect (.cons (yields_succ.mp Yields.pure) hrest)
  have hcount : ¬(Ast.str "exclusive" :: rest).length < 2 := by
    have htwo := hplacement.two
    rw [← hplacement.resolved.length_eq] at htwo
    cases rest with
    | nil => simp [flatten] at htwo
    | cons first others => simp
  apply yields_succ.mp
  apply Yields.bind ((yields_builtinName rt env (by decide)).mapError _)
  have hlookup : ∀ fuel, (funcImplMap rt fuel (eval rt fuel)).lookup "placement" =
      some ⟨placementImpl, 2, false⟩ := fun _ => rfl
  simp only [applyHead, hlookup, if_neg hcount]
  exact Yields.mapError _ (hargs.bind (Yields.emit.bind (yields_placementImpl hplacement)))

mutual

theorem yields_value (rt : Runtime) : ∀ (value : Ast) (env : Env), value.Value env.store →
    Yields (fun fuel => eval rt fuel value) env value.nonNil env
  | .list _ elems, env, h =>
      yields_succ.mp ((Yields.collect (yields_values rt elems env h)).bind Yields.pure)
  | .sexp elems pos, env, h => by
      have helems := yields_values rt elems env h.1
      rcases h.2 rfl with ⟨rest, labels, hplacement⟩
      apply yields_placement rt hplacement
      rw [hplacement.form] at helems
      cases helems with
      | cons _ htail =>
          cases htail with
          | cons _ hrest => exact hrest
  | .moduleNode name body, env, h => by
      have hbody := Yields.collect (yields_values rt body { env with ctx := [[], []] } h)
      have hinside : Yields (fun fuel => do
            let results ← collect (eval rt fuel) body
            let inner ← get
            pure (results, inner.ctx))
          { env with ctx := [[], []] } (Ast.nonNils body, [[], []])
          { env with ctx := [[], []] } := by
        apply hbody.bind
        apply Yields.bind Yields.get
        exact Yields.pure
      apply yields_succ.mp
      apply Yields.bind (Yields.within hinside)
      exact Yields.pure
  | .ident name, env, h => yields_builtinName rt env (h rfl)
  | .hmap _, _, _ | .lambda _ _ _, _, _ | .label _, _, _ => yields_succ.mp Yields.pure
  | .str _, _, _ | .float _, _, _ | .int _, _, _ | .bool _, _, _ | .key _, _, _
  | .size _, _, _ | .provider _, _, _ | .role _, _, _ | .region _, _, _ | .diskSize _, _, _
  | .range _, _, _ | .atom _, _, _ => yields_succ.mp Yields.pure

theorem yields_values (rt : Runtime) : ∀ (values : List Ast) (env : Env),
    Ast.Values env.store values →
      List.Forall₂ (fun value result => Yields (fun fuel => eval rt fuel value) env result env)
        values (Ast.nonNils values)
  | [], _, _ => .nil
  | value :: rest, env, h => .cons (yields_value rt value env h.1) (yields_values rt rest env h.2)

end

/-! ## Later evaluations -/

/-- The environments that an evaluation can come to: expressions are evaluated, contexts are
entered and left, and the bodies of lambdas are nested. -/
inductive Later (rt : Runtime) (env : Env) : Env → Prop
  | now : Later rt env env
  | evaluated {mid : Env} (hmid : Later rt env mid) (fuel : ℕ) (expr : Ast)
      (hexpr : expr.Ok mid.store) : Later rt env (eval rt fuel expr mid).final
  | moved {mid : Env} (hmid : Later rt env mid) (ctx : Ctx) (depth : ℕ)
      (hctx : Ast.ValueCtx mid.store ctx) :
      Later rt env { mid with ctx := ctx, depth := depth }

theorem Later.grown {rt : Runtime} {env later : Env} (henv : env.Ok)
    (hlater : Later rt env later) : later.Ok ∧ env.store.Le later.store := by
  induction hlater with
  | now => exact ⟨henv, Store.Le.refl _⟩
  | evaluated hmid fuel expr hexpr ih =>
      have hran := safe_eval rt fuel _ expr hexpr ih.1
      exact ⟨hran.inv, ih.2.trans hran.le⟩
  | moved hmid ctx depth hctx ih => exact ⟨⟨ih.1.consistent, hctx⟩, ih.2⟩

/-- Whatever an expression evaluates to, evaluating it again at any later time and
in any context succeeds, returns the same value, up to nil lists, and leaves the
environment with all of its store as it is. -/
theorem eval_value_again {rt : Runtime} {fuel : ℕ} {env later : Env} {expr value : Ast}
    (henv : env.Ok) (hexpr : expr.Ok env.store)
    (hvalue : (eval rt fuel expr env).outcome = .ok value)
    (hlater : Later rt (eval rt fuel expr env).final later) :
    ∃ enough trace, ∀ fuel' ≥ enough,
      eval rt fuel' value later = ⟨.ok value.nonNil, later, trace⟩ := by
  have hran := safe_eval rt fuel env expr hexpr henv
  have hgrown := (hlater.grown hran.inv).2
  have hstill : value.Value later.store :=
    Ast.Fits.mono hgrown .value value (hran.value value hvalue)
  rcases yields_value rt value later hstill with ⟨trace, hsettles⟩
  rcases Filter.eventually_atTop.mp hsettles with ⟨enough, henough⟩
  exact ⟨enough, trace, henough⟩

/-- Two labels, and a statement that keeps them apart. -/
def labelTwo : Ast :=
  .sexp [.ident "progn",
    .sexp [.ident "label", .str "a", .sexp [.ident "docker", .str "x"] {}] {},
    .sexp [.ident "label", .str "b", .sexp [.ident "docker", .str "y"] {}] {}] {}

def placeTwo : Ast :=
  .sexp [.ident "placement", .str "exclusive", .sexp [.ident "list", .str "a", .str "b"] {}] {}

theorem labelTwo_env_ok : (eval plainRuntime 10 labelTwo Env.initial).final.Ok :=
  (safe_eval plainRuntime 10 Env.initial labelTwo (ok_of_source _ _ rfl) Env.ok_initial).inv

theorem eval_value_again_placeTwo :
    ∃ env value, (eval plainRuntime 10 placeTwo env).outcome = .ok value ∧
      ∃ enough trace, ∀ fuel' ≥ enough,
        eval plainRuntime fuel' value (eval plainRuntime 10 placeTwo env).final =
          ⟨.ok value.nonNil, (eval plainRuntime 10 placeTwo env).final, trace⟩ := by
  have hvalue : ∃ value, (eval plainRuntime 10 placeTwo
      (eval plainRuntime 10 labelTwo Env.initial).final).outcome = .ok value :=
    Outcome.exists_ok (by decide +kernel)
  rcases hvalue with ⟨value, hvalue⟩
  exact ⟨_, value, hvalue,
    eval_value_again labelTwo_env_ok (ok_of_source _ _ rfl) hvalue .now⟩

end Lang
end Di
