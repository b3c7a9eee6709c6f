import Di.DslFuel
import Di.DslValues

/-!
# Evaluations that end

Functions are values, so a lambda that is given itself calls itself, and the
counter of `range` can jump over its limit forever.  Nothing else keeps an
evaluation from ending: if the bodies of lambdas are nested to a bounded depth and
no `range` is endless, enough fuel gives a result.  The induction is on the levels
that are left, and on each level on the size of the expression.  The functions
that build calls out of values pass on fewer and fewer parts of their arguments.
-/

namespace Di
namespace Lang

open Procedure

def Event.Tame (bound : ℕ) (event : Event) : Prop :=
  match event with
  | .entered depth => depth ≤ bound
  | event => event.endless = false

abbrev Terminates {α : Type} (bound : ℕ) (env : Env) (m : ℕ → EvalM α) : Prop :=
  Ends (evalDiscipline True) (Event.Tame bound) env m

section Rules

variable {α β : Type} {rt : Runtime} {bound : ℕ} {env : Env}

theorem ends_const {m : EvalM α} {post : α → Env → Prop} (hm : Keeps False env m post) :
    Terminates bound env fun _ => m :=
  Ends.const fun hok htimeout => (hm hok).gaveUp htimeout

theorem ends_bind_const {m : EvalM α} {f : ℕ → α → EvalM β} {mid : α → Env → Prop}
    (hm : ∀ patient, Keeps patient env m mid)
    (hf : ∀ a env', env'.Ok → env.store.Le env'.store → env'.depth = env.depth → mid a env' →
      Terminates bound env' fun fuel => f fuel a) :
    Terminates bound env fun fuel => m >>= f fuel :=
  Ends.bind (ends_const (hm False)) (fun _ => hm True) hf

theorem ends_fail (text : String) : Terminates bound env fun _ => (fail text : EvalM α) :=
  Ends.const fun _ => by simp [fail, Procedure.throw]

theorem ends_complain (text : String) (culprit : Ast) :
    Terminates bound env fun _ => (complain text culprit : EvalM α) :=
  ends_const (keeps_complain text culprit : Harmless False env _)

theorem ends_crash : Terminates bound env fun _ => (crash : EvalM α) :=
  Ends.const fun _ => by simp [Procedure.crash]

theorem ends_pure (a : α) : Terminates bound env fun _ => (pure a : EvalM α) :=
  Ends.of_yields Yields.pure

theorem ends_bind_get {f : ℕ → Env → EvalM β}
    (hf : Terminates bound env fun fuel => f fuel env) :
    Terminates bound env fun fuel => (get : EvalM Env) >>= f fuel :=
  Ends.bind_yields Yields.get hf

theorem ends_bind_value {f : ℕ → Ast → EvalM β} {value : Ast} (hvalue : value.Value env.store)
    (g : DslError → DslError)
    (hf : value.nonNil.Value env.store → Terminates bound env fun fuel => f fuel value.nonNil) :
    Terminates bound env fun fuel => mapError g (eval rt fuel value) >>= f fuel := by
  intro hok
  have hyields := yields_value rt value env hvalue
  have hstill := hyields.post (fun fuel => safe_eval rt fuel env value (Ast.Value.ok _ hvalue)) hok
  exact Ends.bind_yields (hyields.mapError g) (hf hstill) hok

theorem ends_bind_values {f : ℕ → List Ast → EvalM β} {values : List Ast}
    (hvalues : Ast.Values env.store values)
    (hf : Ast.Values env.store (Ast.nonNils values) →
      Terminates bound env fun fuel => f fuel (Ast.nonNils values)) :
    Terminates bound env fun fuel => collect (eval rt fuel) values >>= f fuel := by
  intro hok
  have hyields := Yields.collect (yields_values rt values env hvalues)
  have hstill := hyields.post
    (fun fuel => values_collect (safe_eval rt fuel) (Ast.Values.oks _ hvalues)) hok
  exact Ends.bind_yields hyields (hf hstill.2) hok

theorem ends_calling {m : ℕ → EvalM α}
    (hm : env.depth ≤ bound → Terminates bound { env with depth := env.depth + 1 } m) :
    Terminates bound env fun fuel => calling (m fuel) := by
  apply ends_bind_get
  apply Ends.emit
  intro htame
  exact Ends.within (fun hok => ⟨hok.consistent, hok.ctx⟩) (hm htame)

end Rules

/-! ## Lambdas -/

section Lambda

variable {rt : Runtime} {bound : ℕ} {env : Env}

/-- The expressions on the level above end. -/
def BodiesEnd (rt : Runtime) (bound depth : ℕ) : Prop :=
  depth ≤ bound → ∀ env : Env, env.depth = depth + 1 → ∀ expr : Ast, expr.Ok env.store →
    Terminates bound env fun fuel => eval rt fuel expr

theorem ends_collect {exprs : List Ast} (hexprs : Ast.Oks env.store exprs)
    (hends : ∀ expr ∈ exprs, ∀ env' : Env, env.store.Le env'.store → env'.depth = env.depth →
      Terminates bound env' fun fuel => eval rt fuel expr) :
    Terminates bound env fun fuel => collect (eval rt fuel) exprs := by
  apply Ends.collect
  · intro expr hmem env' _ hle fuel
    have hexpr := Ast.Fits.mono hle _ expr ((Ast.allFit_iff exprs).mp hexprs expr hmem)
    exact Sound.weaken (safe_eval rt fuel env' expr hexpr) fun _ _ _ _ _ => trivial
  · exact fun expr hmem env' _ hle hdepth => hends expr hmem env' hle hdepth

theorem ends_evalLambda (hbodies : BodiesEnd rt bound env.depth) (argNames : List String)
    {body : List Ast} {ctx : Ctx} {args : List Ast}
    (hbody : Ast.Oks env.store body) (hctx : Ast.ValueCtx env.store ctx)
    (hargs : Ast.Values env.store args) :
    Terminates bound env fun fuel => evalLambda (eval rt fuel) argNames body ctx args := by
  unfold evalLambda
  split_ifs
  · have hfails : Safe False env (do
        let store ← readStore
        fail ("bad number of arguments: [" ++ " ".intercalate argNames ++ "] " ++
          slicedText store args)) := keeps_readStore (keeps_fail _)
    exact ends_const hfails
  · apply Ends.within
    · intro hok
      exact ⟨hok.consistent, hctx⟩
    · have hvalues : Ast.Values { env with ctx := ctx }.store args := hargs
      apply ends_bind_values hvalues
      intro hvalues
      apply ends_bind_get
      apply Ends.bind_const
      · apply Ends.within
        · intro hok
          exact ⟨hok.consistent, valueBinds_bindArgs argNames _ hvalues trivial, hctx⟩
        · apply ends_calling
          intro htame
          refine ends_collect hbody ?_
          intro expr hmem env' hle hdepth
          have hexpr := (Ast.allFit_iff body).mp hbody expr hmem
          exact hbodies htame env' hdepth expr (Ast.Fits.mono hle _ expr hexpr)
      · intro results env'
        cases results.getLast? with
        | some value => simp [Pure.pure]
        | none => simp [Procedure.crash]

theorem ends_callLambda (hbodies : BodiesEnd rt bound env.depth) (argNames : List String)
    {body : List Ast} {ctx : Ctx} {args : List Ast} (pos : Position)
    (hlambda : Ast.Value env.store (.lambda argNames body ctx))
    (hargs : Ast.Values env.store args) :
    Terminates bound env fun fuel =>
      eval rt fuel (.sexp (.lambda argNames body ctx :: args) pos) := by
  apply ends_succ.mp
  apply ends_bind_value hlambda
  intro _
  apply Ends.mapError
  apply ends_bind_values hargs
  intro hvalues
  exact ends_evalLambda hbodies argNames hlambda.2.1 hlambda.2.2 hvalues

end Lambda

/-! ## Functions that evaluate their arguments -/

/-- A set of expressions that end on some level, closed under the parts of an S-expression. -/
structure Handles (rt : Runtime) (bound depth : ℕ) (good : Store → Ast → Prop) : Prop where
  ok : ∀ {store : Store} {expr : Ast}, good store expr → expr.Ok store
  mono : ∀ {store store' : Store} {expr : Ast}, store.Le store' → good store expr →
    good store' expr
  part : ∀ {store : Store} {elems : List Ast} {pos : Position}, good store (.sexp elems pos) →
    ∀ elem ∈ elems, good store elem
  ends : ∀ {env : Env} {expr : Ast}, env.depth = depth → good env.store expr →
    Terminates bound env fun fuel => eval rt fuel expr

section Lazy

variable {β : Type} {rt : Runtime} {bound depth : ℕ} {good : Store → Ast → Prop} {env : Env}
  {args : List Ast} (hgood : Handles rt bound depth good)
include hgood

theorem Handles.oks {store : Store} {exprs : List Ast}
    (hexprs : ∀ expr ∈ exprs, good store expr) : Ast.Oks store exprs :=
  (Ast.allFit_iff exprs).mpr fun expr hmem => hgood.ok (hexprs expr hmem)

theorem ends_bind_eval {f : ℕ → Ast → EvalM β} {expr : Ast} (hdepth : env.depth = depth)
    (hexpr : good env.store expr)
    (hf : ∀ (value : Ast) (env' : Env), env'.Ok → env.store.Le env'.store → env'.depth = depth →
      value.Value env'.store → Terminates bound env' fun fuel => f fuel value) :
    Terminates bound env fun fuel => eval rt fuel expr >>= f fuel := by
  apply Ends.bind (hgood.ends hdepth hexpr) fun fuel => safe_eval rt fuel env expr (hgood.ok hexpr)
  intro value env' hok hle hlevel hvalue
  exact hf value env' hok hle (hlevel.trans hdepth) hvalue

theorem ends_shortCircuit (stop : Bool) (args : List Ast) {env : Env}
    (hdepth : env.depth = depth) (hargs : ∀ arg ∈ args, good env.store arg) :
    Terminates bound env fun fuel => shortCircuit stop (eval rt fuel) args := by
  induction args generalizing env with
  | nil => exact ends_pure _
  | cons arg rest ih =>
      apply ends_bind_eval hgood hdepth (hargs arg List.mem_cons_self)
      intro value env₁ _ hle₁ hdepth₁ _
      apply ends_bind_const fun _ => harmless_test value
      intro b env₂ _ hle₂ hdepth₂ _
      by_cases hstop : b = stop
      · simp only [if_pos hstop]
        exact ends_pure _
      · simp only [if_neg hstop]
        apply ih (hdepth₂.trans hdepth₁)
        intro other hmem
        exact hgood.mono (hle₁.trans hle₂) (hargs other (List.mem_cons_of_mem arg hmem))

theorem ends_andImpl (args : List Ast) {env : Env}
    (hdepth : env.depth = depth) (hargs : ∀ arg ∈ args, good env.store arg) :
    Terminates bound env fun fuel => andImpl (eval rt fuel) args := by
  simp only [andImpl_eq]
  exact ends_shortCircuit hgood false args hdepth hargs

theorem ends_orImpl (args : List Ast) {env : Env}
    (hdepth : env.depth = depth) (hargs : ∀ arg ∈ args, good env.store arg) :
    Terminates bound env fun fuel => orImpl (eval rt fuel) args := by
  simp only [orImpl_eq]
  exact ends_shortCircuit hgood true args hdepth hargs

theorem ends_ifImpl (hdepth : env.depth = depth) (hargs : ∀ arg ∈ args, good env.store arg) :
    Terminates bound env fun fuel => ifImpl (eval rt fuel) args := by
  rcases args with _ | ⟨cond, _ | ⟨thenExpr, rest⟩⟩
  · exact ends_crash
  · exact ends_crash
  · apply ends_bind_eval hgood hdepth (hargs cond (by simp))
    intro value env₁ _ hle₁ hdepth₁ _
    apply ends_bind_const fun _ => harmless_test value
    intro b env₂ _ hle₂ hdepth₂ _
    cases b with
    | true =>
        exact hgood.ends (hdepth₂.trans hdepth₁)
          (hgood.mono (hle₁.trans hle₂) (hargs thenExpr (by simp)))
    | false =>
        cases rest with
        | nil => exact ends_pure _
        | cons elseExpr _ =>
            exact hgood.ends (hdepth₂.trans hdepth₁)
              (hgood.mono (hle₁.trans hle₂) (hargs elseExpr (by simp)))

theorem ends_makeListImpl (hdepth : env.depth = depth) (hargs : ∀ arg ∈ args, good env.store arg) :
    Terminates bound env fun fuel => makeListImpl (eval rt fuel) args := by
  rcases args with _ | ⟨count, _ | ⟨elem, rest⟩⟩
  · exact ends_crash
  · exact ends_crash
  · apply ends_bind_eval hgood hdepth (hargs count (by simp))
    intro value env₁ _ hle₁ hdepth₁ _
    have helem := hgood.mono hle₁ (hargs elem (by simp))
    split
    next n =>
      split_ifs
      · exact ends_complain _ _
      · apply Ends.bind_const
        · apply Ends.collect
          · intro _ _ env₂ _ hle₂ fuel
            exact Sound.weaken (safe_eval rt fuel env₂ elem (hgood.ok (hgood.mono hle₂ helem)))
              fun _ _ _ _ _ => trivial
          · intro _ _ env₂ _ hle₂ hdepth₂
            exact hgood.ends (hdepth₂.trans hdepth₁) (hgood.mono hle₂ helem)
        · simp [Pure.pure]
    · exact ends_complain _ _

theorem keeps_goodBindings (hargs : ∀ arg ∈ args, good env.store arg) (patient : Prop) :
    Keeps patient env (collect parseBinding args) fun pairs env' =>
      ∀ pair ∈ pairs, good env'.store pair.1 ∧ good env'.store pair.2 := by
  have hparts : ∀ pairs, (collect parseBinding args env).outcome = .ok pairs →
      ∀ pair ∈ pairs, good env.store pair.1 ∧ good env.store pair.2 := by
    intro pairs hok pair hmem
    rcases mem_of_collect hok hmem with ⟨arg, harg, env', hpair⟩
    have hgoodArg := hargs arg harg
    unfold parseBinding at hpair
    split at hpair
    next k value pos =>
      cases hpair
      have hparts := hgood.part hgoodArg
      exact ⟨hparts k (by simp), hparts value (by simp)⟩
    · cases hpair
  apply Sound.weaken (Sound.also (keeps_parseBindings (hgood.oks hargs)) hparts)
  intro pairs env' _ hle hpairs pair hmem
  have hpair := hpairs.1 pair hmem
  exact ⟨hgood.mono hle hpair.1, hgood.mono hle hpair.2⟩

theorem ends_hmapBind (pairs : List (Ast × Ast)) (entries : List (Scalar × Ast)) {env : Env}
    (hdepth : env.depth = depth)
    (hpairs : ∀ pair ∈ pairs, good env.store pair.1 ∧ good env.store pair.2) :
    Terminates bound env fun fuel => hmapBind (eval rt fuel) pairs entries := by
  induction pairs generalizing env entries with
  | nil => exact ends_pure _
  | cons pair rest ih =>
      have hpair := hpairs pair List.mem_cons_self
      apply ends_bind_eval hgood hdepth hpair.1
      intro k env₁ _ hle₁ hdepth₁ hk
      apply ends_bind_eval hgood hdepth₁ (hgood.mono hle₁ hpair.2)
      intro value env₂ _ hle₂ hdepth₂ _
      apply ends_bind_const fun _ => keeps_hashKey (Ast.Fits.mono hle₂ _ k hk) _
      intro s env₃ _ hle₃ hdepth₃ _
      apply ih _ (hdepth₃.trans hdepth₂)
      intro other hmem
      have hother := hpairs other (List.mem_cons_of_mem pair hmem)
      have hle := (hle₁.trans hle₂).trans hle₃
      exact ⟨hgood.mono hle hother.1, hgood.mono hle hother.2⟩

theorem ends_hmapImpl (hdepth : env.depth = depth) (hargs : ∀ arg ∈ args, good env.store arg) :
    Terminates bound env fun fuel => hmapImpl (eval rt fuel) args := by
  apply ends_bind_const (keeps_goodBindings hgood hargs)
  intro pairs env₁ _ _ hdepth₁ hpairs
  apply Ends.bind_const
  · exact ends_hmapBind hgood pairs [] (hdepth₁.trans hdepth) hpairs
  · simp [Pure.pure]

omit hgood in
theorem safe_failing {patient : Prop} : SafeEval patient fun _ => fail "" :=
  fun _ _ _ => keeps_fail _

theorem ends_defineImpl (hdepth : env.depth = depth) (hcount : 2 ≤ args.length)
    (hargs : ∀ arg ∈ args, good env.store arg) :
    Terminates bound env fun fuel => defineImpl (eval rt fuel) args := by
  have hsafe : Safe False env (defineImpl (fun _ => fail "") args) :=
    safe_defineImpl safe_failing hcount (hgood.oks hargs)
  rcases two_args hcount with ⟨arg, expr, rest, rfl⟩
  cases arg with
  | scalar value =>
      cases value with
      | ident name =>
          cases rest with
          | nil =>
              apply ends_bind_eval hgood hdepth (hargs expr (by simp))
              intro value env' _ _ _ hvalue
              exact ends_const (safe_bindNew hvalue)
          | cons extra rest => exact ends_fail _
      | _ => exact ends_const hsafe
  | _ => exact ends_const hsafe

theorem ends_letBindings (pairs : List (Ast × Ast)) {env : Env} (hdepth : env.depth = depth)
    (hpairs : ∀ pair ∈ pairs, good env.store pair.1 ∧ good env.store pair.2) :
    Terminates bound env fun fuel => letBindings (eval rt fuel) pairs := by
  induction pairs generalizing env with
  | nil => exact ends_pure _
  | cons pair rest ih =>
      rcases pair with ⟨nameExpr, valueExpr⟩
      unfold letBindings
      split
      next name =>
        apply ends_bind_eval hgood hdepth (hpairs _ List.mem_cons_self).2
        intro value env₁ _ hle₁ hdepth₁ hvalue
        apply ends_bind_const fun _ => keeps_bindHere hvalue
        intro _ env₂ _ hle₂ hdepth₂ _
        apply Ends.bind_const
        · apply ih (hdepth₂.trans hdepth₁)
          intro other hmem
          have hother := hpairs other (List.mem_cons_of_mem _ hmem)
          have hle := hle₁.trans hle₂
          exact ⟨hgood.mono hle hother.1, hgood.mono hle hother.2⟩
        · simp [Pure.pure]
      · exact ends_complain _ _

theorem ends_letImpl (hbodies : BodiesEnd rt bound depth) (hdepth : env.depth = depth)
    (hargs : ∀ arg ∈ args, good env.store arg) :
    Terminates bound env fun fuel => letImpl (eval rt fuel) args := by
  unfold letImpl
  split
  · exact ends_crash
  next bindings pos body =>
    have hbindings := hgood.part (hargs _ List.mem_cons_self)
    have hbody := hgood.oks fun expr hmem => hargs expr (List.mem_cons_of_mem _ hmem)
    apply ends_bind_const (keeps_goodBindings hgood hbindings)
    intro pairs env₁ hok₁ hle₁ hdepth₁ hpairs
    apply ends_bind_get
    have hoks : ∀ pair ∈ pairs, pair.1.Ok env₁.store ∧ pair.2.Ok env₁.store :=
      fun pair hmem => ⟨hgood.ok (hpairs pair hmem).1, hgood.ok (hpairs pair hmem).2⟩
    refine Ends.bind ?_ (fun fuel => keeps_letFrame (safe_eval rt fuel) hoks) ?_
    · apply Ends.within
      · intro hok
        exact ⟨hok.consistent, trivial, hok.ctx⟩
      · exact ends_letBindings hgood pairs (hdepth₁.trans hdepth) hpairs
    · intro bound' env₂ _ hle₂ hlevel₂ hbound
      have hcall := values_letCall (Ast.AllFit.mono (hle₁.trans hle₂) _ body hbody)
        (Ast.ValueCtx.mono hle₂ env₁.ctx hok₁.ctx) hbound
      have hdepth₂ : env₂.depth = depth := hlevel₂.trans (hdepth₁.trans hdepth)
      exact ends_callLambda (hdepth₂ ▸ hbodies) _ {} hcall.1 hcall.2
  · exact ends_fail _

theorem ends_evalModule (name : String) (hdepth : env.depth = depth) {body : List Ast}
    (hbody : ∀ expr ∈ body, good env.store expr) :
    Terminates bound env fun fuel => evalModule rt (eval rt fuel) name body := by
  have hoks := hgood.oks hbody
  refine Ends.bind ?_ (fun fuel => keeps_moduleBody (safe_eval rt fuel) hoks) ?_
  · apply Ends.within
    · intro hok
      exact ⟨hok.consistent, trivial, trivial, trivial⟩
    · apply Ends.bind_const
      · refine ends_collect hoks ?_
        intro expr hmem env' hle hdepth'
        exact hgood.ends (hdepth'.trans hdepth) (hgood.mono hle (hbody expr hmem))
      · intro results env'
        exact nofun
  · rintro ⟨results, ctx⟩ env' _ _ _ ⟨hresults, hctx⟩
    exact ends_const (safe_exports rt name hresults hctx)

theorem ends_moduleImpl (hdepth : env.depth = depth) (hargs : ∀ arg ∈ args, good env.store arg) :
    Terminates bound env fun fuel => moduleImpl rt (eval rt fuel) args := by
  cases args with
  | nil => exact ends_crash
  | cons nameExpr body =>
      apply ends_bind_eval hgood hdepth (hargs nameExpr List.mem_cons_self)
      intro value env₁ _ hle₁ hdepth₁ _
      split
      · apply ends_evalModule hgood _ hdepth₁
        intro expr hmem
        exact hgood.mono hle₁ (hargs expr (List.mem_cons_of_mem _ hmem))
      · exact ends_complain _ _

end Lazy

/-! ## Calls built out of values -/

mutual

def Ast.weight : Ast → ℕ
  | .list _ elems => 1 + Ast.weights elems
  | .sexp elems _ => 1 + Ast.weights elems
  | .moduleNode _ body => 1 + Ast.weights body
  | _ => 1

def Ast.weights : List Ast → ℕ
  | [] => 0
  | elem :: rest => elem.weight + Ast.weights rest

end

theorem weight_le_weights {elem : Ast} {elems : List Ast} (hmem : elem ∈ elems) :
    elem.weight ≤ Ast.weights elems := by
  induction elems with
  | nil => simp at hmem
  | cons first rest ih =>
      rw [Ast.weights]
      rcases List.mem_cons.mp hmem with rfl | hrest
      · omega
      · have hle := ih hrest
        omega

theorem weights_tail_le (elems : List Ast) : Ast.weights elems.tail ≤ Ast.weights elems := by
  cases elems with
  | nil => exact le_rfl
  | cons first rest =>
      rw [List.tail_cons, Ast.weights]
      omega

mutual

theorem weight_nonNil : ∀ value : Ast, value.nonNil.weight = value.weight
  | .list _ elems | .sexp elems _ | .moduleNode _ elems => by
      rw [Ast.nonNil, Ast.weight, Ast.weight, weights_nonNils elems]
  | .hmap _ | .lambda _ _ _ | .label _ | .scalar _ => rfl

theorem weights_nonNils : ∀ elems : List Ast,
    Ast.weights (Ast.nonNils elems) = Ast.weights elems
  | [] => rfl
  | elem :: rest => by
      rw [Ast.nonNils, Ast.weights, Ast.weights, weight_nonNil elem, weights_nonNils rest]

end

theorem tail_nonNils (elems : List Ast) : (Ast.nonNils elems).tail = Ast.nonNils elems.tail := by
  cases elems <;> rfl

/-- Calls whose arguments after the first one are light end.  Whatever the first argument is,
`apply`, `map` and `reduce` only ever call it. -/
def CallsEnd (rt : Runtime) (bound depth limit : ℕ) : Prop :=
  ∀ (env : Env) (f : Ast) (args : List Ast) (pos : Position), env.depth = depth →
    Ast.Values env.store (f :: args) → Ast.weights args.tail < limit →
      Terminates bound env fun fuel => eval rt fuel (.sexp (f :: args) pos)

section Calls

variable {rt : Runtime} {bound depth : ℕ} {env : Env} {values : List Ast}

theorem ends_notImpl (hvalues : Ast.Values env.store values) :
    Terminates bound env fun fuel => notImpl (eval rt fuel) values := by
  cases values with
  | nil => exact ends_crash
  | cons value rest =>
      apply Ends.bind_yields (yields_value rt value env hvalues.1)
      apply ends_bind_const fun _ => harmless_test _
      intro b env' _ _ _ _
      exact ends_pure _

theorem ends_applyImpl (hcalls : CallsEnd rt bound depth (Ast.weights values.tail))
    (hdepth : env.depth = depth) (hvalues : Ast.Values env.store values) :
    Terminates bound env fun fuel => applyImpl (eval rt fuel) values := by
  unfold applyImpl
  split
  next f isNil elems rest =>
    apply hcalls env f elems {} hdepth ⟨hvalues.1, hvalues.2.1⟩
    have hle := weights_tail_le elems
    simp only [List.tail_cons, Ast.weights, Ast.weight]
    omega
  · exact ends_complain _ _
  · exact ends_crash

theorem ends_reduceFrom {limit : ℕ} (hcalls : CallsEnd rt bound depth limit) (f : Ast)
    (items : List Ast) {result : Ast} {env : Env} (hdepth : env.depth = depth)
    (hlight : Ast.weights items < limit) (hf : f.Value env.store)
    (hresult : result.Value env.store) (hitems : Ast.Values env.store items) :
    Terminates bound env fun fuel => reduceFrom (eval rt fuel) f result items := by
  induction items generalizing result env with
  | nil => exact ends_pure _
  | cons item rest ih =>
      have hcall : Ast.Values env.store [f, result, item] := ⟨hf, hresult, hitems.1, trivial⟩
      rw [Ast.weights] at hlight
      have hitem : Ast.weights [result, item].tail < limit := by
        simp only [List.tail_cons, Ast.weights]
        omega
      apply Ends.bind (hcalls env f _ {} hdepth hcall hitem)
        fun fuel => safe_eval rt fuel env _ (ok_sexp (Ast.Values.oks _ hcall) {})
      intro next env' _ hle hlevel hnext
      exact ih (hlevel.trans hdepth) (by omega) (Ast.Fits.mono hle _ f hf) hnext
        (Ast.AllFit.mono hle _ rest hitems.2)

theorem ends_reduceImpl (hcalls : CallsEnd rt bound depth (Ast.weights values.tail))
    (hdepth : env.depth = depth) (hvalues : Ast.Values env.store values) :
    Terminates bound env fun fuel => reduceImpl (eval rt fuel) values := by
  unfold reduceImpl
  split
  next f isNil elems rest =>
    split
    next first second more =>
      have helems : Ast.Values env.store (first :: second :: more) := hvalues.2.1
      apply ends_reduceFrom hcalls f _ hdepth _ hvalues.1 helems.1 helems.2
      simp only [List.tail_cons, Ast.weights, Ast.weight]
      omega
    · exact ends_complain _ _
  · exact ends_complain _ _
  · exact ends_crash

theorem weight_getD_le (l : List Ast) (i : ℕ) :
    (l.getD i emptyList).weight ≤ 1 + Ast.weights l := by
  rw [List.getD_eq_getElem?_getD]
  rcases helem : l[i]? with _ | elem
  · simp [emptyList, Ast.weight, Ast.weights]
  · have hle := weight_le_weights (List.mem_of_getElem? helem)
    simp only [Option.getD_some]
    omega

theorem weights_getD_le {args : List Ast} {lists : List (List Ast)}
    (hlists : List.Forall₂ (fun arg l => ∃ isNil, arg = .list isNil l) args lists) (i : ℕ) :
    Ast.weights (lists.map fun l => l.getD i emptyList) ≤ Ast.weights args := by
  induction hlists with
  | nil => exact le_rfl
  | cons hhead _ ih =>
      rcases hhead with ⟨isNil, rfl⟩
      rw [List.map_cons, Ast.weights, Ast.weights, Ast.weight]
      exact add_le_add (weight_getD_le _ i) ih

theorem lists_of_collect {args : List Ast} {lists : List (List Ast)}
    (hok : (collect listArg args env).outcome = .ok lists) :
    List.Forall₂ (fun arg l => ∃ isNil, arg = .list isNil l) args lists := by
  apply (forall₂_of_collect args hok).imp
  rintro arg l ⟨env', hl⟩
  unfold listArg at hl
  split at hl
  next isNil elems =>
    cases hl
    exact ⟨isNil, rfl⟩
  · cases hl

theorem ends_mapImpl (hcalls : CallsEnd rt bound depth (Ast.weights values.tail))
    (hdepth : env.depth = depth) (hvalues : Ast.Values env.store values) :
    Terminates bound env fun fuel => mapImpl (eval rt fuel) values := by
  cases values with
  | nil => exact ends_crash
  | cons f args =>
      have hargs : ∀ patient, Keeps patient env (collect listArg args) _ :=
        fun _ => Sound.also (keeps_listArgs hvalues.2) fun _ hok => lists_of_collect hok
      apply ends_bind_const hargs
      rintro lists env₁ _ hle₁ hdepth₁ ⟨hshape, _, hlists⟩
      rcases lists with _ | ⟨first, others⟩
      · exact ends_crash
      · dsimp only
        split_ifs
        · apply Ends.bind_const
          · have hcall : ∀ (env₂ : Env) (i : ℕ), env₁.store.Le env₂.store →
                Ast.Values env₂.store (f :: (first :: others).map fun l => l.getD i emptyList) :=
              fun env₂ i hle₂ => values_mapCall (Ast.Fits.mono (hle₁.trans hle₂) _ f hvalues.1)
                (fun l hl => Ast.AllFit.mono hle₂ _ l (hlists l hl)) i
            apply Ends.collect
            · intro i _ env₂ _ hle₂ fuel
              exact Sound.weaken
                (safe_eval rt fuel env₂ _ (ok_sexp (Ast.Values.oks _ (hcall env₂ i hle₂)) {}))
                fun _ _ _ _ _ => trivial
            · intro i _ env₂ _ hle₂ hdepth₂
              have hdepth' : env₂.depth = depth := hdepth₂.trans (hdepth₁.trans hdepth)
              apply hcalls env₂ f _ {} hdepth' (hcall env₂ i hle₂)
              -- the list that the first argument comes from is not counted
              cases hshape with
              | cons hhead htail =>
                  rcases hhead with ⟨isNil, rfl⟩
                  have hle := weights_getD_le htail i
                  simp only [List.map_cons, List.tail_cons, Ast.weights, Ast.weight]
                  omega
          · simp [Pure.pure]
        · exact ends_fail _

end Calls

/-! ## The loop of `range` -/

section Range

variable {bound : ℕ} {env : Env}

theorem rangeBetween_of_rangeFrom {fuel : ℕ} {start stop step : ℤ} {ints : List ℤ}
    (hstep : ¬step ≤ 0) (hints : rangeFrom fuel start stop step = some ints) :
    rangeBetween fuel start stop step = pure (appended (ints.map .int)) := by
  unfold rangeBetween
  rw [if_neg hstep, hints]

theorem ends_rangeBetween {start stop step : ℤ}
    (hends : 0 < step → rangeEnds start stop step = true) :
    Terminates bound env fun fuel => rangeBetween fuel start stop step := by
  by_cases hstep : step ≤ 0
  · simp only [rangeBetween, if_pos hstep]
    exact ends_fail _
  · rcases rangeFrom_of_ends (hends (not_le.mp hstep)) with ⟨enough, henough⟩
    rcases Option.isSome_iff_exists.mp (henough enough le_rfl) with ⟨ints, hints⟩
    have hyields : Yields (fun fuel => rangeBetween fuel start stop step) env
        (appended (ints.map .int)) env := by
      refine ⟨[], Filter.eventually_atTop.mpr ⟨enough, fun fuel hfuel => ?_⟩⟩
      simp only [rangeBetween_of_rangeFrom hstep (rangeFrom_mono hfuel hints)]
      rfl
    exact Ends.of_yields hyields

theorem ints_of_collect {values : List Ast} {ints : List ℤ}
    (hok : (collect rangeArg values env).outcome = .ok ints) : values = ints.map .int := by
  have hrel : List.Forall₂ (fun value x => value = Ast.int x) values ints := by
    apply (forall₂_of_collect values hok).imp
    rintro value x ⟨env', hx⟩
    unfold rangeArg at hx
    split at hx
    · cases hx
      rfl
    · cases hx
  clear hok
  induction hrel with
  | nil => rfl
  | cons hhead _ ih => rw [hhead, ih, List.map_cons]

theorem ends_rangeImpl {values : List Ast} (hends : endlessRange values = false) :
    Terminates bound env fun fuel => rangeImpl fuel values := by
  have hints : ∀ patient, Keeps patient env (collect rangeArg values) _ :=
    fun _ => Sound.also (keeps_collect harmless_rangeArg values) fun _ hok => ints_of_collect hok
  apply ends_bind_const hints
  rintro ints env' _ _ _ ⟨rfl, _⟩
  split
  next stop =>
    apply ends_rangeBetween
    intro _
    simpa [endlessRange] using hends
  next start stop =>
    apply ends_rangeBetween
    intro _
    simpa [endlessRange] using hends
  next start stop step =>
    apply ends_rangeBetween
    intro hstep
    simpa [endlessRange, hstep] using hends
  · exact ends_fail _

end Range

/-! ## The head of an S-expression -/

/-- The arguments of a call end, and so do the calls that can be built out of their values. -/
def ArgsEnd (rt : Runtime) (bound : ℕ) (env : Env) (args : List Ast) : Prop :=
  ∀ f : ℕ → List Ast → EvalM Ast,
    (∀ (values : List Ast) (env' : Env), env'.Ok → env.store.Le env'.store →
      env'.depth = env.depth → values.length = args.length → Ast.Values env'.store values →
        CallsEnd rt bound env.depth (Ast.weights values.tail) →
          Terminates bound env' fun fuel => f fuel values) →
      Terminates bound env fun fuel => collect (eval rt fuel) args >>= f fuel

section Head

variable {rt : Runtime} {bound depth : ℕ} {good : Store → Ast → Prop} {env : Env}
  {args : List Ast}

theorem disciplined_plain {name : String} (hname : name ∉ evaluators) {fuel : ℕ}
    {ev : Ast → EvalM Ast} {impl : FuncImpl}
    (hlookup : (funcImplMap rt fuel ev).lookup name = some impl) :
    FuncImpl.Disciplined False (name, impl) := by
  rw [lookup_plain hname _ _ rt fuel 0 ev fun _ => fail ""] at hlookup
  exact disciplined_funcImplMap rt 0 safe_failing _ (mem_of_lookup hlookup)

theorem ends_applyBuiltin {name : String} {run : ℕ → List Ast → EvalM Ast} {count : ℕ}
    {lazy : Bool} (pos : Position)
    (hlookup : ∀ fuel, (funcImplMap rt fuel (eval rt fuel)).lookup name =
      some ⟨run fuel, count, lazy⟩)
    (hcall : count ≤ args.length →
      Terminates bound env fun fuel =>
        callBuiltin (eval rt fuel) name ⟨run fuel, count, lazy⟩ args) :
    Terminates bound env fun fuel => applyHead rt fuel (eval rt fuel) pos args (.ident name) := by
  simp only [applyHead, hlookup]
  split_ifs with hcount
  · exact Ends.const fun _ => by simp [Procedure.throw]
  · exact Ends.mapError _ (hcall (not_lt.mp hcount))

theorem ends_eager {name : String} {run : ℕ → List Ast → EvalM Ast} {count : ℕ}
    (hargs : ArgsEnd rt bound env args)
    (hrun : ∀ (values : List Ast) (env' : Env), env'.depth = env.depth →
      Ast.Values env'.store values → CallsEnd rt bound env.depth (Ast.weights values.tail) →
        Event.Tame bound (.called name values) →
          Terminates bound env' fun fuel => run fuel values) :
    Terminates bound env fun fuel =>
      callBuiltin (eval rt fuel) name ⟨run fuel, count, false⟩ args := by
  apply hargs
  intro values env' _ _ hdepth _ hvalues hcalls
  apply Ends.emit
  exact hrun values env' hdepth hvalues hcalls

theorem ends_plain {name : String} (hname : name ∉ evaluators) {impl : FuncImpl}
    (hdisciplined : FuncImpl.Disciplined False (name, impl)) (hoks : Ast.Oks env.store args)
    (hargs : ArgsEnd rt bound env args) (hcount : impl.minArgs ≤ args.length) :
    Terminates bound env fun fuel => callBuiltin (eval rt fuel) name impl args := by
  unfold callBuiltin
  split_ifs with hlazy
  · exact ends_const (hdisciplined.lazy hlazy env args hcount hoks)
  · apply hargs
    intro values env' _ _ _ hlength hvalues _
    have hrange : name ≠ "range" := by
      rintro rfl
      exact hname (by decide)
    exact ends_const (hdisciplined.eager (by simpa using hlazy) (fun h => hrange h) env' values
      (hlength ▸ hcount) hvalues)

theorem ends_evaluator (hgood : Handles rt bound depth good) (hbodies : BodiesEnd rt bound depth)
    (hdepth : env.depth = depth) (hparts : ∀ arg ∈ args, good env.store arg)
    (hargs : ArgsEnd rt bound env args) (pos : Position) {name : String}
    (hname : name ∈ evaluators) :
    Terminates bound env fun fuel => applyHead rt fuel (eval rt fuel) pos args (.ident name) := by
  simp only [evaluators, List.mem_cons, List.not_mem_nil, or_false] at hname
  rcases hname with rfl | rfl | rfl | rfl | rfl | rfl | rfl | rfl | rfl | rfl | rfl | rfl | rfl
  · exact ends_applyBuiltin pos (fun _ => rfl) fun _ =>
      ends_eager hargs fun _ _ _ hvalues _ _ => ends_notImpl hvalues
  · exact ends_applyBuiltin pos (fun _ => rfl) fun _ => ends_andImpl hgood args hdepth hparts
  · exact ends_applyBuiltin pos (fun _ => rfl) fun _ =>
      ends_eager hargs fun _ _ hsame hvalues hcalls _ => ends_applyImpl hcalls hsame hvalues
  · exact ends_applyBuiltin pos (fun _ => rfl) fun hcount =>
      ends_defineImpl hgood hdepth hcount hparts
  · exact ends_applyBuiltin pos (fun _ => rfl) fun _ => ends_hmapImpl hgood hdepth hparts
  · exact ends_applyBuiltin pos (fun _ => rfl) fun _ => ends_ifImpl hgood hdepth hparts
  · exact ends_applyBuiltin pos (fun _ => rfl) fun _ => ends_letImpl hgood hbodies hdepth hparts
  · exact ends_applyBuiltin pos (fun _ => rfl) fun _ => ends_makeListImpl hgood hdepth hparts
  · exact ends_applyBuiltin pos (fun _ => rfl) fun _ =>
      ends_eager hargs fun _ _ hsame hvalues hcalls _ => ends_mapImpl hcalls hsame hvalues
  · exact ends_applyBuiltin pos (fun _ => rfl) fun _ => ends_moduleImpl hgood hdepth hparts
  · exact ends_applyBuiltin pos (fun _ => rfl) fun _ => ends_orImpl hgood args hdepth hparts
  · exact ends_applyBuiltin pos (fun _ => rfl) fun _ =>
      ends_eager hargs fun _ _ _ _ _ htame =>
        ends_rangeImpl (by simpa [Event.Tame, Event.endless] using htame)
  · exact ends_applyBuiltin pos (fun _ => rfl) fun _ =>
      ends_eager hargs fun _ _ hsame hvalues hcalls _ => ends_reduceImpl hcalls hsame hvalues

theorem ends_applyHead (hgood : Handles rt bound depth good) (hbodies : BodiesEnd rt bound depth)
    (hdepth : env.depth = depth) (hparts : ∀ arg ∈ args, good env.store arg)
    (hargs : ArgsEnd rt bound env args) (pos : Position) {first : Ast}
    (hfirst : first.Value env.store) :
    Terminates bound env fun fuel => applyHead rt fuel (eval rt fuel) pos args first := by
  cases first with
  | scalar value =>
      cases value with
      | ident name =>
          by_cases hname : name ∈ evaluators
          · exact ends_evaluator hgood hbodies hdepth hparts hargs pos hname
          · rcases exists_impl (hfirst rfl) rt 0 (eval rt 0) with ⟨impl, hlookup⟩
            apply ends_applyBuiltin pos
            · intro fuel
              exact (lookup_plain hname _ _ rt fuel 0 _ _).trans hlookup
            · exact ends_plain hname (disciplined_plain hname hlookup) (hgood.oks hparts) hargs
      | _ => exact Ends.mapError _ (ends_complain _ _)
  | lambda argNames body ctx =>
      apply Ends.mapError
      apply hargs
      intro values env' _ hle hdepth' _ hvalues _
      have hbodies' : BodiesEnd rt bound env'.depth := (hdepth'.trans hdepth) ▸ hbodies
      exact ends_evalLambda hbodies' argNames (Ast.AllFit.mono hle _ body hfirst.2.1)
        (Ast.ValueCtx.mono hle ctx hfirst.2.2) hvalues
  | _ => exact Ends.mapError _ (ends_complain _ _)

end Head

/-! ## The levels -/

section Levels

variable {rt : Runtime} {bound depth : ℕ}

theorem handles_values : Handles rt bound depth fun store value => value.Value store where
  ok := Ast.Value.ok _
  mono := fun hle h => Ast.Fits.mono hle _ _ h
  part := fun h => (Ast.allFit_iff _).mp h.1
  ends := fun _ h => Ends.of_yields (yields_value rt _ _ h)

theorem CallsEnd.mono {limit limit' : ℕ} (hle : limit ≤ limit')
    (hcalls : CallsEnd rt bound depth limit') : CallsEnd rt bound depth limit :=
  fun env f args pos hdepth hvalues hlight =>
    hcalls env f args pos hdepth hvalues (hlight.trans_le hle)

theorem calls_end (hbodies : BodiesEnd rt bound depth) (limit : ℕ) :
    CallsEnd rt bound depth limit := by
  induction limit with
  | zero => exact fun _ _ _ _ _ _ hlight => absurd hlight (Nat.not_lt_zero _)
  | succ limit ih =>
      intro env f args pos hdepth hvalues hlight hok
      have hargs : ArgsEnd rt bound env args := by
        intro g hg
        apply ends_bind_values hvalues.2
        intro hstill
        apply hg _ env hok (Store.Le.refl _) rfl (length_nonNils args) hstill
        rw [tail_nonNils, weights_nonNils, hdepth]
        exact ih.mono (Nat.lt_succ_iff.mp hlight)
      revert hok
      apply ends_succ.mp
      apply ends_bind_value hvalues.1
      intro hfirst
      exact ends_applyHead handles_values hbodies hdepth ((Ast.allFit_iff args).mp hvalues.2) hargs
        pos hfirst

theorem weight_pos (expr : Ast) : 0 < expr.weight := by
  cases expr <;> simp [Ast.weight]

theorem ends_ident (env : Env) (name : String) :
    Terminates bound env fun fuel => eval rt fuel (.ident name) := by
  apply ends_succ.mp
  have hsame : ∀ fuel, evalIdent rt fuel (eval rt fuel) name =
      evalIdent rt 0 (fun _ => fail "") name := by
    intro fuel
    unfold evalIdent
    rw [isBuiltin_eq]
  change Terminates bound env fun fuel => evalIdent rt fuel (eval rt fuel) name
  simp only [hsame]
  exact ends_const (safe_evalIdent rt 0 name)

theorem args_end {good : Store → Ast → Prop} {env : Env} {args : List Ast}
    (hgood : Handles rt bound depth good) (hbodies : BodiesEnd rt bound depth)
    (hdepth : env.depth = depth) (hargs : ∀ arg ∈ args, good env.store arg) :
    ArgsEnd rt bound env args := by
  intro f hf
  have hoks := hgood.oks hargs
  have hends : Terminates bound env fun fuel => collect (eval rt fuel) args := by
    refine ends_collect hoks ?_
    intro arg hmem env' hle hlevel
    exact hgood.ends (hlevel.trans hdepth) (hgood.mono hle (hargs arg hmem))
  apply Ends.bind hends fun fuel => values_collect (safe_eval rt fuel) hoks
  intro values env' hok hle hlevel hvalues
  exact hf values env' hok hle hlevel hvalues.1 hvalues.2 (hdepth ▸ calls_end hbodies _)

theorem ends_code (hbodies : BodiesEnd rt bound depth) (size : ℕ) :
    ∀ (expr : Ast), expr.weight ≤ size → ∀ env : Env, env.depth = depth → expr.Ok env.store →
      Terminates bound env fun fuel => eval rt fuel expr := by
  induction size with
  | zero => exact fun expr hsize => absurd hsize (by have := weight_pos expr; omega)
  | succ size ih =>
      intro expr hsize env hdepth hok
      have hgood : Handles rt bound depth fun store expr => expr.weight ≤ size ∧ expr.Ok store :=
        { ok := fun h => h.2
          mono := fun hle h => ⟨h.1, Ast.Fits.mono hle _ _ h.2⟩
          part := by
            intro store elems pos h elem hmem
            have hle := weight_le_weights hmem
            have hsexp := h.1
            rw [Ast.weight] at hsexp
            exact ⟨by omega, (Ast.allFit_iff elems).mp h.2.1 elem hmem⟩
          ends := fun hdepth h => ih _ h.1 _ hdepth h.2 }
      -- the parts of an expression of this size are smaller
      have hparts : ∀ (store : Store) (elems : List Ast), Ast.weights elems ≤ size →
          Ast.Oks store elems → ∀ elem ∈ elems, elem.weight ≤ size ∧ elem.Ok store := by
        intro store elems hweights helems elem hmem
        exact ⟨(weight_le_weights hmem).trans hweights, (Ast.allFit_iff elems).mp helems elem hmem⟩
      cases expr with
      | sexp elems pos =>
          rw [Ast.weight] at hsize
          cases elems with
          | nil => exact ends_succ.mp (Ends.const fun _ => nofun)
          | cons head args =>
              rw [Ast.weights] at hsize
              have hhead : head.weight ≤ size ∧ head.Ok env.store := ⟨by omega, hok.1.1⟩
              apply ends_succ.mp
              apply Ends.bind (Ends.mapError _ (hgood.ends hdepth hhead)) fun fuel =>
                Sound.mapError (safe_eval rt fuel env head hok.1.1)
              intro first env' _ hle hlevel hfirst
              have hargs := Ast.AllFit.mono hle _ args hok.1.2
              have hsmall := hparts env'.store args (by omega) hargs
              have hdepth' : env'.depth = depth := hlevel.trans hdepth
              exact ends_applyHead hgood hbodies hdepth' hsmall
                (args_end hgood hbodies hdepth' hsmall) pos hfirst
      | list isNil elems =>
          rw [Ast.weight] at hsize
          have hsmall := hparts env.store elems (by omega) hok
          apply ends_succ.mp
          apply Ends.bind_const
          · refine ends_collect hok ?_
            intro elem hmem env' hle hlevel
            exact hgood.ends (hlevel.trans hdepth) (hgood.mono hle (hsmall elem hmem))
          · simp [Pure.pure]
      | moduleNode name body =>
          rw [Ast.weight] at hsize
          exact ends_succ.mp
            (ends_evalModule hgood name hdepth (hparts env.store body (by omega) hok))
      | hmap entries => exact ends_succ.mp (ends_pure _)
      | lambda argNames body ctx => exact ends_succ.mp (ends_pure _)
      | label l => exact ends_succ.mp (ends_pure _)
      | scalar value =>
          cases value with
          | ident name => exact ends_ident env name
          | _ => exact ends_succ.mp (ends_pure _)

theorem ends_eval (levels depth : ℕ) (hlevels : bound < depth + levels) (env : Env)
    (hdepth : env.depth = depth) (expr : Ast) (hexpr : expr.Ok env.store) :
    Terminates bound env fun fuel => eval rt fuel expr := by
  induction levels generalizing depth env expr with
  | zero =>
      have hbodies : BodiesEnd rt bound depth := fun hle => absurd hlevels (by omega)
      exact ends_code hbodies _ expr le_rfl env hdepth hexpr
  | succ levels ih =>
      have hbodies : BodiesEnd rt bound depth := fun _ env' hdepth' expr' hexpr' =>
        ih (depth + 1) (by omega) env' hdepth' expr' hexpr'
      exact ends_code hbodies _ expr le_rfl env hdepth hexpr

end Levels

/-! ## Programs -/

section Programs

variable {rt : Runtime} {program : List Ast}

theorem evalProgram_ends {bound : ℕ} (hprogram : Ast.sources program = true)
    (htame : ∀ fuel, ∀ event ∈ (evalProgram rt fuel program).trace, event.Tame bound) :
    ∃ fuel, (evalProgram rt fuel program).outcome ≠ .timeout := by
  have hoks := oks_of_sources Env.initial.store program hprogram
  have hends : Terminates bound Env.initial fun fuel => collect (eval rt fuel) program := by
    refine ends_collect hoks ?_
    intro expr hmem env' hle hdepth
    have hexpr := Ast.Fits.mono hle _ expr ((Ast.allFit_iff program).mp hoks expr hmem)
    exact ends_eval (bound + 1) 0 (by omega) env' hdepth expr hexpr
  rcases hends Env.ok_initial (Filter.Eventually.of_forall htame) with ⟨ran, hsettles, hran⟩
  rcases hsettles.exists with ⟨fuel, hfuel⟩
  have hended : evalProgram rt fuel program = ran := hfuel
  exact ⟨fuel, by rwa [hended]⟩

theorem trace_subset_of_ended {fuel : ℕ} (hended : (evalProgram rt fuel program).outcome ≠ .timeout)
    (fuel' : ℕ) : (evalProgram rt fuel' program).trace ⊆ (evalProgram rt fuel program).trace := by
  rcases le_total fuel fuel' with hle | hle
  · rcases congruence_extends.collect program (extends_eval rt hle) Env.initial with hsame | hgoes
    · unfold evalProgram
      rw [hsame]
      exact List.Subset.refl _
    · exact absurd hgoes.1 hended
  · rcases congruence_extends.collect program (extends_eval rt hle) Env.initial with hsame | hgoes
    · unfold evalProgram
      rw [hsame]
      exact List.Subset.refl _
    · exact hgoes.2.subset

theorem exists_bound (trace : List Event) :
    ∃ bound, ∀ depth, .entered depth ∈ trace → depth ≤ bound := by
  induction trace with
  | nil => exact ⟨0, by simp⟩
  | cons event rest ih =>
      rcases ih with ⟨bound, hbound⟩
      cases event with
      | entered depth =>
          refine ⟨max depth bound, ?_⟩
          intro other hmem
          rcases List.mem_cons.mp hmem with heq | hrest
          · cases heq
            exact le_max_left _ _
          · exact (hbound other hrest).trans (le_max_right _ _)
      | _ => exact ⟨bound, fun other hmem => hbound other (by simpa using hmem)⟩

/-- The evaluation of a program that compiles ends if and only if the bodies of
lambdas are nested to a bounded depth and every loop of `range` can reach its
limit. -/
theorem evaluation_ends_iff {u : Unicode} {files : Files} {steps : ℕ} {spec : Spec}
    (hprogram : compile u files steps spec = .ok program) :
    (∃ fuel, (evalProgram rt fuel program).outcome ≠ .timeout) ↔
      (∃ bound, ∀ fuel depth, .entered depth ∈ (evalProgram rt fuel program).trace →
        depth ≤ bound) ∧
      ∀ fuel args, .called "range" args ∈ (evalProgram rt fuel program).trace →
        endlessRange args = false := by
  have hsources := sources_compile hprogram
  constructor
  · rintro ⟨fuel, hended⟩
    have hsubset := trace_subset_of_ended hended
    constructor
    · rcases exists_bound (evalProgram rt fuel program).trace with ⟨bound, hbound⟩
      exact ⟨bound, fun fuel' depth hmem => hbound depth (hsubset fuel' hmem)⟩
    · intro fuel' args hmem
      have hupheld := values_collect (safe_eval rt fuel)
        (oks_of_sources Env.initial.store program hsources) Env.ok_initial
      by_contra hendless
      have hevent : Event.endless (.called "range" args) = true := by
        simpa [Event.endless] using hendless
      exact hended (hupheld.hangs ⟨_, hsubset fuel' hmem, hevent⟩)
  · rintro ⟨⟨bound, hbound⟩, hrange⟩
    have htame : ∀ fuel, ∀ event ∈ (evalProgram rt fuel program).trace, event.Tame bound := by
      intro fuel event hmem
      cases event with
      | entered depth => exact hbound fuel depth hmem
      | called name args =>
          by_cases hname : name = "range"
          · subst hname
            simpa [Event.Tame, Event.endless] using hrange fuel args hmem
          · simp [Event.Tame, Event.endless, hname]
      | _ => rfl
    exact evalProgram_ends hsources htame

/-- A program that calls a lambda and loops. -/
def squares : String := "(map (lambda (x) (* x x)) (range 3))"

theorem evaluation_ends_iff_squares :
    ∃ program, compile plainRuntime.unicode noFiles 20 { text := squares.toList } = .ok program ∧
      (∃ bound, ∀ fuel depth, .entered depth ∈ (evalProgram plainRuntime fuel program).trace →
        depth ≤ bound) ∧
      ∀ fuel args, .called "range" args ∈ (evalProgram plainRuntime fuel program).trace →
        endlessRange args = false := by
  have hnew : ∃ dsl, new plainRuntime noFiles 20 { text := squares.toList } = .ok dsl :=
    Outcome.exists_ok (by decide +kernel)
  rcases hnew with ⟨dsl, hnew⟩
  rcases new_eq_ok.mp hnew with ⟨program, values, hprogram, hvalues, _⟩
  exact ⟨program, hprogram, (evaluation_ends_iff hprogram).mp ⟨20, by simp [hvalues]⟩⟩

end Programs

/-! ## Programs that do not end -/

/-- A lambda that calls its argument with itself. -/
def selfLambda (p₁ p₂ p₃ : Position) : Ast :=
  .sexp [.ident "lambda", .sexp [.ident "f"] p₁, .sexp [.ident "f", .ident "f"] p₂] p₃

def selfApplication : String := "((lambda (f) (f f)) (lambda (f) (f f)))"

/-- Only the even numbers are reached. -/
def jumpingRange : String := "(range 0 9223372036854775807 2)"

def selfClosure (p : Position) (ctx : Ctx) : Ast :=
  .lambda ["f"] [.sexp [.ident "f", .ident "f"] p] ctx

section Endless

variable {rt : Runtime} {fuel : ℕ} {env : Env}

theorem inCtx_timeout {α : Type} {m : EvalM α} {ctx : Ctx}
    (hm : (m { env with ctx := ctx }).outcome = .timeout) :
    (inCtx ctx m env).outcome = .timeout := hm

theorem calling_timeout {α : Type} {m : EvalM α}
    (hm : (m { env with depth := env.depth + 1 }).outcome = .timeout) :
    (calling m env).outcome = .timeout := hm

theorem evalLambda_timeout {q : Position} {ctx : Ctx} {fn : Ast}
    (hfn : ∀ env : Env, eval rt fuel fn env = ⟨.ok fn, env, []⟩)
    (hbody : ∀ env : Env, env.ctx.find "f" = some fn →
      (eval rt fuel (.sexp [.ident "f", .ident "f"] q) env).outcome = .timeout) :
    (evalLambda (eval rt fuel) ["f"] [.sexp [.ident "f", .ident "f"] q] ctx [fn] env).outcome =
      .timeout := by
  unfold evalLambda
  rw [if_neg (by simp)]
  apply inCtx_timeout
  apply bind_timeout_later (collect_singleton (hfn { env with ctx := ctx }))
  rw [get_bind]
  apply bind_timeout
  exact inCtx_timeout (calling_timeout (bind_timeout (hbody _ rfl)))

theorem eval_selfClosure (rt : Runtime) (fuel : ℕ) (p : Position) (ctx : Ctx) (env : Env) :
    eval rt (fuel + 1) (selfClosure p ctx) env = ⟨.ok (selfClosure p ctx), env, []⟩ := rfl

theorem eval_ident_of_find (rt : Runtime) (fuel : ℕ) {name : String} {env : Env} {value : Ast}
    (hbuiltin : isBuiltin rt fuel (eval rt fuel) name = false)
    (hfind : env.ctx.find name = some value) :
    eval rt (fuel + 1) (.ident name) env = ⟨.ok value, env, []⟩ := by
  change evalIdent rt fuel (eval rt fuel) name env = _
  unfold evalIdent
  rw [if_neg (by simp [hbuiltin]), get_bind, hfind]
  rfl

theorem selfCall_timeout (rt : Runtime) (p : Position) (ctx : Ctx) (fuel : ℕ) :
    ∀ (q : Position) (env : Env), env.ctx.find "f" = some (selfClosure p ctx) →
        (eval rt fuel (.sexp [.ident "f", .ident "f"] q) env).outcome = .timeout := by
  induction fuel with
  | zero => exact fun _ _ _ => rfl
  | succ fuel ih =>
      intro q env hfind
      cases fuel with
      | zero => rfl
      | succ fuel =>
          have hident : eval rt (fuel + 1) (.ident "f") env =
              ⟨.ok (selfClosure p ctx), env, []⟩ := eval_ident_of_find rt fuel rfl hfind
          have hhead : mapError (headError (.ident "f") q) (eval rt (fuel + 1) (.ident "f")) env =
              ⟨.ok (selfClosure p ctx), env, []⟩ := by
            unfold Procedure.mapError
            rw [hident]
          apply bind_timeout_later hhead
          apply (mapError_timeout_iff _ _ _).mpr
          apply bind_timeout_later (collect_singleton hident)
          exact evalLambda_timeout (eval_selfClosure rt fuel p ctx) fun env => ih p env

theorem selfApplication_timeout (rt : Runtime) (p₁ p₂ p₃ p₄ p₅ p₆ p₇ : Position) (fuel : ℕ) :
    (evalProgram rt fuel [.sexp [selfLambda p₁ p₂ p₃, selfLambda p₄ p₅ p₆] p₇]).outcome =
      .timeout := by
  apply bind_timeout
  match fuel with
  | 0 => rfl
  | 1 => rfl
  | 2 => rfl
  | fuel + 3 =>
      have hlambda : ∀ (a b c : Position) (env : Env), eval rt (fuel + 2) (selfLambda a b c) env =
          ⟨.ok (selfClosure b env.ctx), env, []⟩ := fun _ _ _ _ => rfl
      have hhead : mapError (headError (selfLambda p₁ p₂ p₃) p₇)
          (eval rt (fuel + 2) (selfLambda p₁ p₂ p₃)) Env.initial =
            ⟨.ok (selfClosure p₂ Env.initial.ctx), Env.initial, []⟩ := by
        unfold Procedure.mapError
        rw [hlambda]
      apply bind_timeout_later hhead
      apply (mapError_timeout_iff _ _ _).mpr
      apply bind_timeout_later (collect_singleton (hlambda p₄ p₅ p₆ Env.initial))
      exact evalLambda_timeout (eval_selfClosure rt (fuel + 1) p₅ Env.initial.ctx)
        fun env => selfCall_timeout rt p₅ Env.initial.ctx (fuel + 2) p₂ env

theorem jumpingRange_timeout (rt : Runtime) (p : Position) (fuel : ℕ) :
    (evalProgram rt fuel
      [.sexp [.ident "range", .int 0, .int 9223372036854775807, .int 2] p]).outcome = .timeout := by
  apply bind_timeout
  match fuel with
  | 0 => rfl
  | 1 => rfl
  | fuel + 2 =>
      have hendless : endlessRange [.int 0, .int 9223372036854775807, .int 2] = true := by decide
      have hhead : mapError (headError (.ident "range") p)
          (eval rt (fuel + 1) (.ident "range")) Env.initial =
            ⟨.ok (.ident "range"), Env.initial, []⟩ := rfl
      have hargs : collect (eval rt (fuel + 1)) [.int 0, .int 9223372036854775807, .int 2]
          Env.initial = ⟨.ok [.int 0, .int 9223372036854775807, .int 2], Env.initial, []⟩ := rfl
      have hemit : ∀ event, (emit event : EvalM Unit) Env.initial =
          ⟨.ok (), Env.initial, [event]⟩ := fun _ => rfl
      apply bind_timeout_later hhead
      apply (mapError_timeout_iff _ _ _).mpr
      apply bind_timeout_later hargs
      apply bind_timeout_later (hemit _)
      exact congrArg Ran.outcome (rangeImpl_of_endless hendless (fuel + 1) Env.initial)

end Endless

/-- Two programs that compile and for which no fuel is enough. -/
theorem evaluations_without_end :
    (∃ program, compile plainRuntime.unicode noFiles 1 { text := selfApplication.toList } =
        .ok program ∧
      ∀ fuel, (evalProgram plainRuntime fuel program).outcome = .timeout) ∧
    ∃ program, compile plainRuntime.unicode noFiles 1 { text := jumpingRange.toList } =
        .ok program ∧
      ∀ fuel, (evalProgram plainRuntime fuel program).outcome = .timeout := by
  constructor
  · exact ⟨_, rfl, selfApplication_timeout plainRuntime _ _ _ _ _ _ _⟩
  · exact ⟨_, rfl, jumpingRange_timeout plainRuntime _⟩

end Lang
end Di
