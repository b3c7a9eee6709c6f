import Di.DslSafety

/-!
# Functions that evaluate their arguments

The built-in functions that call the evaluator back respect the discipline if
the evaluator does.  The S-expressions they build consist of values.
-/

namespace Di
namespace Lang

open Procedure

theorem ok_sexp {store : Store} {elems : List Ast} (helems : Ast.Oks store elems)
    (pos : Position) : Ast.Ok store (.sexp elems pos) := by
  constructor
  · exact helems
  · intro hform
    cases hform

section Control

variable {patient : Prop} {env : Env} {ev : Ast → EvalM Ast} {args : List Ast}

theorem safe_notImpl (hev : SafeEval patient ev) (hcount : 1 ≤ args.length)
    (hargs : Ast.Values env.store args) : Safe patient env (notImpl ev args) := by
  unfold notImpl
  split
  next => simp at hcount
  · apply Sound.bind (hev env _ (Ast.Value.ok _ hargs.1))
    intro value _ _ _ _
    apply Sound.bind (harmless_test value)
    intro _ _ _ _ _
    exact Sound.pure fun _ => trivial

theorem safe_shortCircuit (hev : SafeEval patient ev) (stop : Bool) (args : List Ast) {env : Env}
    (hargs : Ast.Oks env.store args) : Safe patient env (shortCircuit stop ev args) := by
  induction args generalizing env with
  | nil => exact Sound.pure fun _ => trivial
  | cons arg rest ih =>
      apply Sound.bind (hev env arg hargs.1)
      intro value env₁ _ hle₁ _
      apply Sound.bind (harmless_test value)
      intro b env₂ _ hle₂ _
      split
      · exact Sound.pure fun _ => trivial
      · exact ih (Ast.AllFit.mono (hle₁.trans hle₂) _ rest hargs.2)

theorem safe_andImpl (hev : SafeEval patient ev) (args : List Ast) {env : Env}
    (hargs : Ast.Oks env.store args) : Safe patient env (andImpl ev args) := by
  rw [andImpl_eq]
  exact safe_shortCircuit hev false args hargs

theorem safe_orImpl (hev : SafeEval patient ev) (args : List Ast) {env : Env}
    (hargs : Ast.Oks env.store args) : Safe patient env (orImpl ev args) := by
  rw [orImpl_eq]
  exact safe_shortCircuit hev true args hargs

theorem safe_ifImpl (hev : SafeEval patient ev) (hcount : 2 ≤ args.length)
    (hargs : Ast.Oks env.store args) : Safe patient env (ifImpl ev args) := by
  rcases two_args hcount with ⟨cond, thenExpr, rest, rfl⟩
  apply Sound.bind (hev env cond hargs.1)
  intro value env₁ _ hle₁ _
  apply Sound.bind (harmless_test value)
  intro b env' _ hle₂ _
  have hrest := Ast.AllFit.mono (hle₁.trans hle₂) _ _ hargs.2
  split
  · exact hev env' thenExpr hrest.1
  · split
    · exact safe_emptyList
    · exact hev env' _ hrest.2.1

theorem valueOk_mono (value : Ast) (env env' : Env) (hle : env.store.Le env'.store)
    (hvalue : ValueOk value env) : ValueOk value env' := Ast.Fits.mono hle _ value hvalue

theorem safe_makeListImpl (hev : SafeEval patient ev) (hcount : 2 ≤ args.length)
    (hargs : Ast.Oks env.store args) : Safe patient env (makeListImpl ev args) := by
  rcases two_args hcount with ⟨count, elem, rest, rfl⟩
  apply Sound.bind (hev env count hargs.1)
  intro value env' hok hle hvalue
  split
  next n =>
    split
    · exact keeps_complain _ _
    next hnonneg =>
      have hcollect := Sound.collect (d := evalDiscipline patient) (s := env') valueOk_mono
        (List.range n.toNat) fun _ _ env'' _ hle' =>
          hev env'' elem (Ast.Fits.mono (hle.trans hle') _ elem hargs.2.1)
      apply Sound.bind hcollect
      intro elems env'' _ _ helems
      exact Sound.pure fun _ => (Ast.allFit_iff elems).mpr helems.2
  · exact keeps_complain _ _

theorem safe_applyImpl (hev : SafeEval patient ev) (hcount : 2 ≤ args.length)
    (hargs : Ast.Values env.store args) : Safe patient env (applyImpl ev args) := by
  rcases two_args hcount with ⟨f, list, rest, rfl⟩
  unfold applyImpl
  split
  next f isNil elems rest heq =>
    cases heq
    have hcall : Ast.Oks env.store (f :: elems) :=
      ⟨Ast.Value.ok f hargs.1, Ast.Values.oks elems hargs.2.1⟩
    exact hev env _ (ok_sexp hcall {})
  · exact keeps_complain _ _
  next hother => exact absurd rfl (hother _ _ _)

theorem safe_reduceFrom (hev : SafeEval patient ev) {f : Ast} (items : List Ast) {env : Env}
    {result : Ast} (hf : f.Value env.store) (hresult : result.Value env.store)
    (hitems : Ast.Values env.store items) : Safe patient env (reduceFrom ev f result items) := by
  induction items generalizing env result with
  | nil => exact Sound.pure fun _ => hresult
  | cons item rest ih =>
      have hcall : Ast.Oks env.store [f, result, item] :=
        ⟨Ast.Value.ok f hf, Ast.Value.ok result hresult, Ast.Value.ok item hitems.1, trivial⟩
      apply Sound.bind (hev env _ (ok_sexp hcall {}))
      intro next env' _ hle hnext
      exact ih (Ast.Fits.mono hle _ f hf) hnext (Ast.AllFit.mono hle _ rest hitems.2)

theorem safe_reduceImpl (hev : SafeEval patient ev) (hcount : 2 ≤ args.length)
    (hargs : Ast.Values env.store args) : Safe patient env (reduceImpl ev args) := by
  rcases two_args hcount with ⟨f, list, rest, rfl⟩
  unfold reduceImpl
  split
  next heq =>
    cases heq
    split
    next first second more =>
      have helems : Ast.Values env.store (first :: second :: more) := hargs.2.1
      exact safe_reduceFrom hev _ hargs.1 helems.1 helems.2
    · exact keeps_complain _ _
  · exact keeps_complain _ _
  next hother => exact absurd rfl (hother _ _ _)

theorem keeps_listArg {arg : Ast} (harg : arg.Value env.store) :
    Keeps patient env (listArg arg) fun elems env' => Ast.Values env'.store elems := by
  unfold listArg
  split
  · exact Sound.pure fun _ => harg
  · exact keeps_complain _ _

theorem value_getD {store : Store} {elems : List Ast} (helems : Ast.Values store elems) (i : ℕ) :
    Ast.Value store (elems.getD i emptyList) := by
  rw [List.getD_eq_getElem?_getD]
  rcases helem : elems[i]? with _ | elem
  · trivial
  · exact (Ast.allFit_iff elems).mp helems elem (List.mem_of_getElem? helem)

theorem keeps_listArgs (hargs : Ast.Values env.store args) :
    Keeps patient env (collect listArg args) fun lists env' =>
      lists.length = args.length ∧ ∀ l ∈ lists, Ast.Values env'.store l :=
  Sound.collect (d := evalDiscipline patient) (s := env)
    (fun elems env₁ env₂ (hle : env₁.store.Le env₂.store) (h : Ast.Values env₁.store elems) =>
      Ast.AllFit.mono hle _ elems h)
    args fun arg hmem _ _ hle =>
      keeps_listArg (Ast.Fits.mono hle _ arg ((Ast.allFit_iff _).mp hargs arg hmem))

theorem values_mapCall {store : Store} {f : Ast} {lists : List (List Ast)} (hf : f.Value store)
    (hlists : ∀ l ∈ lists, Ast.Values store l) (i : ℕ) :
    Ast.Values store (f :: lists.map fun l => l.getD i emptyList) := by
  refine ⟨hf, (Ast.allFit_iff _).mpr ?_⟩
  intro elem hmem
  rcases List.mem_map.mp hmem with ⟨l, hl, rfl⟩
  exact value_getD (hlists l hl) i

theorem safe_mapImpl (hev : SafeEval patient ev) (hcount : 2 ≤ args.length)
    (hargs : Ast.Values env.store args) : Safe patient env (mapImpl ev args) := by
  rcases two_args hcount with ⟨f, list, more, rfl⟩
  apply Sound.bind (keeps_listArgs hargs.2)
  intro lists env' _ hle hlists
  split
  next => simp at hlists
  next first others =>
    split
    · have hcalls := Sound.collect (d := evalDiscipline patient) (s := env') valueOk_mono
        (List.range first.length) fun i _ env'' _ hle' => by
          have hcall := values_mapCall (Ast.Fits.mono (hle.trans hle') _ f hargs.1)
            (fun l hl => Ast.AllFit.mono hle' _ l (hlists.2 l hl)) i
          exact hev env'' _ (ok_sexp (Ast.Values.oks _ hcall) {})
      apply Sound.bind hcalls
      intro mapped env'' _ _ hmapped
      exact Sound.pure fun _ => (Ast.allFit_iff mapped).mpr hmapped.2
    · exact keeps_fail _

theorem keeps_parseBinding {arg : Ast} (harg : arg.Ok env.store) :
    Keeps patient env (parseBinding arg) fun pair env' =>
      pair.1.Ok env'.store ∧ pair.2.Ok env'.store := by
  unfold parseBinding
  split
  · exact Sound.pure fun _ => ⟨harg.1.1, harg.1.2.1⟩
  · exact keeps_complain _ _

theorem keeps_parseBindings (hargs : Ast.Oks env.store args) :
    Keeps patient env (collect parseBinding args) fun pairs env' =>
      ∀ pair ∈ pairs, pair.1.Ok env'.store ∧ pair.2.Ok env'.store := by
  have hcollect := Sound.collect (d := evalDiscipline patient) (s := env)
    (fun (pair : Ast × Ast) env₁ env₂ (hle : env₁.store.Le env₂.store)
      (h : pair.1.Ok env₁.store ∧ pair.2.Ok env₁.store) =>
      ⟨Ast.Fits.mono hle _ _ h.1, Ast.Fits.mono hle _ _ h.2⟩)
    args fun arg hmem env' _ hle =>
      keeps_parseBinding (Ast.Fits.mono hle _ arg ((Ast.allFit_iff args).mp hargs arg hmem))
  exact Sound.weaken hcollect fun _ _ _ _ h => h.2

theorem keeps_hmapBind (hev : SafeEval patient ev) (pairs : List (Ast × Ast))
    {entries : List (Scalar × Ast)} {env : Env}
    (hpairs : ∀ pair ∈ pairs, pair.1.Ok env.store ∧ pair.2.Ok env.store)
    (hentries : Ast.ValueEntries env.store entries) :
    Keeps patient env (hmapBind ev pairs entries) fun entries' env' =>
      Ast.ValueEntries env'.store entries' := by
  induction pairs generalizing entries env with
  | nil => exact Sound.pure fun _ => hentries
  | cons pair rest ih =>
      have hpair := hpairs pair List.mem_cons_self
      apply Sound.bind (hev env pair.1 hpair.1)
      intro k env₁ _ hle₁ hk
      apply Sound.bind (hev env₁ pair.2 (Ast.Fits.mono hle₁ _ _ hpair.2))
      intro value env₂ _ hle₂ hvalue
      apply Sound.bind (keeps_hashKey (Ast.Fits.mono hle₂ _ k hk) _)
      intro s env₃ _ hle₃ hs
      have hle := (hle₁.trans hle₂).trans hle₃
      apply ih
      · intro other hmem
        have hother := hpairs other (List.mem_cons_of_mem pair hmem)
        exact ⟨Ast.Fits.mono hle _ _ hother.1, Ast.Fits.mono hle _ _ hother.2⟩
      · exact valueEntries_assign (Ast.ValueEntries.mono hle _ hentries) hs
          (Ast.Fits.mono hle₃ _ _ hvalue)

theorem safe_hmapImpl (hev : SafeEval patient ev) (hargs : Ast.Oks env.store args) :
    Safe patient env (hmapImpl ev args) := by
  apply Sound.bind (keeps_parseBindings hargs)
  intro pairs env₁ _ _ hpairs
  have hempty : Ast.ValueEntries env₁.store [] := trivial
  apply Sound.bind (keeps_hmapBind hev pairs hpairs hempty)
  intro entries env₂ _ _ hentries
  exact Sound.pure fun _ => hentries

/-! ### Bindings -/

theorem harmless_argName (env : Env) (arg : Ast) : Harmless patient env (argName arg) := by
  unfold argName
  split
  · exact Sound.pure fun _ => trivial
  · exact keeps_fail _

theorem safe_lambdaImpl (hcount : 2 ≤ args.length) (hargs : Ast.Oks env.store args) :
    Safe patient env (lambdaImpl args) := by
  rcases two_args hcount with ⟨first, second, rest, rfl⟩
  unfold lambdaImpl
  split
  next hnil => cases hnil
  next argNames _ body heq =>
    cases heq
    apply Sound.bind (keeps_collect harmless_argName argNames)
    intro names env' _ hle _
    apply keeps_get
    exact Sound.pure fun hok => ⟨by simp, Ast.AllFit.mono hle _ _ hargs.2, hok.ctx⟩
  · exact keeps_fail _

theorem harmless_observe (moment : Moment) :
    Harmless patient env (Observer.observe moment) := Sound.pure fun _ => trivial

theorem safe_bindNew {name : String} {value : Ast} (hvalue : value.Value env.store) :
    Safe patient env (bindNew name value) := by
  apply keeps_get
  apply Sound.bind (harmless_observe _)
  intro _ env' _ hle _
  split
  · exact keeps_fail _
  · apply Sound.bind (keeps_bindHere (Ast.Fits.mono hle _ _ hvalue))
    intro _ _ _ _ _
    apply Sound.bind (harmless_observe _)
    intro _ _ _ _ _
    exact safe_emptyList

theorem safe_defineImpl (hev : SafeEval patient ev) (hcount : 2 ≤ args.length)
    (hargs : Ast.Oks env.store args) : Safe patient env (defineImpl ev args) := by
  rcases two_args hcount with ⟨first, second, rest, rfl⟩
  unfold defineImpl
  split
  next hnil => cases hnil
  next elems _ body heq =>
    cases heq
    split
    · exact keeps_fail _
    next name argNames =>
      have hlambda : Ast.Oks env.store (.sexp argNames {} :: second :: rest) :=
        ⟨ok_sexp hargs.1.1.2 {}, hargs.2⟩
      apply Sound.bind (safe_lambdaImpl (by simp) hlambda)
      intro value env' _ _ hvalue
      exact safe_bindNew hvalue
    · exact keeps_complain _ _
  next heq =>
    cases heq
    split
    next hnil => cases hnil
    next heq =>
      cases heq
      apply Sound.bind (hev env _ hargs.2.1)
      intro value env' _ _ hvalue
      exact safe_bindNew hvalue
    · exact keeps_fail _
  · exact keeps_complain _ _

theorem keeps_letBindings (hev : SafeEval patient ev) (pairs : List (Ast × Ast)) {env : Env}
    (hpairs : ∀ pair ∈ pairs, pair.1.Ok env.store ∧ pair.2.Ok env.store) :
    Keeps patient env (letBindings ev pairs) fun bound env' => Ast.ValueBinds env'.store bound := by
  induction pairs generalizing env with
  | nil => exact Sound.pure fun _ => trivial
  | cons pair rest ih =>
      rcases pair with ⟨nameExpr, valueExpr⟩
      unfold letBindings
      split
      · apply Sound.bind (hev env valueExpr (hpairs _ List.mem_cons_self).2)
        intro value env₁ _ hle₁ hvalue
        apply Sound.bind (keeps_bindHere hvalue)
        intro _ env₂ _ hle₂ _
        have hle := hle₁.trans hle₂
        have hrest : ∀ pair ∈ rest, pair.1.Ok env₂.store ∧ pair.2.Ok env₂.store := by
          intro other hmem
          have hother := hpairs other (List.mem_cons_of_mem _ hmem)
          exact ⟨Ast.Fits.mono hle _ _ hother.1, Ast.Fits.mono hle _ _ hother.2⟩
        apply Sound.bind (ih hrest)
        intro bound env₃ _ hle₃ hbound
        exact Sound.pure fun _ => ⟨Ast.Fits.mono (hle₂.trans hle₃) _ value hvalue, hbound⟩
      · exact keeps_complain _ _

theorem keeps_letFrame (hev : SafeEval patient ev) {pairs : List (Ast × Ast)}
    (hpairs : ∀ pair ∈ pairs, pair.1.Ok env.store ∧ pair.2.Ok env.store) :
    Keeps patient env (inCtx ([] :: env.ctx) (letBindings ev pairs))
      fun bound env' => Ast.ValueBinds env'.store bound := by
  apply keeps_inCtx
  · intro hok
    exact ⟨trivial, hok.ctx⟩
  · exact keeps_letBindings hev pairs hpairs
  · intro _ _ _ h
    exact h

theorem values_letCall {store : Store} {body : List Ast} {bound : List (String × Ast)} {ctx : Ctx}
    (hbody : Ast.Oks store body) (hctx : Ast.ValueCtx store ctx)
    (hbound : Ast.ValueBinds store bound) :
    Ast.Values store (.lambda (bound.map Prod.fst)
      (if body.isEmpty then [emptyList] else body) ctx :: bound.map Prod.snd) := by
  have hfilled : (if body.isEmpty then [emptyList] else body) ≠ [] ∧
      Ast.Oks store (if body.isEmpty then [emptyList] else body) := by
    cases body with
    | nil => exact ⟨by simp, trivial, trivial⟩
    | cons stmt rest => exact ⟨by simp, hbody⟩
  have hvalues : Ast.Values store (bound.map Prod.snd) := by
    refine (Ast.allFit_iff _).mpr ?_
    intro value hmem
    rcases List.mem_map.mp hmem with ⟨bind, hbind, rfl⟩
    exact (Ast.valueBinds_iff bound).mp hbound bind hbind
  exact ⟨⟨hfilled.1, hfilled.2, hctx⟩, hvalues⟩

theorem safe_letImpl (hev : SafeEval patient ev) (hcount : 1 ≤ args.length)
    (hargs : Ast.Oks env.store args) : Safe patient env (letImpl ev args) := by
  unfold letImpl
  split
  next => simp at hcount
  next bindings _ body =>
    apply Sound.bind (keeps_parseBindings hargs.1.1)
    intro pairs env₁ hok₁ hle₁ hpairs
    apply keeps_get
    apply Sound.bind (keeps_letFrame hev hpairs)
    intro bound env₂ _ hle₂ hbound
    have hcall := values_letCall (Ast.AllFit.mono (hle₁.trans hle₂) _ body hargs.2)
      (Ast.ValueCtx.mono hle₂ env₁.ctx hok₁.ctx) hbound
    exact hev env₂ _ (ok_sexp (Ast.Values.oks _ hcall) {})
  · exact keeps_fail _

/-! ### Modules -/

theorem keeps_moduleBody (hev : SafeEval patient ev) {body : List Ast}
    (hbody : Ast.Oks env.store body) :
    Keeps patient env (inCtx [[], []] do
      let results ← collect ev body
      let env ← get
      pure (results, env.ctx)) fun result env' =>
        Ast.Values env'.store result.1 ∧ Ast.ValueCtx env'.store result.2 := by
  apply keeps_inCtx
  · intro _
    exact ⟨trivial, trivial, trivial⟩
  · have hresults : Keeps patient { env with ctx := [[], []] } (collect ev body)
        fun values env' => values.length = body.length ∧ Ast.Values env'.store values :=
      values_collect hev hbody
    apply Sound.bind hresults
    intro results env' _ _ hresults
    apply keeps_get
    exact Sound.pure fun hok => ⟨hresults.2, hok.ctx⟩
  · intro _ _ _ h
    exact h

theorem harmless_bindExport {name : String} {value : Ast} (hvalue : value.Value env.store) :
    Harmless patient env (bindExport name value) := by
  apply keeps_get
  apply Sound.bind (keeps_bindHere hvalue)
  intro _ _ _ _ _
  exact harmless_observe _

theorem safe_exports (rt : Runtime) (name : String) {results : List Ast} {ctx : Ctx}
    (hresults : Ast.Values env.store results) (hctx : Ast.ValueCtx env.store ctx) :
    Safe patient env (do
      forEach (fun bind => bindExport (name ++ "." ++ bind.1) bind.2)
        ((ctx.headD []).filter fun bind => shouldExport rt bind.1)
      pure (.moduleNode name results)) := by
  have hexports : Harmless patient env
      (forEach (fun bind => bindExport (name ++ "." ++ bind.1) bind.2)
        ((ctx.headD []).filter fun bind => shouldExport rt bind.1)) := by
    apply Sound.weaken (Sound.forEach (fun _ _ _ _ _ => trivial) _ ?_)
    · intro _ _ _ _ _
      trivial
    · intro bind hmem env' _ hle
      have hvalue := (Ast.valueBinds_iff _).mp (valueBinds_head hctx) bind
        (List.mem_of_mem_filter hmem)
      exact harmless_bindExport (Ast.Fits.mono hle _ _ hvalue)
  apply Sound.bind hexports
  intro _ env' _ hle _
  exact Sound.pure fun _ => Ast.AllFit.mono hle _ results hresults

theorem safe_evalModule (rt : Runtime) (hev : SafeEval patient ev) (name : String)
    {body : List Ast} (hbody : Ast.Oks env.store body) :
    Safe patient env (evalModule rt ev name body) := by
  apply Sound.bind (keeps_moduleBody hev hbody)
  rintro ⟨results, ctx⟩ env' _ _ ⟨hresults, hctx⟩
  exact safe_exports rt name hresults hctx

theorem safe_moduleImpl (rt : Runtime) (hev : SafeEval patient ev) (hcount : 2 ≤ args.length)
    (hargs : Ast.Oks env.store args) : Safe patient env (moduleImpl rt ev args) := by
  rcases two_args hcount with ⟨nameExpr, first, body, rfl⟩
  apply Sound.bind (hev env nameExpr hargs.1)
  intro value env' _ hle _
  split
  · exact safe_evalModule rt hev _ (Ast.AllFit.mono hle _ _ hargs.2)
  · exact keeps_complain _ _

end Control

end Lang
end Di
