import Di.DslControl

/-!
# The evaluator respects the discipline

By induction on the fuel, every evaluation keeps the environment consistent.
What a specification declares is therefore consistent, and every placement
statement that was executed binds all containers that carry one of its labels.
-/

namespace Di
namespace Lang

open Procedure

/-! ## The table -/

/-- An entry of the table respects the discipline.  Of the functions themselves, only the loop
of `range` can run out of fuel. -/
structure FuncImpl.Disciplined (patient : Prop) (entry : String × FuncImpl) : Prop where
  lazy : entry.2.lazy = true → ∀ (env : Env) (args : List Ast),
    entry.2.minArgs ≤ args.length → Ast.Oks env.store args → Safe patient env (entry.2.run args)
  eager : entry.2.lazy = false → (entry.1 = "range" → patient) → ∀ (env : Env) (args : List Ast),
    entry.2.minArgs ≤ args.length → Ast.Values env.store args →
      Safe patient env (emit (.called entry.1 args) >>= fun _ => entry.2.run args)

theorem disciplined_lazy {patient : Prop} {name : String} {run : List Ast → EvalM Ast} {count : ℕ}
    (hrun : ∀ (env : Env) (args : List Ast), count ≤ args.length →
      Ast.Oks env.store args → Safe patient env (run args)) :
    FuncImpl.Disciplined patient (name, ⟨run, count, true⟩) := by
  constructor
  · exact fun _ => hrun
  · intro heager
    cases heager

theorem disciplined_trustful {patient : Prop} {name : String} {run : List Ast → EvalM Ast}
    {count : ℕ}
    (hrun : ∀ (env : Env) (args : List Ast), count ≤ args.length → Ast.Values env.store args →
      Safe patient env (emit (.called name args) >>= fun _ => run args)) :
    FuncImpl.Disciplined patient (name, ⟨run, count, false⟩) := by
  constructor
  · intro hlazy
    cases hlazy
  · exact fun _ _ => hrun

theorem disciplined_eager {patient : Prop} {name : String} {run : List Ast → EvalM Ast} {count : ℕ}
    (hname : name ∉ "range" :: trustful)
    (hrun : ∀ (env : Env) (args : List Ast), count ≤ args.length →
      Ast.Values env.store args → Safe patient env (run args)) :
    FuncImpl.Disciplined patient (name, ⟨run, count, false⟩) := by
  apply disciplined_trustful
  intro env args hcount hargs
  rw [List.mem_cons, not_or] at hname
  have hendless : Event.endless (.called name args) = false := by simp [Event.endless, hname.1]
  apply Sound.bind (keeps_emit (.called name args) (fatalCall_of_not_mem hname.2 args) hendless
    fun _ => trivial)
  rintro _ env' _ _ rfl
  exact hrun env' args hcount hargs

theorem disciplined_funcImplMap {patient : Prop} (rt : Runtime) (fuel : ℕ) {ev : Ast → EvalM Ast}
    (hev : SafeEval patient ev) :
    ∀ entry ∈ funcImplMap rt fuel ev, FuncImpl.Disciplined patient entry := by
  unfold funcImplMap
  simp only [List.forall_mem_cons, List.not_mem_nil, false_implies, implies_true, and_true]
  exact ⟨
    disciplined_eager (by decide) fun _ _ hcount hargs => safe_notImpl hev hcount hargs,
    disciplined_trustful fun _ _ hcount _ => safe_divideBy (.inr rfl) hcount,
    disciplined_eager (by decide) fun _ _ hcount _ => safe_totalArith hcount,
    disciplined_eager (by decide) fun _ _ hcount _ => safe_plusImpl hcount,
    disciplined_eager (by decide) fun _ _ hcount _ => safe_totalArith hcount,
    disciplined_trustful fun _ _ hcount _ => safe_divideBy (.inl rfl) hcount,
    disciplined_eager (by decide) fun _ _ hcount _ => safe_compareFun _ hcount,
    disciplined_eager (by decide) fun _ _ hcount _ => safe_eqImpl hcount,
    disciplined_eager (by decide) fun _ _ hcount _ => safe_compareFun _ hcount,
    disciplined_lazy fun _ args _ hargs => safe_andImpl hev args hargs,
    disciplined_eager (by decide) fun _ _ hcount hargs => safe_applyImpl hev hcount hargs,
    disciplined_eager (by decide) fun _ _ hcount _ => safe_boolImpl hcount,
    disciplined_eager (by decide) fun _ _ hcount hargs => safe_carImpl hcount hargs,
    disciplined_eager (by decide) fun _ _ hcount hargs => safe_cdrImpl hcount hargs,
    disciplined_eager (by decide) fun _ _ hcount hargs => safe_connectImpl hcount hargs,
    disciplined_eager (by decide) fun _ _ hcount hargs => safe_consImpl hcount hargs,
    disciplined_eager (by decide) fun _ _ hcount _ => safe_rangeTypeImpl _ hcount,
    disciplined_lazy fun _ _ hcount hargs => safe_defineImpl hev hcount hargs,
    disciplined_eager (by decide) fun _ _ hcount _ => safe_diskSizeImpl hcount,
    disciplined_trustful fun _ _ _ _ => safe_dockerImpl,
    disciplined_eager (by decide) fun _ _ hcount _ => safe_githubKeyImpl hcount,
    disciplined_lazy fun _ _ _ hargs => safe_hmapImpl hev hargs,
    disciplined_eager (by decide) fun _ _ hcount hargs => safe_hmapGetImpl hcount hargs,
    disciplined_eager (by decide) fun _ _ hcount hargs => safe_hmapContainsImpl hcount hargs,
    disciplined_eager (by decide) fun _ _ hcount hargs => safe_hmapSetImpl hcount hargs,
    disciplined_eager (by decide) fun _ _ hcount hargs => safe_hmapKeysImpl rt hcount hargs,
    disciplined_eager (by decide) fun _ _ hcount hargs => safe_hmapValuesImpl rt hcount hargs,
    disciplined_lazy fun _ _ hcount hargs => safe_ifImpl hev hcount hargs,
    disciplined_lazy fun _ _ _ _ => keeps_fail _,
    disciplined_eager (by decide) fun _ _ hcount hargs => safe_labelImpl (by omega) hargs,
    disciplined_eager (by decide) fun _ _ hcount _ => safe_labelNameImpl hcount,
    disciplined_eager (by decide) fun _ _ hcount _ => safe_labelHostImpl hcount,
    disciplined_lazy fun _ _ hcount hargs => safe_lambdaImpl hcount hargs,
    disciplined_lazy fun _ _ hcount hargs => safe_letImpl hev hcount hargs,
    disciplined_eager (by decide) fun _ _ hcount _ => safe_lenImpl hcount,
    disciplined_eager (by decide) fun _ _ hcount _ => safe_logImpl hcount,
    disciplined_eager (by decide) fun _ _ _ hargs => safe_listImpl hargs,
    disciplined_eager (by decide) fun _ _ _ _ => safe_machineImpl,
    disciplined_eager (by decide) fun _ _ hcount hargs =>
      safe_machineAttributeImpl (by omega) hargs,
    disciplined_lazy fun _ _ hcount hargs => safe_makeListImpl hev hcount hargs,
    disciplined_eager (by decide) fun _ _ hcount hargs => safe_mapImpl hev hcount hargs,
    disciplined_lazy fun _ _ hcount hargs => safe_moduleImpl rt hev hcount hargs,
    disciplined_eager (by decide) fun _ _ hcount hargs => safe_nthImpl hcount hargs,
    disciplined_lazy fun _ args _ hargs => safe_orImpl hev args hargs,
    disciplined_eager (by decide) fun _ _ hcount hargs => safe_placementImpl (by omega) hargs,
    disciplined_eager (by decide) fun _ _ hcount _ => safe_plaintextKeyImpl hcount,
    disciplined_trustful fun _ _ hcount _ => safe_panicImpl hcount,
    disciplined_eager (by decide) fun _ _ hcount hargs => safe_prognImpl hcount hargs,
    disciplined_trustful fun _ _ _ _ => safe_assertString (.inl rfl) fun _ _ => trivial,
    disciplined_eager (by decide) fun _ _ hcount hargs => safe_reduceImpl hev hcount hargs,
    disciplined_eager (by decide) fun _ _ hcount _ => safe_regionImpl hcount,
    disciplined_eager (by decide) fun _ _ hcount _ => safe_rangeTypeImpl _ hcount,
    ⟨nofun, fun _ hpatient _ _ _ _ => safe_rangeImpl (hpatient rfl) fuel⟩,
    disciplined_eager (by decide) fun _ _ hcount _ => safe_roleImpl hcount,
    disciplined_eager (by decide) fun _ _ hcount _ => safe_setEnvImpl hcount,
    disciplined_trustful fun _ _ _ _ => safe_assertString (.inr rfl) fun _ _ => trivial,
    disciplined_eager (by decide) fun _ _ hcount _ => safe_sprintfImpl rt hcount⟩

theorem exists_impl [Observer] {name : String} (hname : name ∈ builtinNames) (rt : Runtime)
    (fuel : ℕ) (ev : Ast → EvalM Ast) :
    ∃ impl, (funcImplMap rt fuel ev).lookup name = some impl := by
  rw [← map_fst_funcImplMap rt fuel ev] at hname
  cases hlookup : (funcImplMap rt fuel ev).lookup name with
  | some impl => exact ⟨impl, rfl⟩
  | none =>
      rw [List.lookup_eq_none_iff] at hlookup
      rcases List.mem_map.mp hname with ⟨entry, hentry, rfl⟩
      exact absurd (hlookup entry hentry) (by simp)

theorem mem_builtinNames [Observer] {name : String} {rt : Runtime} {fuel : ℕ}
    {ev : Ast → EvalM Ast}
    (hbuiltin : isBuiltin rt fuel ev name = true) : name ∈ builtinNames := by
  rcases Option.isSome_iff_exists.mp hbuiltin with ⟨impl, himpl⟩
  rw [← map_fst_funcImplMap rt fuel ev]
  exact List.mem_map.mpr ⟨_, mem_of_lookup himpl, rfl⟩

theorem isBuiltin_iff [Observer] (rt : Runtime) (fuel : ℕ) (ev : Ast → EvalM Ast)
    (name : String) : isBuiltin rt fuel ev name = true ↔ name ∈ builtinNames :=
  ⟨mem_builtinNames, fun hname => Option.isSome_iff_exists.mpr (exists_impl hname rt fuel ev)⟩

/-! ## The evaluator -/

section Eval

variable {patient : Prop} {env : Env} {ev : Ast → EvalM Ast}

theorem valueBinds_bindArgs {store : Store} (names : List String) (values : List Ast)
    {binds : Binds} (hvalues : Ast.Values store values) (hbinds : Ast.ValueBinds store binds) :
    Ast.ValueBinds store (bindArgs names values binds) := by
  induction names generalizing values binds with
  | nil => exact hbinds
  | cons name names ih =>
      cases values with
      | nil => exact hbinds
      | cons value values => exact ih values hvalues.2 (valueBinds_assign hbinds hvalues.1)

theorem safe_evalLambda (hev : SafeEval patient ev) (argNames : List String) {body : List Ast}
    {ctx : Ctx} {args : List Ast} (hbody : body ≠ [] ∧ Ast.Oks env.store body)
    (hctx : Ast.ValueCtx env.store ctx) (hargs : Ast.Values env.store args) :
    Safe patient env (evalLambda ev argNames body ctx args) := by
  unfold evalLambda
  split
  · exact keeps_readStore (keeps_fail _)
  · apply keeps_inCtx (fun _ => hctx) _ fun _ _ _ h => h
    have hvalues : Keeps patient { env with ctx := ctx } (collect ev args)
        fun values env' => values.length = args.length ∧ Ast.Values env'.store values :=
      values_collect hev (Ast.Values.oks args hargs)
    apply Sound.bind hvalues
    intro values env₁ hok₁ hle₁ hvalues
    apply keeps_get
    have hresults : Keeps patient env₁
        (inCtx (bindArgs argNames values [] :: env₁.ctx) (calling (collect ev body)))
        fun results env' => results.length = body.length ∧ Ast.Values env'.store results := by
      apply keeps_inCtx
      · intro hok
        have hempty : Ast.ValueBinds env₁.store [] := trivial
        exact ⟨valueBinds_bindArgs argNames values hvalues.2 hempty, hok.ctx⟩
      · apply keeps_calling
        · exact values_collect hev (Ast.AllFit.mono hle₁ _ body hbody.2)
        · intro _ _ _ h
          exact h
      · intro _ _ _ h
        exact h
    apply Sound.bind hresults
    intro results env₂ _ _ hresults
    split
    next value hvalue =>
      exact Sound.pure fun _ =>
        (Ast.allFit_iff results).mp hresults.2 value (List.mem_of_getLast? hvalue)
    next hnone =>
      rw [List.getLast?_eq_none_iff] at hnone
      rw [hnone] at hresults
      exact absurd (List.length_eq_zero_iff.mp hresults.1.symm) hbody.1

theorem safe_callBuiltin (hpatient : patient) (hev : SafeEval patient ev) {name : String}
    {impl : FuncImpl}     (himpl : FuncImpl.Disciplined patient (name, impl)) {args : List Ast}
    (hcount : impl.minArgs ≤ args.length) (hargs : Ast.Oks env.store args) :
    Safe patient env (callBuiltin ev name impl args) := by
  unfold callBuiltin
  split
  next hlazy => exact himpl.lazy hlazy env args hcount hargs
  next heager =>
    apply Sound.bind (values_collect hev hargs)
    intro values env' _ _ hvalues
    have hcount' : impl.minArgs ≤ values.length := by
      rw [hvalues.1]
      exact hcount
    exact himpl.eager (by simpa using heager) (fun _ => hpatient) env' values hcount' hvalues.2

theorem safe_callLambda (hev : SafeEval patient ev) (argNames : List String) {body : List Ast}
    {ctx : Ctx} {args : List Ast} (hbody : body ≠ [] ∧ Ast.Oks env.store body)
    (hctx : Ast.ValueCtx env.store ctx) (hargs : Ast.Oks env.store args) :
    Safe patient env (callLambda ev argNames body ctx args) := by
  apply Sound.bind (values_collect hev hargs)
  intro values env' _ hle hvalues
  exact safe_evalLambda hev argNames ⟨hbody.1, Ast.AllFit.mono hle _ body hbody.2⟩
    (Ast.ValueCtx.mono hle ctx hctx) hvalues.2

theorem safe_applyHead (hpatient : patient) (rt : Runtime) (fuel : ℕ)
    (hev : SafeEval patient ev) (pos : Position) {args : List Ast} {first : Ast}
    (hfirst : first.Value env.store) (hargs : Ast.Oks env.store args) :
    Safe patient env (applyHead rt fuel ev pos args first) := by
  unfold applyHead
  split
  next name =>
    rcases exists_impl (hfirst rfl) rt fuel ev with ⟨impl, himpl⟩
    rw [himpl]
    dsimp only
    split
    · exact Sound.throw
    next hcount =>
      exact Sound.mapError (safe_callBuiltin hpatient hev
        (disciplined_funcImplMap rt fuel hev _ (mem_of_lookup himpl)) (not_lt.mp hcount) hargs)
  · exact Sound.mapError (safe_callLambda hev _ ⟨hfirst.1, hfirst.2.1⟩ hfirst.2.2 hargs)
  · exact Sound.mapError (keeps_complain _ _)

theorem safe_evalSexp (hpatient : patient) (rt : Runtime) (fuel : ℕ)
    (hev : SafeEval patient ev) {elems : List Ast} (pos : Position)
    (helems : Ast.Oks env.store elems) :
    Safe patient env (evalSexp rt fuel ev elems pos) := by
  unfold evalSexp
  split
  · exact Sound.throw
  next head args =>
    apply Sound.bind (Sound.mapError (hev env head helems.1))
    intro first env' _ hle hfirst
    exact safe_applyHead hpatient rt fuel hev pos hfirst (Ast.AllFit.mono hle _ args helems.2)

theorem safe_evalIdent (rt : Runtime) (fuel : ℕ) (name : String) :
    Safe patient env (evalIdent rt fuel ev name) := by
  unfold evalIdent
  split
  next hbuiltin => exact Sound.pure fun _ _ => mem_builtinNames hbuiltin
  · apply keeps_get
    split
    next value hvalue => exact Sound.pure fun hok => value_of_find hok.ctx hvalue
    · exact keeps_fail _

theorem safe_evalStep (hpatient : patient) (rt : Runtime) (fuel : ℕ) (hev : SafeEval patient ev) :
    SafeEval patient (evalStep rt fuel ev) := by
  intro env expr hexpr
  cases expr with
  | sexp elems pos => exact safe_evalSexp hpatient rt fuel hev pos hexpr.1
  | list isNil elems =>
      have helems : Ast.Oks env.store elems := hexpr
      apply Sound.bind (values_collect hev helems)
      intro values env' _ _ hvalues
      exact Sound.pure fun _ => hvalues.2
  | moduleNode name body => exact safe_evalModule rt hev name hexpr
  | hmap entries => exact Sound.pure fun _ => hexpr
  | lambda argNames body ctx => exact Sound.pure fun _ => hexpr
  | label l => exact Sound.pure fun _ => hexpr
  | scalar value =>
      cases value with
      | ident name => exact safe_evalIdent rt fuel name
      | _ => exact Sound.pure fun _ => hexpr

theorem safe_eval (rt : Runtime) (fuel : ℕ) : SafeEval True (eval rt fuel) := by
  induction fuel with
  | zero => exact fun _ _ _ => Sound.outOfFuel trivial
  | succ fuel ih => exact safe_evalStep trivial rt fuel ih

end Eval

/-! ## Programs -/

mutual

/-- What the parser produces: no values that only evaluation creates. -/
def Ast.source : Ast → Bool
  | .sexp elems _ => Ast.sources elems
  | .moduleNode _ body => Ast.sources body
  | .ident _ | .str _ | .float _ | .int _ | .bool _ => true
  | _ => false

def Ast.sources : List Ast → Bool
  | [] => true
  | elem :: rest => elem.source && Ast.sources rest

end

mutual

theorem ok_of_source (store : Store) : ∀ expr : Ast, expr.source = true → expr.Ok store
  | .sexp elems pos, h => ok_sexp (oks_of_sources store elems h) pos
  | .moduleNode _ body, h => oks_of_sources store body h
  | .ident _, _ => fun hform => by cases hform
  | .str _, _ | .float _, _ | .int _, _ | .bool _, _ => trivial

theorem oks_of_sources (store : Store) :
    ∀ elems : List Ast, Ast.sources elems = true → Ast.Oks store elems
  | [], _ => trivial
  | elem :: rest, h =>
      have hboth := Bool.and_eq_true_iff.mp h
      ⟨ok_of_source store elem hboth.1, oks_of_sources store rest hboth.2⟩

end

/-- Whatever the outcome of evaluating a program, the store it leaves and every
store it went through are consistent, and every exclusive placement statement
it executed is enforced. -/
theorem evalProgram_sound (rt : Runtime) (fuel : ℕ) {program : List Ast}
    (hprogram : Ast.sources program = true) :
    (evalProgram rt fuel program).final.store.Consistent ∧
      ∀ event ∈ (evalProgram rt fuel program).trace,
        event.Holds (evalProgram rt fuel program).final.store := by
  have hsound := values_collect (safe_eval rt fuel)
    (oks_of_sources Env.initial.store program hprogram) Env.ok_initial
  exact ⟨hsound.inv.consistent, hsound.trace⟩

end Lang
end Di
