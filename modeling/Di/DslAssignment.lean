import Di.DslCongruence
import Di.DslCompiled

/-!
# Definitions that are assigned once

`define` binds a name in the current context after it has checked that the context does not
bind it.  A module that has been evaluated binds its exported names in the context it was
evaluated in, without a check.

An observer of the evaluation is told whenever a definition is attempted, whenever it has
succeeded and whenever a module has exported a name.  A program passes through such a moment
if its evaluation depends on what an observer does there.
-/

namespace Di
namespace Lang

open Procedure

/-- The context already binds the name to another value. -/
def Assignment.Rebinds (a : Assignment) : Prop :=
  ∃ old, (a.ctx.headD []).lookup a.name = some old ∧ old ≠ a.value

/-- The observer does nothing at other moments. -/
def Observer.Only (o : Observer) (moment : Moment) : Prop :=
  ∀ other, other ≠ moment → o.observe other = pure ()

/-- The evaluation of the program depends on what an observer does at this moment. -/
def Passes (rt : Runtime) (fuel : ℕ) (program : List Ast) (moment : Moment) : Prop :=
  ∃ o : Observer, o.Only moment ∧
    @evalProgram o rt fuel program ≠ @evalProgram unobserved rt fuel program

/-! ## What each binding does -/

theorem bindNew_bound {name : String} {value old : Ast} {env : Env}
    (hbound : (env.ctx.headD []).lookup name = some old) :
    bindNew name value env =
      ⟨.error (.plain ("attempt to redefine: \"" ++ name ++ "\"")), env, []⟩ := by
  have hsome : ((env.ctx.headD []).lookup name).isSome = true := by
    rw [hbound]
    rfl
  change ((get : EvalM Env) >>= fun env => if ((env.ctx.headD []).lookup name).isSome then _ else _)
    env = _
  rw [get_bind, if_pos hsome]
  rfl

section Bindings

variable {o : Observer} {name : String} {value : Ast} {env : Env}

theorem bindNew_skip (hdefining : o.observe (.defining ⟨env.ctx, name, value⟩) = pure ())
    (hdefined : o.observe (.defined ⟨env.ctx, name, value⟩) = pure ()) :
    @bindNew o name value env = @bindNew unobserved name value env := by
  unfold bindNew
  rw [get_bind, get_bind, hdefining, hdefined]
  rfl

theorem bindNew_refused {old : Ast} (hbound : (env.ctx.headD []).lookup name = some old)
    (hdefining : o.observe (.defining ⟨env.ctx, name, value⟩) = pure ()) :
    @bindNew o name value env = @bindNew unobserved name value env := by
  have hsome : ((env.ctx.headD []).lookup name).isSome = true := by
    rw [hbound]
    rfl
  unfold bindNew
  rw [get_bind, get_bind, hdefining, if_pos hsome, if_pos hsome]
  rfl

theorem bindExport_skip (hexported : o.observe (.exported ⟨env.ctx, name, value⟩) = pure ()) :
    @bindExport o name value env = @bindExport unobserved name value env := by
  unfold bindExport
  rw [get_bind, get_bind, hexported]
  rfl

end Bindings

/-! ## Programs -/

section Programs

variable {rt : Runtime} {fuel : ℕ} {program : List Ast} {a : Assignment}

theorem not_passes_defined (ha : a.Rebinds) : ¬Passes rt fuel program (.defined a) := by
  rintro ⟨o, honly, hdiffers⟩
  have ho : o.Related (fun {_} m n => m = n) unobserved := {
    congruence := congruence_eq
    bindNew := by
      intro name value
      funext env
      have hdefining : o.observe (.defining ⟨env.ctx, name, value⟩) = pure () := honly _ (by simp)
      by_cases hbound : ∃ old, (env.ctx.headD []).lookup name = some old
      · exact bindNew_refused hbound.choose_spec hdefining
      · apply bindNew_skip hdefining
        apply honly
        rintro ⟨⟩
        exact hbound (ha.imp fun _ hold => hold.1)
    bindExport := fun _ _ => funext fun _ => bindExport_skip (honly _ (by simp)) }
  exact hdiffers (congrFun (congr_program ho rt fuel program) Env.initial)

theorem error_of_passes_defining (ha : a.Rebinds) (hpasses : Passes rt fuel program (.defining a)) :
    ∃ err, (evalProgram rt fuel program).outcome = .error err := by
  rcases hpasses with ⟨o, honly, hdiffers⟩
  have ho : o.Related SameUnlessError unobserved := {
    congruence := congruence_sameUnlessError
    bindNew := by
      intro name value env
      have hdefined : o.observe (.defined ⟨env.ctx, name, value⟩) = pure () := honly _ (by simp)
      by_cases hmoment : (⟨env.ctx, name, value⟩ : Assignment) = a
      · subst hmoment
        rcases ha with ⟨old, hold, _⟩
        exact .inr ⟨_, congrArg Ran.outcome (bindNew_bound hold)⟩
      · refine .inl (bindNew_skip (honly _ ?_) hdefined)
        simpa using hmoment
    bindExport := fun _ _ _ => .inl (bindExport_skip (honly _ (by simp))) }
  exact (congr_program ho rt fuel program Env.initial).resolve_left hdiffers

end Programs

/-- No name is bound by a definition or an export in a context that binds it to another value,
and an attempt to define such a name ends the evaluation with an error. -/
structure SingleAssignment (rt : Runtime) (fuel : ℕ) (program : List Ast) : Prop where
  defined : ∀ a : Assignment, a.Rebinds → ¬Passes rt fuel program (.defined a)
  exported : ∀ a : Assignment, a.Rebinds → ¬Passes rt fuel program (.exported a)
  refused : ∀ a : Assignment, a.Rebinds → Passes rt fuel program (.defining a) →
    ∃ err, (evalProgram rt fuel program).outcome = .error err

/-- A program is evaluated with single assignment if and only if no module exports a name that
the context of the module already binds to another value. -/
theorem singleAssignment_iff (rt : Runtime) (fuel : ℕ) (program : List Ast) :
    SingleAssignment rt fuel program ↔
      ∀ a : Assignment, a.Rebinds → ¬Passes rt fuel program (.exported a) := by
  constructor
  · exact fun hsingle => hsingle.exported
  · intro hexported
    exact ⟨fun _ => not_passes_defined, hexported, fun _ => error_of_passes_defining⟩

/-- A module `A` that exports a number. -/
def numberModule (x : ℤ) : Ast :=
  .sexp [.ident "module", .str "A", .sexp [.ident "define", .ident "X", .int x] {}] {}

def noteSecondExport : Moment → EvalM Unit
  | .exported ⟨[[("A.X", .int 1)]], "A.X", .int 2⟩ => emit .sighted
  | _ => pure ()

theorem noteSecondExport_only : Observer.Only ⟨noteSecondExport⟩
    (.exported ⟨[[("A.X", .int 1)]], "A.X", .int 2⟩) := by
  intro other hother
  change noteSecondExport other = pure ()
  unfold noteSecondExport
  split
  · exact absurd rfl hother
  · rfl

theorem numberModule_rebound :
    (evalProgram plainRuntime 4 [numberModule 1]).final.ctx = [[("A.X", .int 1)]] ∧
    (evalProgram plainRuntime 4 [numberModule 1, numberModule 2]).outcome =
      .ok [.moduleNode "A" [emptyList], .moduleNode "A" [emptyList]] ∧
    (evalProgram plainRuntime 4 [numberModule 1, numberModule 2]).final.ctx =
      [[("A.X", .int 2)]] ∧
    ¬SingleAssignment plainRuntime 4 [numberModule 1, numberModule 2] := by
  refine ⟨rfl, rfl, rfl, ?_⟩
  intro hsingle
  refine hsingle.exported ⟨[[("A.X", .int 1)]], "A.X", .int 2⟩ ⟨.int 1, rfl, by simp⟩ ?_
  refine ⟨⟨noteSecondExport⟩, noteSecondExport_only, ?_⟩
  intro hsame
  have htrace := congrArg (fun ran => ran.trace.length) hsame
  revert htrace
  decide +kernel

end Lang
end Di
