import Di.DslCompiled

/-!
# Specifications that crash the process

`New` panics in two places.  Import resolution indexes into an `import` without
arguments, and evaluation calls a function that trusts its arguments or hashes a
value that has no hash.  The trees that import resolution looks at and the events
of the evaluation say exactly when.
-/

namespace Di
namespace Lang

open Procedure GoScanner

/-! ## Import resolution -/

def bareImport : Ast → Bool
  | .sexp [.ident name] _ => name = "import"
  | _ => false

theorem parseImport_eq_panic {tree : Ast} :
    parseImport tree = .panic ↔ bareImport tree = true := by
  unfold parseImport bareImport
  split
  next name args pos =>
    cases args with
    | nil => by_cases hname : name = "import" <;> simp [hname]
    | cons arg rest =>
        by_cases hname : name = "import"
        · rw [if_pos hname]
          split
          next hargs => cases hargs
          · simp
          · simp
        · simp [hname]
  next hother =>
    split
    next name pos => exact absurd rfl (hother name [] pos)
    · simp

/-- The trees of a module that the loop of `resolveImportsRec` looks at, and those of the
modules it opens on the way. -/
def inspectedTrees (u : Unicode) (files : Files) (paths imported : List String)
    (resolve : List String → List Ast → Outcome DslError (List Ast))
    (inspect : List String → List Ast → List Ast) : Bool → List Ast → List Ast
  | _, [] => []
  | top, tree :: rest =>
      tree :: match parseImport tree with
        | .ok name =>
            if name = "" then inspectedTrees u files paths imported resolve inspect false rest
            else if top = false ∨ name ∈ imported then []
            else match openImport files name paths with
              | none => []
              | some (modulePath, text) =>
                  match parse u modulePath text with
                  | .error _ => []
                  | .ok parsed =>
                      inspect (imported ++ [name]) parsed ++
                        match resolve (imported ++ [name]) parsed with
                        | .ok _ => inspectedTrees u files paths imported resolve inspect top rest
                        | _ => []
        | _ => []

def inspectedRec (u : Unicode) (files : Files) (paths : List String) :
    ℕ → List String → List Ast → List Ast
  | 0, _, _ => []
  | fuel + 1, imported, trees =>
      inspectedTrees u files paths imported (resolveImportsRec u files paths fuel)
        (inspectedRec u files paths fuel) true trees

def inspected (u : Unicode) (files : Files) (fuel : ℕ) (spec : Spec) : List Ast :=
  match parse u spec.filename spec.text with
  | .ok parsed => inspectedRec u files spec.paths fuel [] parsed
  | .error _ => []

section Imports

variable {u : Unicode} {files : Files} {paths imported : List String}

theorem resolveImport_eq_panic
    {resolve : List String → List Ast → Outcome DslError (List Ast)}
    {inspect : List String → List Ast → List Ast}
    (hresolve : ∀ names trees, resolve names trees = .panic ↔
      ∃ tree ∈ inspect names trees, bareImport tree = true)
    {resolved : Outcome DslError (List Ast)} {seen : List Ast}
    (hrest : resolved = .panic ↔ ∃ tree ∈ seen, bareImport tree = true) (name : String) :
    (match openImport files name paths with
      | none => .error (.plain ("unable to open import " ++ name))
      | some (modulePath, text) => do
          let parsed ← liftParse (parse u modulePath text)
          let body ← resolve (imported ++ [name]) parsed
          let more ← resolved
          pure (.moduleNode name body :: more)) = Outcome.panic ↔
      ∃ tree ∈ (match openImport files name paths with
        | none => []
        | some (modulePath, text) =>
            match parse u modulePath text with
            | .error _ => []
            | .ok parsed =>
                inspect (imported ++ [name]) parsed ++
                  match resolve (imported ++ [name]) parsed with
                  | .ok _ => seen
                  | _ => []), bareImport tree = true := by
  rcases openImport files name paths with _ | ⟨modulePath, text⟩
  · simp
  · dsimp only
    rcases hparse : parse u modulePath text with err | parsed
    · rw [Outcome.bind_eq_panic]
      simp [liftParse]
    · rw [Outcome.bind_eq_panic]
      simp only [liftParse, reduceCtorEq, Outcome.ok.injEq, false_or, exists_eq_left',
        List.mem_append, or_and_right, exists_or]
      rw [Outcome.bind_eq_panic, hresolve]
      apply or_congr_right
      cases hbody : resolve (imported ++ [name]) parsed with
      | ok body =>
          simp only [Outcome.ok.injEq, exists_eq_left']
          rw [Outcome.bind_eq_panic, hrest]
          simp
      | error err => simp
      | panic => simp
      | timeout => simp

theorem resolveTrees_eq_panic
    {resolve : List String → List Ast → Outcome DslError (List Ast)}
    {inspect : List String → List Ast → List Ast}
    (hresolve : ∀ names trees, resolve names trees = .panic ↔
      ∃ tree ∈ inspect names trees, bareImport tree = true)
    (trees : List Ast) (top : Bool) :
    resolveTrees u files paths imported resolve top trees = .panic ↔
      ∃ tree ∈ inspectedTrees u files paths imported resolve inspect top trees,
        bareImport tree = true := by
  induction trees generalizing top with
  | nil => simp [resolveTrees, inspectedTrees]
  | cons tree rest ih =>
      rw [resolveTrees, inspectedTrees, Outcome.bind_eq_panic, parseImport_eq_panic]
      simp only [List.exists_mem_cons_iff]
      apply or_congr_right
      cases hname : parseImport tree with
      | ok name =>
          simp only [Outcome.ok.injEq, exists_eq_left']
          by_cases hempty : name = ""
          · rw [if_pos hempty, if_pos hempty, Outcome.bind_eq_panic, ih false]
            simp
          · rw [if_neg hempty, if_neg hempty]
            by_cases htop : top = false
            · simp [htop]
            · by_cases hcycle : name ∈ imported
              · simp [htop, hcycle]
              · rw [if_neg htop, if_neg hcycle, if_neg (not_or.mpr ⟨htop, hcycle⟩)]
                exact resolveImport_eq_panic hresolve (ih top) name
      | error err => simp
      | panic => simp
      | timeout => simp

theorem resolveImportsRec_eq_panic (fuel : ℕ) : ∀ imported trees,
    resolveImportsRec u files paths fuel imported trees = .panic ↔
      ∃ tree ∈ inspectedRec u files paths fuel imported trees, bareImport tree = true := by
  induction fuel with
  | zero => simp [resolveImportsRec, inspectedRec]
  | succ fuel ih => exact fun imported trees => resolveTrees_eq_panic ih trees true

theorem compile_eq_panic {fuel : ℕ} {spec : Spec} :
    compile u files fuel spec = .panic ↔
      ∃ tree ∈ inspected u files fuel spec, bareImport tree = true := by
  unfold compile inspected
  rw [Outcome.bind_eq_panic]
  rcases parse u spec.filename spec.text with err | parsed
  · simp [liftParse]
  · simpa [liftParse] using resolveImportsRec_eq_panic fuel [] parsed

end Imports

/-! ## Evaluation -/

theorem evalProgram_eq_panic (rt : Runtime) (fuel : ℕ) {program : List Ast}
    (hprogram : Ast.sources program = true) :
    (evalProgram rt fuel program).outcome = .panic ↔
      ∃ event ∈ (evalProgram rt fuel program).trace, event.fatal = true :=
  (values_collect (safe_eval rt fuel) (oks_of_sources Env.initial.store program hprogram)
    Env.ok_initial).panics

theorem runProgram_eq_panic {rt : Runtime} {fuel : ℕ} {program : List Ast} :
    runProgram rt fuel program = .panic ↔ (evalProgram rt fuel program).outcome = .panic := by
  unfold runProgram
  rcases evalProgram rt fuel program with ⟨_ | _ | _ | _, _, _⟩ <;> simp

/-- `New` panics on no text and file system but those on which import resolution
comes to an `import` without arguments, or the evaluation to a call or a key that
is fatal. -/
theorem new_ne_panic_iff (rt : Runtime) (files : Files) (fuel : ℕ) (spec : Spec) :
    new rt files fuel spec ≠ .panic ↔
      (∀ tree ∈ inspected rt.unicode files fuel spec, bareImport tree = false) ∧
        ∀ program, compile rt.unicode files fuel spec = .ok program →
          ∀ event ∈ (evalProgram rt fuel program).trace, event.fatal = false := by
  unfold new
  rw [ne_eq, Outcome.bind_eq_panic, not_or, compile_eq_panic]
  apply and_congr
  · simp
  · rw [not_exists]
    apply forall_congr'
    intro program
    rw [not_and]
    apply imp_congr_right
    intro hprogram
    rw [runProgram_eq_panic, evalProgram_eq_panic rt fuel (sources_compile hprogram)]
    simp

/-- One specification for each way to crash. -/
def crashing : List String :=
  ["(import)", "(/ 1 0)", "(% 1 0)", "(provider 1)", "(size 1)", "(docker (list))", "(panic 1)",
   "(hmap ((list) 1))", "(hmapSet (hmap) (list) 1)", "(hmapGet (hmap) (list))",
   "(hmapContains (hmap) (list))"]

theorem new_crashing :
    (crashing.map fun text => new plainRuntime noFiles 10 { text := text.toList }) =
      List.replicate crashing.length .panic := by
  have hcrashed : ∀ text ∈ crashing,
      (new plainRuntime noFiles 10 { text := text.toList }).crashed = true := by decide +kernel
  rw [List.eq_replicate_iff]
  constructor
  · rw [List.length_map]
  · intro outcome hmem
    rcases List.mem_map.mp hmem with ⟨text, htext, rfl⟩
    exact Outcome.crashed_iff.mp (hcrashed text htext)

end Lang
end Di
