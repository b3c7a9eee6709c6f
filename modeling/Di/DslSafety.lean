import Di.DslLabels

/-!
# Every evaluation respects the discipline

For each built-in function and for the evaluator: from a consistent environment
and trees whose labels and atoms belong to the store, whatever the outcome, the
environment stays consistent, the store only grows, every recorded placement
statement is enforced, and what is returned is a value.  A function that has as
many arguments as it needs does not crash, unless it is one of those that trust
their arguments.
-/

namespace Di
namespace Lang

open Procedure

abbrev Keeps {α : Type} (patient : Prop) (env : Env) (m : EvalM α) (post : α → Env → Prop) :
    Prop :=
  Sound (evalDiscipline patient) env m post

def ValueOk (value : Ast) (env : Env) : Prop := value.Value env.store

abbrev Safe (patient : Prop) (env : Env) (m : EvalM Ast) : Prop := Keeps patient env m ValueOk

abbrev Harmless {α : Type} (patient : Prop) (env : Env) (m : EvalM α) : Prop :=
  Keeps patient env m fun _ _ => True

def SafeEval (patient : Prop) (ev : Ast → EvalM Ast) : Prop :=
  ∀ (env : Env) (expr : Ast), expr.Ok env.store → Safe patient env (ev expr)

section Primitives

variable {α β : Type} {patient : Prop} {env : Env}

theorem one_arg {args : List Ast} (hcount : 1 ≤ args.length) :
    ∃ first rest, args = first :: rest := by
  cases args with
  | nil => simp at hcount
  | cons first rest => exact ⟨first, rest, rfl⟩

theorem two_args {args : List Ast} (hcount : 2 ≤ args.length) :
    ∃ first second rest, args = first :: second :: rest := by
  rcases one_arg (by omega : 1 ≤ args.length) with ⟨first, rest, rfl⟩
  rcases one_arg (Nat.le_of_succ_le_succ hcount : 1 ≤ rest.length) with ⟨second, rest, rfl⟩
  exact ⟨first, second, rest, rfl⟩

theorem three_args {args : List Ast} (hcount : 3 ≤ args.length) :
    ∃ first second third rest, args = first :: second :: third :: rest := by
  rcases one_arg (by omega : 1 ≤ args.length) with ⟨first, rest, rfl⟩
  rcases two_args (Nat.le_of_succ_le_succ hcount : 2 ≤ rest.length) with
    ⟨second, third, rest, rfl⟩
  exact ⟨first, second, third, rest, rfl⟩

theorem keeps_fail {post : α → Env → Prop} (text : String) :
    Keeps patient env (fail text : EvalM α) post := Sound.throw

theorem readStore_bind (f : Store → EvalM α) (env : Env) :
    (readStore >>= f) env = f env.store env := rfl

theorem get_bind (f : Env → EvalM α) (env : Env) : ((get : EvalM Env) >>= f) env = f env env := rfl

theorem keeps_readStore {f : Store → EvalM α} {post : α → Env → Prop}
    (hf : Keeps patient env (f env.store) post) : Keeps patient env (readStore >>= f) post := by
  intro hinv
  rw [readStore_bind]
  exact hf hinv

theorem keeps_get {f : Env → EvalM α} {post : α → Env → Prop}
    (hf : Keeps patient env (f env) post) : Keeps patient env ((get : EvalM Env) >>= f) post := by
  intro hinv
  rw [get_bind]
  exact hf hinv

theorem keeps_complain {post : α → Env → Prop} (text : String) (culprit : Ast) :
    Keeps patient env (complain text culprit : EvalM α) post :=
  keeps_readStore (keeps_fail _)

theorem keeps_emit (event : Event) (hfatal : event.fatal = false)
    (hendless : event.endless = false) (hholds : env.Ok → event.Holds env.store) :
    Keeps patient env (emit event) fun _ env' => env' = env := by
  apply Sound.emit _ _ hholds
  · change ¬event.fatal = true
    simp [hfatal]
  · change ¬event.endless = true
    simp [hendless]

theorem keeps_fatal {event : Event} {m : EvalM α} {post : α → Env → Prop}
    (hfatal : event.fatal = true) (hendless : event.endless = false)
    (hholds : event.Holds env.store) (hm : m env = ⟨.panic, env, []⟩) :
    Keeps patient env (emit event >>= fun _ => m) post := by
  apply Sound.fatal hfatal _ (fun _ => hholds) hm
  change ¬event.endless = true
  simp [hendless]

theorem keeps_writeStore {store : Store}
    (hwrite : env.Ok → store.Consistent ∧ env.store.Le store) :
    Keeps patient env (writeStore store) fun _ env' => env'.store = store := by
  have hmodify : Keeps patient env (modify fun env => { env with store := store })
      fun _ env' => env'.store = store := by
    apply Sound.modify rfl
    intro hok
    have hstep := hwrite hok
    exact ⟨⟨hstep.1, Ast.ValueCtx.mono hstep.2 _ hok.ctx⟩, hstep.2, rfl⟩
  apply Sound.bind hmodify
  intro _ env' hok _ hstore
  have hrecorded : Event.Holds (.wrote store) env'.store := by
    change store.Consistent
    rw [← hstore]
    exact hok.consistent
  apply Sound.weaken (keeps_emit (.wrote store) rfl rfl fun _ => hrecorded)
  intro _ env'' _ _ heq
  rw [heq]
  exact hstore

theorem harmless_write {store : Store} (hsame : env.store.SameLabels store)
    (hconnections : env.Ok → ∀ c ∈ store.connections.elems, c.Valid env.store) :
    Harmless patient env (writeStore store) := by
  apply Sound.weaken (keeps_writeStore ?_)
  · intro _ _ _ _ _
    trivial
  · intro hok
    exact ⟨hsame.consistent hok.consistent (hconnections hok), hsame.le⟩

theorem keeps_collect {f : α → EvalM β} (hf : ∀ env a, Harmless patient env (f a)) (list : List α) :
    Keeps patient env (collect f list) fun bs _ => bs.length = list.length := by
  apply Sound.weaken (Sound.collect (fun _ _ _ _ _ => trivial) list fun a _ env' _ _ => hf env' a)
  intro _ _ _ _ hcollected
  exact hcollected.1

theorem harmless_forEach {f : α → EvalM Unit} (hf : ∀ env a, Harmless patient env (f a))
    (list : List α) : Harmless patient env (forEach f list) := by
  apply Sound.weaken (Sound.forEach (fun _ _ _ _ _ => trivial) list fun a _ env' _ _ => hf env' a)
  intro _ _ _ _ _
  trivial

theorem values_collect {ev : Ast → EvalM Ast} (hev : SafeEval patient ev) {list : List Ast}
    (hlist : Ast.Oks env.store list) :
    Keeps patient env (collect ev list) fun values env' =>
      values.length = list.length ∧ Ast.Values env'.store values := by
  have hmono : ∀ value env' env'', (evalDiscipline patient).le env' env'' →
      ValueOk value env' → ValueOk value env'' :=
    fun value _ _ hle hvalue => Ast.Fits.mono hle .value value hvalue
  have hsound := Sound.collect (d := evalDiscipline patient) (s := env) hmono list
    fun expr hmem env' _ hle =>
      hev env' expr (Ast.Fits.mono hle .code expr ((Ast.allFit_iff list).mp hlist expr hmem))
  apply Sound.weaken hsound
  intro values env' _ _ hvalues
  exact ⟨hvalues.1, (Ast.allFit_iff values).mpr hvalues.2⟩

theorem keeps_inCtx {ctx : Ctx} {m : EvalM α} {post : α → Env → Prop}
    (hctx : env.Ok → Ast.ValueCtx env.store ctx)
    (hm : Keeps patient { env with ctx := ctx } m post)
    (hpost : ∀ a env' ctx', post a env' → post a { env' with ctx := ctx' }) :
    Keeps patient env (inCtx ctx m) post := by
  apply Sound.within
  · intro hok
    exact ⟨hok.consistent, hctx hok⟩
  · exact fun _ hlevel => hlevel
  · exact hm
  · intro env' hok hok' hle
    constructor
    · exact ⟨hok'.consistent, Ast.ValueCtx.mono hle _ hok.ctx⟩
    · exact ⟨hle, Store.Le.refl _, fun a ha => hpost a env' env.ctx ha⟩

theorem keeps_bindHere {name : String} {value : Ast} (hvalue : value.Value env.store) :
    Keeps patient env (bindHere name value) fun _ env' => env'.store = env.store := by
  apply Sound.modify rfl
  intro hok
  exact ⟨⟨hok.consistent, valueCtx_bind hok.ctx hvalue⟩, Store.Le.refl _, rfl⟩

theorem harmless_emit (event : Event) (hfatal : event.fatal = false)
    (hendless : event.endless = false) (hholds : env.Ok → event.Holds env.store) :
    Harmless patient env (emit event) := by
  apply Sound.weaken (keeps_emit event hfatal hendless hholds)
  intro _ _ _ _ _
  trivial

theorem harmless_sightUnless (determined : Bool) :
    Harmless patient env (sightUnless determined) := by
  unfold sightUnless
  split
  · exact Sound.pure fun _ => trivial
  · exact harmless_emit .sighted rfl rfl fun _ => trivial

theorem harmless_matchUnless (apart : Bool) : Harmless patient env (matchUnless apart) := by
  unfold matchUnless
  split
  · exact Sound.pure fun _ => trivial
  · exact harmless_emit .matched rfl rfl fun _ => trivial

theorem keeps_lookOutside :
    Keeps patient env lookOutside fun _ env' => env'.store = env.store := by
  apply keeps_get
  have hmodify : Keeps patient env (modify fun env => { env with visits := env.visits + 1 })
      fun _ env' => env'.store = env.store := by
    apply Sound.modify rfl
    intro hok
    exact ⟨⟨hok.consistent, hok.ctx⟩, Store.Le.refl _, rfl⟩
  apply Sound.bind hmodify
  intro _ _ _ _ hstore
  exact Sound.pure fun _ => hstore

theorem harmless_test (value : Ast) : Harmless patient env (test value) := by
  apply Sound.bind (harmless_sightUnless _)
  intro _ _ _ _ _
  exact Sound.pure fun _ => trivial

theorem hashKey_of_not_hashable {k : Ast} (hk : hashable k = false)
    (entries : List (Scalar × Ast)) :
    hashKey entries k = (emit (.hashed k) >>= fun _ => crash) := by
  cases k with
  | scalar s => cases hk
  | list _ _ => rfl
  | hmap _ => rfl
  | sexp _ _ => rfl
  | lambda _ _ _ => rfl
  | moduleNode _ _ => rfl
  | label _ => rfl

theorem keeps_hashKey {k : Ast} (hk : k.Value env.store) (entries : List (Scalar × Ast)) :
    Keeps patient env (hashKey entries k) fun s env' => s.Fits .value env'.store := by
  by_cases hhashable : hashable k = true
  · cases k with
    | scalar s =>
        apply Sound.bind (keeps_emit (.hashed (.scalar s)) rfl rfl fun _ => trivial)
        intro _ env' _ hle _
        apply Sound.bind (harmless_sightUnless _)
        intro _ _ _ hle' _
        exact Sound.pure fun _ => Scalar.Fits.mono (hle.trans hle') s hk
    | _ => cases hhashable
  · rw [Bool.not_eq_true] at hhashable
    rw [hashKey_of_not_hashable hhashable]
    have hfatal : Event.fatal (.hashed k) = true := by simp [Event.fatal, hhashable]
    exact keeps_fatal hfatal rfl trivial rfl

theorem keeps_calling {m : EvalM α} {post : α → Env → Prop}
    (hm : Keeps patient { env with depth := env.depth + 1 } m post)
    (hpost : ∀ a env' depth, post a env' → post a { env' with depth := depth }) :
    Keeps patient env (calling m) post := by
  apply keeps_get
  apply Sound.bind (keeps_emit (.entered env.depth) rfl rfl fun _ => trivial)
  rintro _ env' _ _ rfl
  apply Sound.within
  · intro hok
    exact ⟨hok.consistent, hok.ctx⟩
  · exact fun _ _ => rfl
  · exact hm
  · intro env'' hok hok' hle
    exact ⟨⟨hok'.consistent, hok'.ctx⟩, hle, Store.Le.refl _, fun a ha => hpost a env'' _ ha⟩

end Primitives

/-! ## Arithmetic, text and lists -/

section Plain

variable {patient : Prop} {env : Env} {args : List Ast}

theorem safe_emptyList : Safe patient env (pure emptyList) := Sound.pure fun _ => trivial

theorem harmless_intArg (env : Env) (arg : Ast) : Harmless patient env (intArg arg) := by
  unfold intArg
  split
  · exact Sound.pure fun _ => trivial
  · exact keeps_complain _ _

theorem intArg_eq_ok {arg : Ast} {x : ℤ} (hok : (intArg arg env).outcome = .ok x) :
    arg = .int x := by
  unfold intArg at hok
  split at hok
  · injection hok with hok
    rw [hok]
  · cases hok

theorem collect_intArg_eq_ok {ints : List ℤ} (hok : (collect intArg args env).outcome = .ok ints) :
    args = ints.map .int := by
  induction args generalizing env ints with
  | nil =>
      injection hok with hok
      rw [← hok]
      rfl
  | cons arg rest ih =>
      rcases bind_eq_ok hok with ⟨x, hx, hrest⟩
      rcases bind_eq_ok hrest with ⟨xs, hxs, hints⟩
      injection hints with hints
      rw [← hints, intArg_eq_ok hx, ih hxs]
      rfl

theorem collect_intArg_ints (ints : List ℤ) :
    collect intArg (ints.map .int) env = ⟨.ok ints, env, []⟩ := by
  induction ints with
  | nil => rfl
  | cons x rest ih =>
      have hfirst : (intArg (.int x) env).outcome = .ok x := rfl
      have hrest : (collect intArg (rest.map .int) env).outcome = .ok rest := by rw [ih]
      rw [List.map_cons, collect, bind_ok hfirst]
      change (⟨_, _, [] ++ _⟩ : Ran Env DslError Event (List ℤ)) = _
      have hfinal : (intArg (.int x) env).final = env := rfl
      rw [hfinal, bind_ok hrest, ih]
      rfl

theorem safe_arithFun {op : ℤ → ℤ → Option ℤ}
    (hop : ∀ ints, args = ints.map .int → ∃ first rest, ints = first :: rest ∧
      (rest.foldlM op first).isSome = true) : Safe patient env (arithFun op args) := by
  apply Sound.bind ((keeps_collect harmless_intArg args).also fun ints => collect_intArg_eq_ok)
  rintro ints env' _ _ ⟨hints, _⟩
  rcases hop ints hints with ⟨first, rest, rfl, hdefined⟩
  rcases Option.isSome_iff_exists.mp hdefined with ⟨total, htotal⟩
  simp only [htotal]
  exact Sound.pure fun _ => trivial

theorem foldlM_isSome {op : ℤ → ℤ → Option ℤ} (rest : List ℤ)
    (hop : ∀ a, ∀ b ∈ rest, (op a b).isSome = true) (first : ℤ) :
    (rest.foldlM op first).isSome = true := by
  induction rest generalizing first with
  | nil => rfl
  | cons b rest ih =>
      rcases Option.isSome_iff_exists.mp (hop first b List.mem_cons_self) with ⟨next, hnext⟩
      rw [List.foldlM_cons, hnext]
      exact ih (fun a c hc => hop a c (List.mem_cons_of_mem b hc)) next

theorem ints_of_count {ints : List ℤ} (hcount : 2 ≤ args.length) (hints : args = ints.map .int) :
    ∃ first rest, ints = first :: rest := by
  cases ints with
  | nil => simp [hints] at hcount
  | cons first rest => exact ⟨first, rest, rfl⟩

theorem safe_totalArith {f : ℤ → ℤ → ℤ} (hcount : 2 ≤ args.length) :
    Safe patient env (arithFun (fun a b => some (f a b)) args) := by
  apply safe_arithFun
  intro ints hints
  rcases ints_of_count hcount hints with ⟨first, rest, rfl⟩
  exact ⟨first, rest, rfl, foldlM_isSome rest (fun _ _ _ => rfl) first⟩

theorem foldlM_eq_none {f : ℤ → ℤ → ℤ} {rest : List ℤ} (hzero : 0 ∈ rest) (first : ℤ) :
    rest.foldlM (fun a b => if b = 0 then none else some (f a b)) first = none := by
  induction rest generalizing first with
  | nil => exact absurd hzero List.not_mem_nil
  | cons b rest ih =>
      rw [List.foldlM_cons]
      by_cases hb : b = 0
      · rw [if_pos hb]
        rfl
      · rw [if_neg hb]
        exact ih (List.mem_of_ne_of_mem (Ne.symm hb) hzero) _

theorem exists_ints (args : List Ast) (hints : args.all isInt = true) :
    ∃ ints : List ℤ, args = ints.map .int := by
  induction args with
  | nil => exact ⟨[], rfl⟩
  | cons arg rest ih =>
      rw [List.all_cons, Bool.and_eq_true] at hints
      rcases ih hints.2 with ⟨ints, rfl⟩
      have harg := hints.1
      unfold isInt at harg
      split at harg
      next x => exact ⟨x :: ints, rfl⟩
      next => cases harg

theorem safe_divideBy {f : ℤ → ℤ → ℤ} {name : String} (hname : name = "/" ∨ name = "%")
    (hcount : 2 ≤ args.length) :
    Safe patient env (emit (.called name args) >>= fun _ =>
      arithFun (fun a b => if b = 0 then none else some (f a b)) args) := by
  have hendless : Event.endless (.called name args) = false := by
    rcases hname with rfl | rfl <;> simp [Event.endless]
  have hcall : fatalCall name args = (args.all isInt && args.tail.any isZero) := by
    rcases hname with rfl | rfl <;> simp [fatalCall]
  by_cases hfatal : fatalCall name args = true
  · -- the arguments are integers and one of the divisors is zero
    have hint : args.all isInt = true := by
      rw [hcall, Bool.and_eq_true] at hfatal
      exact hfatal.1
    rcases exists_ints args hint with ⟨ints, rfl⟩
    rcases ints_of_count hcount rfl with ⟨first, rest, rfl⟩
    have hzero : 0 ∈ rest := by
      rw [hcall, Bool.and_eq_true] at hfatal
      simpa [isZero] using hfatal.2
    have hevent : Event.fatal (.called name ((first :: rest).map .int)) = true := hfatal
    apply keeps_fatal hevent hendless trivial
    have hok : (collect intArg ((first :: rest).map .int) env).outcome = .ok (first :: rest) := by
      rw [collect_intArg_ints]
    rw [arithFun, bind_ok hok, collect_intArg_ints]
    simp only [foldlM_eq_none hzero]
    rfl
  · rw [Bool.not_eq_true] at hfatal
    apply Sound.bind (keeps_emit (.called name args) hfatal hendless fun _ => trivial)
    intro _ env' _ _ _
    apply safe_arithFun
    intro ints hints
    rcases ints_of_count hcount hints with ⟨first, rest, rfl⟩
    refine ⟨first, rest, rfl, foldlM_isSome rest ?_ first⟩
    intro a b hb
    have hnonzero : b ≠ 0 := by
      rintro rfl
      have hall : ((first :: rest).map Ast.int).all isInt = true := by simp [isInt]
      have hany : ((first :: rest).map Ast.int).tail.any isZero = true := by
        simpa [isZero] using hb
      rw [hcall, hints, hall, hany] at hfatal
      cases hfatal
    simp [hnonzero]

theorem safe_compareFun (op : ℤ → ℤ → Bool) (hcount : 2 ≤ args.length) :
    Safe patient env (compareFun op args) := by
  apply Sound.bind (keeps_collect harmless_intArg args)
  intro ints env' _ _ hlength
  rcases ints with _ | ⟨a, _ | ⟨b, rest⟩⟩
  · simp at hlength
    omega
  · simp at hlength
    omega
  · exact Sound.pure fun _ => trivial

theorem harmless_concatArg (env : Env) (arg : Ast) : Harmless patient env (concatArg arg) := by
  unfold concatArg
  split
  · exact Sound.pure fun _ => trivial
  · exact keeps_complain _ _

theorem safe_plusImpl (hcount : 2 ≤ args.length) : Safe patient env (plusImpl args) := by
  unfold plusImpl
  split
  · apply Sound.bind (keeps_collect harmless_concatArg _)
    intro _ _ _ _ _
    exact Sound.pure fun _ => trivial
  · exact safe_totalArith hcount

theorem safe_eqImpl (hcount : 2 ≤ args.length) : Safe patient env (eqImpl args) := by
  rcases two_args hcount with ⟨a, b, rest, rfl⟩
  apply keeps_readStore
  apply Sound.bind (harmless_sightUnless _)
  intro _ _ _ _ _
  apply Sound.bind (harmless_matchUnless _)
  intro _ _ _ _ _
  exact Sound.pure fun _ => trivial

theorem harmless_stringArg (env : Env) (arg : Ast) : Harmless patient env (stringArg arg) := by
  unfold stringArg
  split
  · exact Sound.pure fun _ => trivial
  · exact keeps_complain _ _

theorem safe_wrapString {wrapper : String → Ast}
    (hwrapper : ∀ store text, (wrapper text).Value store) (message : String)
    (hcount : 1 ≤ args.length) : Safe patient env (wrapString wrapper message args) := by
  rcases one_arg hcount with ⟨first, rest, rfl⟩
  unfold wrapString
  split
  next hnil => cases hnil
  · exact Sound.pure fun _ => hwrapper _ _
  · exact keeps_complain _ _

theorem safe_githubKeyImpl (hcount : 1 ≤ args.length) : Safe patient env (githubKeyImpl args) := by
  apply safe_wrapString _ _ hcount
  exact fun _ _ => trivial

theorem safe_plaintextKeyImpl (hcount : 1 ≤ args.length) :
    Safe patient env (plaintextKeyImpl args) := by
  apply safe_wrapString _ _ hcount
  exact fun _ _ => trivial

theorem safe_roleImpl (hcount : 1 ≤ args.length) : Safe patient env (roleImpl args) := by
  apply safe_wrapString _ _ hcount
  exact fun _ _ => trivial

theorem safe_regionImpl (hcount : 1 ≤ args.length) : Safe patient env (regionImpl args) := by
  apply safe_wrapString _ _ hcount
  exact fun _ _ => trivial

theorem safe_assertString {wrapper : String → Ast} {name : String}
    (hname : name = "provider" ∨ name = "size")
    (hwrapper : ∀ store text, (wrapper text).Value store) :
    Safe patient env (emit (.called name args) >>= fun _ => assertString wrapper args) := by
  have hendless : Event.endless (.called name args) = false := by
    rcases hname with rfl | rfl <;> simp [Event.endless]
  have hcall : fatalCall name args = !startsWithString args := by
    rcases hname with rfl | rfl <;> simp [fatalCall]
  unfold assertString
  split
  next text rest =>
    apply Sound.bind (keeps_emit (.called name (.str text :: rest)) hcall hendless fun _ => trivial)
    intro _ _ _ _ _
    exact Sound.pure fun _ => hwrapper _ _
  next hother =>
    have hfatal : fatalCall name args = true := by
      rw [hcall, Bool.not_eq_true']
      unfold startsWithString
      split
      next text rest => exact absurd rfl (hother text rest)
      next => rfl
    exact keeps_fatal hfatal hendless trivial rfl

theorem safe_diskSizeImpl (hcount : 1 ≤ args.length) : Safe patient env (diskSizeImpl args) := by
  rcases one_arg hcount with ⟨first, rest, rfl⟩
  unfold diskSizeImpl
  split
  next hnil => cases hnil
  · exact Sound.pure fun _ => trivial
  · exact keeps_complain _ _

theorem safe_rangeTypeImpl (ident : String) (hcount : 1 ≤ args.length) :
    Safe patient env (rangeTypeImpl ident args) := by
  rcases one_arg hcount with ⟨first, rest, rfl⟩
  unfold rangeTypeImpl
  split
  next hnil => cases hnil
  · split
    · exact Sound.pure fun _ => trivial
    · exact keeps_readStore (keeps_fail _)
  · split
    · exact Sound.pure fun _ => trivial
    · exact keeps_readStore (keeps_fail _)

theorem safe_listImpl (hargs : Ast.Values env.store args) : Safe patient env (listImpl args) :=
  Sound.pure fun _ => hargs

theorem safe_lenImpl (hcount : 1 ≤ args.length) : Safe patient env (lenImpl args) := by
  rcases one_arg hcount with ⟨first, rest, rfl⟩
  unfold lenImpl
  split
  next hnil => cases hnil
  · exact Sound.pure fun _ => trivial
  · exact keeps_complain _ _

theorem safe_carImpl (hcount : 1 ≤ args.length) (hargs : Ast.Values env.store args) :
    Safe patient env (carImpl args) := by
  unfold carImpl
  split
  next => simp at hcount
  · exact Sound.pure fun _ => hargs.1.1
  · exact keeps_complain _ _

theorem safe_cdrImpl (hcount : 1 ≤ args.length) (hargs : Ast.Values env.store args) :
    Safe patient env (cdrImpl args) := by
  unfold cdrImpl
  split
  next => simp at hcount
  · exact Sound.pure fun _ => hargs.1.2
  · exact keeps_complain _ _

theorem safe_consImpl (hcount : 2 ≤ args.length) (hargs : Ast.Values env.store args) :
    Safe patient env (consImpl args) := by
  rcases two_args hcount with ⟨first, second, rest, rfl⟩
  unfold consImpl
  split
  next heq =>
    cases heq
    exact Sound.pure fun _ => ⟨hargs.1, hargs.2.1⟩
  · exact keeps_complain _ _
  next hother => exact absurd rfl (hother _ _ _)

theorem safe_nthImpl (hcount : 2 ≤ args.length) (hargs : Ast.Values env.store args) :
    Safe patient env (nthImpl args) := by
  rcases two_args hcount with ⟨first, second, more, rfl⟩
  unfold nthImpl
  split
  next index isNil elems rest heq =>
    cases heq
    split
    · exact keeps_fail _
    · split
      next elem helem =>
        have helems : Ast.Values env.store elems := hargs.2.1
        exact Sound.pure fun _ =>
          (Ast.allFit_iff elems).mp helems elem (List.mem_of_getElem? helem)
      · exact keeps_fail _
  · exact keeps_complain _ _
  · exact keeps_complain _ _
  next hother => exact absurd rfl (hother _ _ _)

theorem harmless_rangeArg (env : Env) (arg : Ast) : Harmless patient env (rangeArg arg) := by
  unfold rangeArg
  split
  · exact Sound.pure fun _ => trivial
  · exact keeps_complain _ _

theorem safe_rangeBetween (hpatient : patient) (fuel : ℕ) (start stop step : ℤ) :
    Safe patient env (rangeBetween fuel start stop step) := by
  unfold rangeBetween
  split
  · exact keeps_fail _
  · split
    next ints _ =>
      apply Sound.pure
      intro _
      refine (Ast.allFit_iff (ints.map .int)).mpr ?_
      intro elem hmem
      rcases List.mem_map.mp hmem with ⟨x, _, rfl⟩
      trivial
    · exact Sound.outOfFuel hpatient

theorem safe_rangeImpl (hpatient : patient) (fuel : ℕ) :
    Safe patient env (emit (.called "range" args) >>= fun _ => rangeImpl fuel args) := by
  have hfatal : fatalCall "range" args = false := fatalCall_of_not_mem (by decide) args
  by_cases hendless : endlessRange args = true
  · exact Sound.endless (by simp [evalDiscipline, Event.fatal, hfatal]) hpatient
      (fun _ => trivial) (rangeImpl_of_endless hendless fuel env)
  · have hends : Event.endless (.called "range" args) = false := by
      simpa [Event.endless] using hendless
    apply Sound.bind (keeps_emit (.called "range" args) hfatal hends fun _ => trivial)
    intro _ env' _ _ _
    apply Sound.bind (keeps_collect harmless_rangeArg args)
    intro ints env' _ _ _
    split
    · exact safe_rangeBetween hpatient _ _ _ _
    · exact safe_rangeBetween hpatient _ _ _ _
    · exact safe_rangeBetween hpatient _ _ _ _
    · exact keeps_fail _

theorem safe_logImpl (hcount : 2 ≤ args.length) : Safe patient env (logImpl args) := by
  rcases two_args hcount with ⟨first, second, rest, rfl⟩
  unfold logImpl
  split
  · split
    · exact safe_emptyList
    · exact keeps_fail _
  · exact keeps_readStore (keeps_fail _)
  · exact keeps_fail _
  next hother => exact absurd rfl (hother _ _ _)

theorem safe_panicImpl (hcount : 1 ≤ args.length) :
    Safe patient env (emit (.called "panic" args) >>= fun _ => panicImpl args) := by
  have hendless : Event.endless (.called "panic" args) = false := by simp [Event.endless]
  have hcall : fatalCall "panic" args = (decide (args.length = 1) && !startsWithString args) := by
    simp [fatalCall]
  unfold panicImpl
  split
  next text rest =>
    have hfatal : fatalCall "panic" (.str text :: rest) = false := by
      simp [fatalCall, startsWithString]
    apply Sound.bind (keeps_emit (.called "panic" (.str text :: rest)) hfatal hendless
      fun _ => trivial)
    intro _ _ _ _ _
    exact keeps_fail _
  next first second rest _ =>
    have hfatal : fatalCall "panic" (first :: second :: rest) = false := by simp [fatalCall]
    apply Sound.bind (keeps_emit (.called "panic" (first :: second :: rest)) hfatal hendless
      fun _ => trivial)
    intro _ _ _ _ _
    exact keeps_readStore (keeps_fail _)
  next hstring htwo =>
    have hfatal : fatalCall "panic" args = true := by
      rcases args with _ | ⟨first, _ | ⟨second, rest⟩⟩
      · simp at hcount
      · rw [hcall]
        simp only [List.length_singleton, decide_true, Bool.true_and, Bool.not_eq_true']
        unfold startsWithString
        split
        next text rest heq => exact absurd heq (hstring text rest)
        next => rfl
      · exact absurd rfl (htwo _ _ _)
    exact keeps_fatal hfatal hendless trivial rfl

theorem safe_sprintfImpl (rt : Runtime) (hcount : 1 ≤ args.length) :
    Safe patient env (sprintfImpl rt args) := by
  unfold sprintfImpl
  split
  next => simp at hcount
  · apply keeps_readStore
    split
    · apply Sound.bind (harmless_sightUnless _)
      intro _ _ _ _ _
      exact Sound.pure fun _ => trivial
    · apply Sound.bind (harmless_sightUnless _)
      intro _ _ _ _ _
      apply Sound.bind keeps_lookOutside
      intro _ _ _ _ _
      exact Sound.pure fun _ => trivial
  · exact keeps_complain _ _

theorem safe_boolImpl (hcount : 1 ≤ args.length) : Safe patient env (boolImpl args) := by
  unfold boolImpl
  split
  next => simp at hcount
  · apply Sound.bind (harmless_test _)
    intro _ _ _ _ _
    exact Sound.pure fun _ => trivial

theorem safe_prognImpl (hcount : 1 ≤ args.length) (hargs : Ast.Values env.store args) :
    Safe patient env (prognImpl args) := by
  unfold prognImpl
  split
  next value hvalue =>
    exact Sound.pure fun _ =>
      (Ast.allFit_iff args).mp hargs value (List.mem_of_getLast? hvalue)
  next hnone =>
    rw [List.getLast?_eq_none_iff] at hnone
    simp [hnone] at hcount

/-! ## Hash maps -/

theorem safe_notHmap (arg : Ast) : Safe patient env (notHmap arg) := keeps_readStore (keeps_fail _)

theorem safe_hmapSetImpl (hcount : 3 ≤ args.length) (hargs : Ast.Values env.store args) :
    Safe patient env (hmapSetImpl args) := by
  rcases three_args hcount with ⟨first, second, third, more, rfl⟩
  unfold hmapSetImpl
  split
  next entries k value rest heq =>
    cases heq
    apply Sound.bind (keeps_hashKey hargs.2.1 _)
    intro s env' _ hle hs
    have hentries : Ast.ValueEntries env.store entries := hargs.1
    exact Sound.pure fun _ => valueEntries_assign (Ast.ValueEntries.mono hle _ hentries) hs
      (Ast.Fits.mono hle _ _ hargs.2.2.1)
  · exact safe_notHmap _
  next hother => exact absurd rfl (hother _ _ _ _)

theorem safe_hmapGetImpl (hcount : 2 ≤ args.length) (hargs : Ast.Values env.store args) :
    Safe patient env (hmapGetImpl args) := by
  rcases two_args hcount with ⟨first, second, more, rfl⟩
  unfold hmapGetImpl
  split
  next entries k rest heq =>
    cases heq
    apply Sound.bind (keeps_hashKey hargs.2.1 _)
    intro s env' _ hle _
    split
    next value hvalue =>
      have hentries : Ast.ValueEntries env.store entries := hargs.1
      exact Sound.pure fun _ => Ast.Fits.mono hle _ _
        ((Ast.valueEntries_iff entries).mp hentries _ (mem_of_lookup hvalue)).2
    · exact keeps_complain _ _
  · exact safe_notHmap _
  next hother => exact absurd rfl (hother _ _ _)

theorem safe_hmapContainsImpl (hcount : 2 ≤ args.length) (hargs : Ast.Values env.store args) :
    Safe patient env (hmapContainsImpl args) := by
  rcases two_args hcount with ⟨first, second, more, rfl⟩
  unfold hmapContainsImpl
  split
  next heq =>
    cases heq
    apply Sound.bind (keeps_hashKey hargs.2.1 _)
    intro _ _ _ _ _
    exact Sound.pure fun _ => trivial
  · exact safe_notHmap _
  next hother => exact absurd rfl (hother _ _ _)

theorem keeps_visitEntries (rt : Runtime) {entries : List (Scalar × Ast)}
    (hentries : Ast.ValueEntries env.store entries) :
    Keeps patient env (visitEntries rt entries) fun visited env' =>
      ∀ entry ∈ visited, entry.1.Fits .value env'.store ∧ entry.2.Value env'.store := by
  apply Sound.bind keeps_lookOutside
  intro _ env' _ _ hstore
  apply Sound.pure
  intro _ entry hmem
  rcases List.mem_filterMap.mp hmem with ⟨i, _, hentry⟩
  rw [hstore]
  exact (Ast.valueEntries_iff entries).mp hentries entry (List.mem_of_getElem? hentry)

theorem safe_hmapKeysImpl (rt : Runtime) (hcount : 1 ≤ args.length)
    (hargs : Ast.Values env.store args) : Safe patient env (hmapKeysImpl rt args) := by
  unfold hmapKeysImpl
  split
  next => simp at hcount
  · apply Sound.bind (keeps_visitEntries rt hargs.1)
    intro visited env' _ _ hvisited
    apply Sound.pure
    intro _
    refine (Ast.allFit_iff (visited.map fun entry => Ast.scalar entry.1)).mpr ?_
    intro elem hmem
    rcases List.mem_map.mp hmem with ⟨entry, hentry, rfl⟩
    exact (hvisited entry hentry).1
  · exact safe_notHmap _

theorem safe_hmapValuesImpl (rt : Runtime) (hcount : 1 ≤ args.length)
    (hargs : Ast.Values env.store args) : Safe patient env (hmapValuesImpl rt args) := by
  unfold hmapValuesImpl
  split
  next => simp at hcount
  · apply Sound.bind (keeps_visitEntries rt hargs.1)
    intro visited env' _ _ hvisited
    apply Sound.pure
    intro _
    refine (Ast.allFit_iff (visited.map Prod.snd)).mpr ?_
    intro elem hmem
    rcases List.mem_map.mp hmem with ⟨entry, hentry, rfl⟩
    exact (hvisited entry hentry).2
  · exact safe_notHmap _

end Plain

/-! ## Containers, labels and connections -/

/-- A label that can be referred to: the public internet or a defined label. -/
def Resolved (store : Store) (l : AstLabel) : Prop :=
  l.ident = publicInternetLabel ∧ l.elems = [] ∨ store.labels.lookup l.ident = some l

section Labels

variable {patient : Prop} {env : Env} {args : List Ast}

theorem Resolved.mono {store store' : Store} (hle : store.Le store') {l : AstLabel}
    (hl : Resolved store l) : Resolved store' l := hl.imp_right (hle.labels l.ident l)

theorem Resolved.known {store : Store} {l : AstLabel} (hl : Resolved store l) :
    l.ident = publicInternetLabel ∨ store.Defines l.ident :=
  hl.imp And.left fun h => Option.isSome_iff_exists.mpr ⟨l, h⟩

theorem Store.Consistent.has {store : Store} (hconsistent : store.Consistent) {l : AstLabel}
    (hl : Resolved store l) {a : Atom} (hmem : a ∈ l.elems) : store.Has a := by
  rcases hl with ⟨_, hempty⟩ | hl
  · rw [hempty] at hmem
    exact absurd hmem List.not_mem_nil
  · have hcarries := (hconsistent.members l.ident l hl a).mp hmem
    cases a with
    | machine i =>
        by_contra hout
        have hnone : store.machines[i]? = none := List.getElem?_eq_none (Nat.le_of_not_lt hout)
        simp [Store.labelsOf, hnone] at hcarries
    | container i =>
        by_contra hout
        have hnone : store.containers[i]? = none :=
          List.getElem?_eq_none (Nat.le_of_not_lt hout)
        simp [Store.labelsOf, hnone] at hcarries

theorem resolved_of_resolveLabel {store : Store} (hconsistent : store.Consistent) {elem : Ast}
    {l : AstLabel} (helem : elem.Value store) (hl : store.resolveLabel elem = some l) :
    Resolved store l := by
  unfold Store.resolveLabel at hl
  split at hl
  · split at hl
    next hpublic =>
      injection hl with hl
      rw [← hl]
      exact .inl ⟨hpublic, rfl⟩
    · exact .inr ((hconsistent.named _ l hl).1 ▸ hl)
  · injection hl with hl
    exact .inr (hl ▸ helem)
  · exact absurd hl (by simp)

theorem keeps_labelArg {elem : Ast} (helem : elem.Value env.store) :
    Keeps patient env (labelArg elem) fun l env' => Resolved env'.store l := by
  apply keeps_readStore
  split
  next l hl =>
    exact Sound.pure fun hok => resolved_of_resolveLabel hok.consistent helem hl
  · exact keeps_complain _ _

theorem labelArg_eq_ok {elem : Ast} {l : AstLabel} (hok : (labelArg elem env).outcome = .ok l) :
    env.store.resolveLabel elem = some l := by
  unfold labelArg at hok
  rw [readStore_bind] at hok
  cases hfound : env.store.resolveLabel elem with
  | none =>
      rw [hfound] at hok
      cases hok
  | some found =>
      rw [hfound] at hok
      injection hok with hok
      rw [hok]

theorem readOnly_labelArg (elem : Ast) : ReadOnly (labelArg elem) := by
  apply ReadOnly.bind fun _ => rfl
  intro store
  split
  · exact fun _ => rfl
  · exact fun _ => rfl

theorem collect_labelArg_eq_ok {elems : List Ast} {labels : List AstLabel}
    (hok : (collect labelArg elems env).outcome = .ok labels) :
    List.Forall₂ (fun elem l => env.store.resolveLabel elem = some l) elems labels := by
  induction elems generalizing labels with
  | nil =>
      injection hok with hok
      rw [← hok]
      exact .nil
  | cons elem rest ih =>
      rcases bind_eq_ok hok with ⟨l, hl, hrest⟩
      rw [readOnly_labelArg] at hrest
      rcases bind_eq_ok hrest with ⟨ls, hls, hlabels⟩
      injection hlabels with hlabels
      rw [← hlabels]
      exact .cons (labelArg_eq_ok hl) (ih hls)

theorem keeps_flattenLabel (hargs : Ast.Values env.store args) :
    Keeps patient env (flattenLabel args) fun labels env' =>
      ∀ l ∈ labels, Resolved env'.store l := by
  have hmono : ∀ l env' env'', (evalDiscipline patient).le env' env'' →
      Resolved env'.store l → Resolved env''.store l := fun l _ _ hle hl => hl.mono hle
  have hsound := Sound.collect (d := evalDiscipline patient) (s := env) hmono (flatten args)
    fun elem hmem env' _ hle =>
      keeps_labelArg (Ast.Fits.mono hle _ elem (fits_flatten args hargs elem hmem))
  exact Sound.weaken hsound fun _ _ _ _ hlabels => hlabels.2

theorem safe_labelNameImpl (hcount : 1 ≤ args.length) : Safe patient env (labelNameImpl args) := by
  unfold labelNameImpl
  split
  next => simp at hcount
  · apply keeps_readStore
    split
    · exact Sound.pure fun _ => trivial
    · exact keeps_complain _ _

theorem safe_labelHostImpl (hcount : 1 ≤ args.length) : Safe patient env (labelHostImpl args) := by
  unfold labelHostImpl
  split
  next => simp at hcount
  · apply keeps_readStore
    split
    · exact Sound.pure fun _ => trivial
    · exact keeps_complain _ _

theorem safe_dockerImpl :
    Safe patient env (emit (.called "docker" args) >>= fun _ => dockerImpl args) := by
  have hendless : Event.endless (.called "docker" args) = false := by simp [Event.endless]
  have hcall : fatalCall "docker" args = (flatten args).isEmpty := by simp [fatalCall]
  cases hflat : flatten args with
  | nil =>
      have hfatal : Event.fatal (.called "docker" args) = true := by
        simp [Event.fatal, hcall, hflat]
      apply keeps_fatal hfatal hendless trivial
      unfold dockerImpl flattenString
      rw [hflat]
      rfl
  | cons first rest =>
      have hfatal : fatalCall "docker" args = false := by simp [hcall, hflat]
      apply Sound.bind (keeps_emit (.called "docker" args) hfatal hendless fun _ => trivial)
      intro _ env₁ _ _ _
      apply Sound.bind (keeps_collect harmless_stringArg (flatten args))
      intro texts env₂ _ _ hlength
      cases texts with
      | nil => simp [hflat] at hlength
      | cons image command =>
          apply keeps_readStore
          have hsame := env₂.store.sameLabels_addContainer image command
          apply Sound.bind (keeps_writeStore fun hok =>
            ⟨hsame.consistent hok.consistent hok.consistent.connections, hsame.le⟩)
          intro _ env₃ _ _ hstore
          apply Sound.pure
          intro _
          change env₃.store.Has (.container env₂.store.containers.length)
          rw [hstore]
          simp [Store.Has]

theorem keeps_modifyContainer (i : ℕ) {f : AstContainer → AstContainer}
    (hlabels : ∀ c, (f c).labels = c.labels) (hexclusive : ∀ c, c.exclusive ⊆ (f c).exclusive) :
    Keeps patient env (modifyContainer i f) fun _ env' =>
      env'.store = { env.store with containers := env.store.containers.modify i f } := by
  apply keeps_readStore
  have hsame := env.store.sameLabels_modifyContainer i f hlabels hexclusive
  exact keeps_writeStore fun hok =>
    ⟨hsame.consistent hok.consistent hok.consistent.connections, hsame.le⟩

theorem harmless_setEnvHelper (k value : Ast) (env : Env) (a : Atom) :
    Harmless patient env (setEnvHelper k value a) := by
  unfold setEnvHelper
  split
  · exact keeps_fail _
  · split
    · split
      · apply Sound.weaken (keeps_modifyContainer _ ?_ ?_)
        · intro _ _ _ _ _
          trivial
        · intro _
          rfl
        · intro _
          exact subset_rfl
      · exact keeps_complain _ _
    · exact keeps_complain _ _

theorem harmless_setEnvLabel (k value : Ast) (env : Env) (target : Ast) :
    Harmless patient env (setEnvLabel k value target) := by
  apply keeps_readStore
  split
  · exact harmless_forEach (harmless_setEnvHelper k value) _
  · exact keeps_complain _ _

theorem harmless_setEnvTarget (k value : Ast) (env : Env) (target : Ast) :
    Harmless patient env (setEnvTarget k value target) := by
  unfold setEnvTarget
  split
  · exact harmless_setEnvHelper _ _ _ _
  · exact harmless_setEnvLabel _ _ _ _
  · exact harmless_setEnvLabel _ _ _ _
  · exact keeps_complain _ _

theorem safe_setEnvImpl (hcount : 3 ≤ args.length) : Safe patient env (setEnvImpl args) := by
  rcases three_args hcount with ⟨target, k, value, rest, rfl⟩
  apply Sound.bind (harmless_forEach (harmless_setEnvTarget k value) (flatten [target]))
  intro _ _ _ _ _
  exact safe_emptyList

/-! ### Placement -/

theorem keeps_excludeAtom (l : AstLabel) (pairs : List (String × String)) {a : Atom}
    (hhas : env.store.Has a) :
    Keeps patient env (excludeAtom l pairs a) fun _ env' => env'.store.Excluded pairs a := by
  unfold excludeAtom
  split
  next i =>
    apply Sound.weaken (keeps_modifyContainer i ?_ ?_)
    · intro _ env' _ _ hstore
      have hlt : i < env.store.containers.length := hhas
      have hc := List.getElem?_eq_getElem hlt
      let bound : AstContainer := { env.store.containers[i] with
        exclusive := env.store.containers[i].exclusive ∪ pairs.toFinset }
      have hbound : env'.store.containers[i]? = some bound := by
        rw [hstore]
        simp [hc, bound]
      exact ⟨i, bound, rfl, hbound, fun pair hmem =>
        Finset.mem_union_right _ (List.mem_toFinset.mpr hmem)⟩
    · intro _
      rfl
    · intro _
      exact Finset.subset_union_left
  · exact keeps_complain _ _

theorem enforced_of_excluded {store : Store} (hconsistent : store.Consistent)
    {labels : List AstLabel} (hresolved : ∀ l ∈ labels, Resolved store l)
    {pairs : List (String × String)} (hpairs : pairs = exclusivePairs (labels.map AstLabel.ident))
    (hexcluded : ∀ l ∈ labels, ∀ a ∈ l.elems, store.Excluded pairs a) :
    Enforced store (labels.map AstLabel.ident) where
  known := by
    intro name hmem
    rcases List.mem_map.mp hmem with ⟨l, hl, rfl⟩
    exact (hresolved l hl).known
  bound := by
    intro i c hc name hmem hcarries pair hpair
    rcases List.mem_map.mp hmem with ⟨l, hl, rfl⟩
    have hlabel : l.ident ∈ store.labelsOf (.container i) := by
      simpa [Store.labelsOf, hc] using hcarries
    rcases hresolved l hl with ⟨hpublic, _⟩ | hlookup
    · -- no container carries the label of the public internet
      rcases Option.isSome_iff_exists.mp (hconsistent.defined _ _ hlabel) with ⟨l', hl'⟩
      exact absurd hpublic (hconsistent.named _ l' hl').2
    · have helem := (hconsistent.members l.ident l hlookup _).mpr hlabel
      rcases hexcluded l hl _ helem with ⟨j, c', hij, hc', hbound⟩
      injection hij with hij
      rw [← hij, hc] at hc'
      injection hc' with hc'
      rw [hc']
      exact hbound pair (hpairs ▸ hpair)

theorem safe_placementImpl (hcount : 1 ≤ args.length) (hargs : Ast.Values env.store args) :
    Safe patient env (placementImpl args) := by
  unfold placementImpl
  split
  next => simp at hcount
  next ptype rest =>
    apply Sound.bind ((keeps_flattenLabel hargs.2).also fun _ => collect_labelArg_eq_ok)
    rintro labels env₁ _ hle₁ ⟨hresolved, hlabels⟩
    dsimp only
    split
    · exact keeps_fail _
    next htwo =>
      split
      next hexclusive =>
        have hinner : ∀ l ∈ labels, ∀ env', env'.Ok → env₁.store.Le env'.store →
            Keeps patient env' (forEach (excludeAtom l (exclusivePairs (labels.map AstLabel.ident)))
              l.elems) fun _ env'' => ∀ a ∈ l.elems,
                env''.store.Excluded (exclusivePairs (labels.map AstLabel.ident)) a := by
          intro l hl env' hok hle
          apply Sound.forEach (fun a _ _ hle' h => h.mono hle')
          intro a hmem env'' hok'' hle'
          exact keeps_excludeAtom l _
            (hok''.consistent.has ((hlabels l hl).mono (hle.trans hle')) hmem)
        apply Sound.bind (Sound.forEach (fun l _ _ hle' h a hmem => (h a hmem).mono hle')
          labels hinner)
        intro _ env₂ hok₂ hle₂ hexcluded
        have henforced : env₂.Ok → Enforced env₂.store (labels.map AstLabel.ident) :=
          fun hok => enforced_of_excluded hok.consistent
            (fun l hl => (hlabels l hl).mono hle₂) rfl hexcluded
        apply Sound.bind (keeps_emit (.placed (labels.map AstLabel.ident)) rfl rfl henforced)
        intro _ env₃ _ hle₃ _
        apply Sound.pure
        intro _
        have hle := hle₁.trans (hle₂.trans hle₃)
        have hplacement : Placement env₃.store (.ident "placement" :: .str ptype :: rest) {} rest
            labels :=
          { form := by rw [hexclusive]
            pos := rfl
            resolved := hresolved.imp fun _ _ h => hle.resolveLabel h
            two := by omega
            excluded := fun l hl a ha => (hexcluded l hl a ha).mono hle₃ }
        have hident : Scalar.Fits .value env₃.store (.ident "placement") := fun _ => by decide
        exact ⟨⟨hident, Ast.AllFit.mono hle _ _ hargs⟩, fun _ => ⟨rest, labels, hplacement⟩⟩
      · exact keeps_fail _
  · exact keeps_complain _ _

/-! ### Connections -/

theorem harmless_portRange (ports : Ast) : Harmless patient env (portRange ports) := by
  unfold portRange
  split
  · exact Sound.pure fun _ => trivial
  · split
    · exact Sound.pure fun _ => trivial
    · exact keeps_complain _ _
  · exact keeps_complain _ _

theorem harmless_connectLabels {low high : ℤ} (hports : 0 ≤ low ∧ low ≤ high ∧ high ≤ 65535)
    {source target : AstLabel} (hsource : Resolved env.store source)
    (htarget : Resolved env.store target) :
    Harmless patient env (connectLabels low high source target) := by
  unfold connectLabels
  split
  · exact keeps_fail _
  next hrange =>
    split
    · exact keeps_fail _
    next hself =>
      apply keeps_readStore
      apply harmless_write (env.store.sameLabels_setConnections _)
      intro hok c hmem
      rw [ConnectionSet.mem_insert] at hmem
      rcases hmem with rfl | hold
      · exact
          { ports := hports
            source := hsource.known
            target := htarget.known
            oneEnd := hself
            onePort := fun hpublic => by
              by_contra hne
              exact hrange ⟨hpublic, hne⟩ }
      · exact hok.consistent.connections c hold

theorem safe_connectImpl (hcount : 3 ≤ args.length) (hargs : Ast.Values env.store args) :
    Safe patient env (connectImpl args) := by
  unfold connectImpl
  split
  next ports source targets =>
    apply Sound.bind (harmless_portRange ports)
    rintro ⟨low, high⟩ env₁ _ hle₁ _
    dsimp only
    split
    · exact keeps_fail _
    next hports =>
      have hsource : Ast.Values env₁.store [source] :=
        ⟨Ast.Fits.mono hle₁ _ _ hargs.2.1, trivial⟩
      apply Sound.bind (keeps_flattenLabel hsource)
      intro sources env₂ _ hle₂ hsources
      have htargets : Ast.Values env₂.store targets :=
        Ast.AllFit.mono (hle₁.trans hle₂) _ _ hargs.2.2
      apply Sound.bind (keeps_flattenLabel htargets)
      intro targets' env₃ _ hle₃ htargets'
      have hloop : Harmless patient env₃
          (forEach (fun s => forEach (connectLabels low high s) targets') sources) := by
        apply Sound.weaken (Sound.forEach (fun _ _ _ _ _ => trivial) sources ?_)
        · intro _ _ _ _ _
          trivial
        · intro s hs env₄ _ hle₄
          apply Sound.weaken (Sound.forEach (fun _ _ _ _ _ => trivial) targets' ?_)
          · intro _ _ _ _ _
            trivial
          · intro t ht env₅ _ hle₅
            exact harmless_connectLabels (by omega)
              ((hsources s hs).mono (hle₃.trans (hle₄.trans hle₅)))
              ((htargets' t ht).mono (hle₄.trans hle₅))
      apply Sound.bind hloop
      intro _ _ _ _ _
      exact safe_emptyList
  next hother =>
    rcases two_args (by omega : 2 ≤ args.length) with ⟨first, second, rest, rfl⟩
    exact absurd rfl (hother _ _ _)

/-! ### Defining a label -/

theorem keeps_labelMembers {elem : Ast} (helem : elem.Value env.store) :
    Keeps patient env (labelMembers elem) fun atoms env' => ∀ a ∈ atoms, env'.store.Has a := by
  apply keeps_readStore
  split
  next l hl =>
    exact Sound.pure fun hok a hmem =>
      hok.consistent.has (resolved_of_resolveLabel hok.consistent helem hl) hmem
  · exact keeps_complain _ _

theorem keeps_labelTarget {elem : Ast} (helem : elem.Value env.store) :
    Keeps patient env (labelTarget elem) fun atoms env' => ∀ a ∈ atoms, env'.store.Has a := by
  unfold labelTarget
  split
  · apply Sound.pure
    intro _ a hmem
    rw [List.mem_singleton.mp hmem]
    exact helem
  · exact keeps_labelMembers helem
  · exact keeps_labelMembers helem
  · exact keeps_complain _ _

theorem readOnly_labelMembers (elem : Ast) : ReadOnly (labelMembers elem) := by
  apply ReadOnly.bind fun _ => rfl
  intro store
  split
  · exact fun _ => rfl
  · exact fun _ => rfl

theorem readOnly_labelTarget (elem : Ast) : ReadOnly (labelTarget elem) := by
  unfold labelTarget
  split
  · exact fun _ => rfl
  · exact readOnly_labelMembers _
  · exact readOnly_labelMembers _
  · exact fun _ => rfl

theorem safe_labelImpl (hcount : 1 ≤ args.length) (hargs : Ast.Values env.store args) :
    Safe patient env (labelImpl args) := by
  unfold labelImpl
  split
  next => simp at hcount
  next label rest =>
    split
    · exact keeps_fail _
    next hpublic =>
      apply keeps_readStore
      split
      · exact keeps_fail _
      next hresolve =>
        have hundefined : env.store.labels.lookup label = none := by
          simpa [Store.resolveLabel, hpublic] using hresolve
        have hcollect := Sound.collect (d := evalDiscipline patient) (s := env)
          (fun (atoms : List Atom) env' env'' (hle : env'.store.Le env''.store)
            (h : ∀ a ∈ atoms, env'.store.Has a) a hmem => hle.has a (h a hmem))
          (flatten rest) fun elem hmem env' _ hle =>
            keeps_labelTarget (Ast.Fits.mono hle _ elem (fits_flatten rest hargs.2 elem hmem))
        apply Sound.bind_readOnly (ReadOnly.collect readOnly_labelTarget _) hcollect
        intro groups hgroups
        have hatoms : ∀ a ∈ groups.flatten, env.store.Has a := by
          intro a hmem
          rcases List.mem_flatten.mp hmem with ⟨atoms, hatoms, ha⟩
          exact hgroups.2 atoms hatoms a ha
        apply keeps_readStore
        apply Sound.bind (keeps_writeStore fun hok =>
          ⟨hok.consistent.withLabel hundefined hatoms hpublic,
            Store.le_withLabel hok.consistent hundefined hatoms hpublic⟩)
        intro _ env' _ _ hstore
        apply Sound.pure
        intro _
        change env'.store.labels.lookup label = some ⟨label, groups.flatten⟩
        rw [hstore, Store.withLabel_lookup, if_pos rfl]
  · exact keeps_complain _ _

end Labels

/-! ## Machines -/

section Machines

variable {patient : Prop} {env : Env} {args : List Ast}

theorem setMachineAttributes_labels (attributes : List Ast) (machine : AstMachine) :
    (setMachineAttributes machine attributes).1.labels = machine.labels := by
  fun_induction setMachineAttributes machine attributes <;> simp_all

theorem harmless_unrecognized (unknown : Option Ast) :
    Harmless patient env (unrecognized unknown) := by
  cases unknown with
  | none => exact Sound.pure fun _ => trivial
  | some arg => exact keeps_complain _ _

theorem safe_machineImpl : Safe patient env (machineImpl args) := by
  unfold machineImpl
  have hlabels := setMachineAttributes_labels (flatten args) {}
  rcases hset : setMachineAttributes {} (flatten args) with ⟨machine, unknown⟩
  rw [hset] at hlabels
  dsimp only at hlabels ⊢
  apply Sound.bind (harmless_unrecognized unknown)
  intro _ env' _ _ _
  apply keeps_readStore
  have hsame := env'.store.sameLabels_addMachine machine hlabels
  apply Sound.bind (keeps_writeStore fun hok =>
    ⟨hsame.consistent hok.consistent hok.consistent.connections, hsame.le⟩)
  intro _ env'' _ _ hstore
  apply Sound.pure
  intro _
  change env''.store.Has (.machine env'.store.machines.length)
  rw [hstore]
  simp [Store.Has]

theorem safe_changeMachine (attributes : List Ast) {target : Ast}
    (htarget : target.Value env.store) : Safe patient env (changeMachine attributes target) := by
  unfold changeMachine
  split
  next i =>
    apply keeps_readStore
    split
    next hmissing =>
      have hlt : i < env.store.machines.length := htarget
      rw [List.getElem?_eq_getElem hlt] at hmissing
      cases hmissing
    next machine hmachine =>
      have hlabels := setMachineAttributes_labels attributes machine
      rcases hset : setMachineAttributes machine attributes with ⟨changed, unknown⟩
      rw [hset] at hlabels
      dsimp only at hlabels ⊢
      have hsame := env.store.sameLabels_setMachine i machine changed hmachine hlabels
      apply Sound.bind (keeps_writeStore fun hok =>
        ⟨hsame.consistent hok.consistent hok.consistent.connections, hsame.le⟩)
      intro _ env' _ hle _
      apply Sound.bind (harmless_unrecognized unknown)
      intro _ env'' _ hle' _
      exact Sound.pure fun _ => (hle.trans hle').has (.machine i) htarget
  · exact keeps_complain _ _

theorem safe_machineAttributeImpl (hcount : 1 ≤ args.length)
    (hargs : Ast.Values env.store args) : Safe patient env (machineAttributeImpl args) := by
  unfold machineAttributeImpl
  split
  next => simp at hcount
  next target attributes =>
    have hcollect := Sound.collect (d := evalDiscipline patient) (s := env)
      (fun value env' env'' (hle : env'.store.Le env''.store) (h : ValueOk value env') =>
        Ast.Fits.mono hle _ value h)
      (flatten [target]) fun elem hmem env' _ hle =>
        safe_changeMachine (flatten attributes)
          (Ast.Fits.mono hle _ elem (fits_flatten [target] ⟨hargs.1, trivial⟩ elem hmem))
    apply Sound.bind hcollect
    intro machines env' _ _ hmachines
    exact Sound.pure fun _ => (Ast.allFit_iff machines).mpr hmachines.2

end Machines

end Lang
end Di
