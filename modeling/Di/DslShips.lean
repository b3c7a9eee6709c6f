import Di.DslFollows
import Di.DslInvariant
import Di.DslRead

/-!
# Evaluating a program and its shipped form

The program that a minion parses has the same trees as the original one, up to
what the text does not show, except that an imported module has become an
S-expression.  Evaluation of the one follows evaluation of the other with the
same fuel, so both declare the same objects.
-/

namespace Di
namespace Lang

open Procedure
open List (Forall₂)

/-- A tree and the tree that is read from its text. -/
inductive ReadsAs : Ast → Ast → Prop
  | scalar {v w : Scalar} (hvalue : v.Alike w) : ReadsAs (.scalar v) (.scalar w)
  | sexp {as bs : List Ast} {p q : Position} (helems : Forall₂ ReadsAs as bs) :
      ReadsAs (.sexp as p) (.sexp bs q)

/-- A statement and what it becomes in the shipped program. -/
inductive Ships : Ast → Ast → Prop
  | tree {a b : Ast} (hreads : ReadsAs a b) : Ships a b
  | imported {name : String} {a b : Ast} {body body' : List Ast} {pos : Position}
      (hfirst : Ships a b) (hbody : Forall₂ Ships body body') :
      Ships (.moduleNode name (a :: body)) (.sexp (.ident "module" :: .str name :: b :: body') pos)

/-! ## Corresponding positions -/

mutual

/-- The positions of a statement and of what it becomes. -/
def Ast.places : Ast → Ast → List (Position × Position)
  | .sexp elems p, .sexp elems' q => (p, q) :: Ast.placesAll elems elems'
  | .moduleNode _ body, .sexp (_ :: _ :: body') _ => Ast.placesAll body body'
  | _, _ => []

def Ast.placesAll : List Ast → List Ast → List (Position × Position)
  | elem :: rest, elem' :: rest' => elem.places elem' ++ Ast.placesAll rest rest'
  | _, _ => []

end

/-- The places are positions of the first and positions of the second list, in order. -/
def PlacedIn (places : List (Position × Position)) (left right : List Position) : Prop :=
  (places.map Prod.fst).Sublist left ∧ (places.map Prod.snd).Sublist right

theorem placedIn_nil (left right : List Position) : PlacedIn [] left right :=
  ⟨List.nil_sublist left, List.nil_sublist right⟩

mutual

theorem places_placedIn : ∀ a b : Ast, PlacedIn (a.places b) a.positions b.positions
  | .sexp elems p, b => by
      cases b with
      | sexp elems' q =>
          have helems := placesAll_placedIn elems elems'
          exact ⟨helems.1.cons_cons p, helems.2.cons_cons q⟩
      | _ => exact placedIn_nil _ _
  | .moduleNode _ body, b => by
      cases b with
      | sexp elems' q =>
          rcases elems' with _ | ⟨x, _ | ⟨y, body'⟩⟩
          · exact placedIn_nil _ _
          · exact placedIn_nil _ _
          · have hbody := placesAll_placedIn body body'
            exact ⟨hbody.1, ((hbody.2.trans (List.sublist_append_right _ _)).trans
              (List.sublist_append_right _ _)).cons q⟩
      | _ => exact placedIn_nil _ _
  | .list _ _, _ => placedIn_nil _ _
  | .hmap _, _ => placedIn_nil _ _
  | .lambda _ _ _, _ => placedIn_nil _ _
  | .label _, _ => placedIn_nil _ _
  | .scalar _, _ => placedIn_nil _ _

theorem placesAll_placedIn : ∀ as bs : List Ast,
    PlacedIn (Ast.placesAll as bs) (Ast.positionsAll as) (Ast.positionsAll bs)
  | [], _ => placedIn_nil _ _
  | _ :: _, [] => placedIn_nil _ _
  | a :: as, b :: bs => by
      have hhead := places_placedIn a b
      have hrest := placesAll_placedIn as bs
      rw [Ast.placesAll, PlacedIn, List.map_append, List.map_append]
      exact ⟨hhead.1.append hrest.1, hhead.2.append hrest.2⟩

end

/-- The positions of a program correspond to those of its shipped form. -/
@[reducible]
def Placing.ofPrograms (program shipped : List Ast) : Placing where
  corresponds p q := (p, q) ∈ ({}, {}) :: Ast.placesAll program shipped
  nowhere := List.mem_cons_self

theorem exact_ofPrograms {program shipped : List Ast}
    (hprogram : ({} :: Ast.positionsAll program).Nodup)
    (hshipped : ({} :: Ast.positionsAll shipped).Nodup) :
    (Placing.ofPrograms program shipped).Exact := by
  have hfst : ((({}, {}) :: Ast.placesAll program shipped).map Prod.fst).Nodup := by
    rw [List.map_cons]
    exact hprogram.sublist ((placesAll_placedIn program shipped).1.cons_cons {})
  have hsnd : ((({}, {}) :: Ast.placesAll program shipped).map Prod.snd).Nodup := by
    rw [List.map_cons]
    exact hshipped.sublist ((placesAll_placedIn program shipped).2.cons_cons {})
  intro p q p' q' hp hq
  constructor
  · exact fun heq => congrArg Prod.snd (List.inj_on_of_nodup_map hfst hp hq heq)
  · exact fun heq => congrArg Prod.fst (List.inj_on_of_nodup_map hsnd hp hq heq)

section Corresponds

variable [Placing]

/-- The positions of the two trees correspond. -/
def Placed (a b : Ast) : Prop :=
  ∀ place ∈ a.places b, Placing.corresponds place.1 place.2

theorem placed_of_placesAll {rel : Ast → Ast → Prop} {as bs : List Ast}
    (hrel : Forall₂ rel as bs)
    (hplaces : ∀ place ∈ Ast.placesAll as bs, Placing.corresponds place.1 place.2) :
    Forall₂ (fun a b => rel a b ∧ Placed a b) as bs := by
  induction hrel with
  | nil => exact .nil
  | cons hhead _ ih =>
      rw [Ast.placesAll, List.forall_mem_append] at hplaces
      exact .cons ⟨hhead, hplaces.1⟩ (ih hplaces.2)

mutual

theorem alike_of_readsAs : ∀ a b : Ast, ReadsAs a b → Placed a b → Alike a b
  | .scalar _, _, .scalar hvalue, _ => .scalar hvalue
  | .sexp as _, _, .sexp helems, hplaced => by
      rw [Placed, Ast.places, List.forall_mem_cons] at hplaced
      exact .sexp (allAlike_of_readsAs as _ helems hplaced.2) hplaced.1

theorem allAlike_of_readsAs : ∀ as bs : List Ast, Forall₂ ReadsAs as bs →
    (∀ place ∈ Ast.placesAll as bs, Placing.corresponds place.1 place.2) → AllAlike as bs
  | [], _, .nil, _ => .nil
  | a :: as, _, .cons hhead htail, hplaces => by
      rw [Ast.placesAll, List.forall_mem_append] at hplaces
      exact .cons (alike_of_readsAs a _ hhead hplaces.1) (allAlike_of_readsAs as _ htail hplaces.2)

end

end Corresponds

/-! ## Modules in a text -/

theorem lookup_module (rt : Runtime) (fuel : ℕ) (ev : Ast → EvalM Ast) :
    (funcImplMap rt fuel ev).lookup "module" = some ⟨moduleImpl rt ev, 2, true⟩ := rfl

theorem eval_module_sexp (rt : Runtime) (fuel : ℕ) (name : String) (first : Ast)
    (body : List Ast) (pos : Position) :
    eval rt (fuel + 2) (.sexp (.ident "module" :: .str name :: first :: body) pos) =
      mapError (.located pos) (evalModule rt (eval rt (fuel + 1)) name (first :: body)) := by
  have hhead : eval rt (fuel + 1) (.ident "module") = pure (.ident "module") := by
    change evalIdent rt fuel (eval rt fuel) "module" = _
    unfold evalIdent isBuiltin
    rw [lookup_module]
    rfl
  have hname : eval rt (fuel + 1) (.str name) = pure (.str name) := rfl
  change evalSexp rt (fuel + 1) (eval rt (fuel + 1))
    (.ident "module" :: .str name :: first :: body) pos = _
  unfold evalSexp
  simp only
  rw [hhead, mapError_pure, pure_bind]
  unfold applyHead
  simp only
  rw [lookup_module]
  simp only [List.length_cons]
  rw [if_neg (by omega)]
  unfold callBuiltin
  simp only [if_true]
  unfold moduleImpl
  simp only
  rw [hname, pure_bind]

theorem fails_evalModule (rt : Runtime) (name : String) (first : Ast) (body : List Ast) :
    Fails (evalModule rt (eval rt 0) name (first :: body)) := by
  apply Fails.bind
  apply Fails.within
  apply Fails.bind
  exact Fails.bind fails_outOfFuel _

/-! ## Evaluation -/

section Evaluation

variable [Placing]

/-- A builtin on alike arguments. -/
def FuncImpl.Tracks (impl : FuncImpl) : Prop :=
  ∀ args args', AllAlike args args' → Lang.Tracks (impl.run args) (impl.run args') Alike

theorem tracks_funcImplMap (rt : Runtime) (fuel : ℕ) {ev : Ast → EvalM Ast} (hev : TracksEval ev) :
    ∀ entry ∈ funcImplMap rt fuel ev, entry.2.Tracks := by
  unfold funcImplMap
  simp only [List.forall_mem_cons, List.not_mem_nil, false_implies, implies_true, and_true]
  exact ⟨
    fun _ _ hargs => tracks_notImpl hev hargs,
    fun _ _ hargs => tracks_arithFun _ hargs,
    fun _ _ hargs => tracks_arithFun _ hargs,
    fun _ _ hargs => tracks_plusImpl hargs,
    fun _ _ hargs => tracks_arithFun _ hargs,
    fun _ _ hargs => tracks_arithFun _ hargs,
    fun _ _ hargs => tracks_compareFun _ hargs,
    fun _ _ hargs => tracks_eqImpl hargs,
    fun _ _ hargs => tracks_compareFun _ hargs,
    fun _ _ hargs => tracks_andImpl hev hargs,
    fun _ _ hargs => tracks_applyImpl hev hargs,
    fun _ _ hargs => tracks_boolImpl hargs,
    fun _ _ hargs => tracks_carImpl hargs,
    fun _ _ hargs => tracks_cdrImpl hargs,
    fun _ _ hargs => tracks_connectImpl hargs,
    fun _ _ hargs => tracks_consImpl hargs,
    fun _ _ hargs => tracks_rangeTypeImpl _ hargs,
    fun _ _ hargs => tracks_defineImpl hev hargs,
    fun _ _ hargs => tracks_diskSizeImpl hargs,
    fun _ _ hargs => tracks_dockerImpl hargs,
    fun _ _ hargs => tracks_wrapString (fun _ => .scalar (.same _ rfl)) _ hargs,
    fun _ _ hargs => tracks_hmapImpl hev hargs,
    fun _ _ hargs => tracks_hmapGetImpl hargs,
    fun _ _ hargs => tracks_hmapContainsImpl hargs,
    fun _ _ hargs => tracks_hmapSetImpl hargs,
    fun _ _ hargs => tracks_hmapKeysImpl rt hargs,
    fun _ _ hargs => tracks_hmapValuesImpl rt hargs,
    fun _ _ hargs => tracks_ifImpl hev hargs,
    fun _ _ _ => tracks_fail,
    fun _ _ hargs => tracks_labelImpl hargs,
    fun _ _ hargs => tracks_labelNameImpl hargs,
    fun _ _ hargs => tracks_labelHostImpl hargs,
    fun _ _ hargs => tracks_lambdaImpl hargs,
    fun _ _ hargs => tracks_letImpl hev hargs,
    fun _ _ hargs => tracks_lenImpl hargs,
    fun _ _ hargs => tracks_logImpl hargs,
    fun _ _ hargs => tracks_listImpl hargs,
    fun _ _ hargs => tracks_machineImpl hargs,
    fun _ _ hargs => tracks_machineAttributeImpl hargs,
    fun _ _ hargs => tracks_makeListImpl hev hargs,
    fun _ _ hargs => tracks_mapImpl hev hargs,
    fun _ _ hargs => tracks_moduleImpl rt hev hargs,
    fun _ _ hargs => tracks_nthImpl hargs,
    fun _ _ hargs => tracks_orImpl hev hargs,
    fun _ _ hargs => tracks_placementImpl hargs,
    fun _ _ hargs => tracks_wrapString (fun _ => .scalar (.same _ rfl)) _ hargs,
    fun _ _ _ => tracks_panicImpl,
    fun _ _ hargs => tracks_prognImpl hargs,
    fun _ _ hargs => tracks_assertString (fun _ => .scalar (.same _ rfl)) hargs,
    fun _ _ hargs => tracks_reduceImpl hev hargs,
    fun _ _ hargs => tracks_wrapString (fun _ => .scalar (.same _ rfl)) _ hargs,
    fun _ _ hargs => tracks_rangeTypeImpl _ hargs,
    fun _ _ hargs => tracks_rangeImpl fuel hargs,
    fun _ _ hargs => tracks_wrapString (fun _ => .scalar (.same _ rfl)) _ hargs,
    fun _ _ hargs => tracks_setEnvImpl hargs,
    fun _ _ hargs => tracks_assertString (fun _ => .scalar (.same _ rfl)) hargs,
    fun _ _ hargs => tracks_sprintfImpl rt hargs⟩

section Calls

variable {ev : Ast → EvalM Ast} {args args' : List Ast}

theorem tracks_evalLambda (hev : TracksEval ev) (names : List String)
    {body body' : List Ast} (hbody : AllAlike body body') {c d : Ctx} (hctx : CtxAlike c d)
    (hargs : AllAlike args args') :
    Tracks (evalLambda ev names body c args) (evalLambda ev names body' d args') Alike := by
  unfold evalLambda
  rw [← hargs.length_eq]
  split
  · exact tracks_failWith
  · apply tracks_inCtx hctx
    apply Follows.bind (tracks_collect hev hargs)
    intro values values' hvalues
    apply tracks_get
    intro s t halike
    apply Follows.bind (tracks_inCtx (.cons (alike_bindArgs names hvalues .nil) halike.ctx)
      (tracks_calling (tracks_collect hev hbody)))
    intro results results' hresults
    rcases rel_cases (alike_getLast? hresults) with ⟨ha, hb⟩ | ⟨a, b, ha, hb, hvalue⟩
    · rw [ha]
      exact Follows.crash
    · rw [ha, hb]
      exact Follows.pure hvalue

theorem tracks_callBuiltin (hev : TracksEval ev) (name : String) {impl : FuncImpl}
    (himpl : impl.Tracks) (hargs : AllAlike args args') :
    Tracks (callBuiltin ev name impl args) (callBuiltin ev name impl args') Alike := by
  unfold callBuiltin
  split
  · exact himpl args args' hargs
  · apply Follows.bind (tracks_collect hev hargs)
    intro values values' hvalues
    apply Follows.bind Follows.emit
    intro _ _ _
    exact himpl values values' hvalues

theorem tracks_applyHead (rt : Runtime) (fuel : ℕ) (hev : TracksEval ev)
    (pos pos' : Position) (hargs : AllAlike args args') {first first' : Ast}
    (hfirst : Alike first first') :
    Tracks (applyHead rt fuel ev pos args first) (applyHead rt fuel ev pos' args' first')
      Alike := by
  unfold applyHead
  split
  next name =>
    rw [hfirst.eq_of_settled rfl]
    simp only
    cases hlookup : (funcImplMap rt fuel ev).lookup name with
    | none => exact Follows.crash
    | some impl =>
        have himpl := tracks_funcImplMap rt fuel hev _ (mem_of_lookup hlookup)
        simp only
        rw [← hargs.length_eq]
        split
        · exact Follows.throw
        · exact Follows.mapError (tracks_callBuiltin hev name himpl hargs)
  · cases hfirst with
    | lambda hbody hctx =>
        apply Follows.mapError
        apply Follows.bind (tracks_collect hev hargs)
        intro values values' hvalues
        exact tracks_evalLambda hev _ hbody hctx hvalues
  · apply Follows.failed
    intro s a hok
    exact fails_complain _ _ s a ((mapError_ok_iff _ _ s a).mp hok)

theorem tracks_evalSexp (rt : Runtime) (fuel : ℕ) (hev : TracksEval ev)
    (pos pos' : Position) {elems elems' : List Ast} (helems : AllAlike elems elems') :
    Tracks (evalSexp rt fuel ev elems pos) (evalSexp rt fuel ev elems' pos') Alike := by
  cases helems with
  | nil => exact Follows.throw
  | cons hhead hargs =>
      apply Follows.bind (Follows.mapError (hev _ _ hhead))
      intro first first' hfirst
      exact tracks_applyHead rt fuel hev pos pos' hargs hfirst

theorem tracks_evalIdent (rt : Runtime) (fuel : ℕ) (ev : Ast → EvalM Ast) (name : String) :
    Tracks (evalIdent rt fuel ev name) (evalIdent rt fuel ev name) Alike := by
  unfold evalIdent
  split
  · exact Follows.pure (.scalar (.same _ rfl))
  · apply tracks_get
    intro s t halike
    rcases rel_cases (alike_find halike.ctx name) with ⟨ha, hb⟩ | ⟨a, b, ha, hb, hvalue⟩
    · rw [ha]
      exact tracks_fail
    · rw [ha, hb]
      exact Follows.pure hvalue

theorem tracks_evalStep (rt : Runtime) (fuel : ℕ) (hev : TracksEval ev) :
    TracksEval (evalStep rt fuel ev) := by
  intro a b halike
  cases halike with
  | @scalar v w hvalue =>
      cases hvalue with
      | same _ hsettled =>
          cases v with
          | ident name => exact tracks_evalIdent rt fuel ev name
          | _ => exact Follows.pure (.scalar (.same _ hsettled))
      | whole htext hvalue => exact Follows.pure (.scalar (.whole htext hvalue))
  | sexp helems _ => exact tracks_evalSexp rt fuel hev _ _ helems
  | list helems =>
      apply Follows.bind (tracks_collect hev helems)
      intro values values' hvalues
      exact Follows.pure (.list hvalues)
  | moduleNode hbody => exact tracks_evalModule rt _ hev hbody
  | hmap hentries => exact Follows.pure (.hmap hentries)
  | lambda hbody hctx => exact Follows.pure (.lambda hbody hctx)
  | label l => exact Follows.pure (.label l)

theorem tracks_eval (rt : Runtime) (fuel : ℕ) : TracksEval (eval rt fuel) := by
  induction fuel with
  | zero => exact fun _ _ _ => Follows.outOfFuel
  | succ fuel ih => exact tracks_evalStep rt fuel ih

end Calls

/-- Without fuel a module that has a statement cannot be evaluated either, so the name and the
head of the S-expression cost nothing extra. -/
theorem tracks_eval_ships (rt : Runtime) (fuel : ℕ) {a b : Ast} (hships : Ships a b)
    (hplaced : Placed a b) : Tracks (eval rt fuel a) (eval rt fuel b) Alike := by
  induction fuel generalizing a b with
  | zero => exact Follows.outOfFuel
  | succ fuel ih =>
      cases hships with
      | tree hreads => exact tracks_eval rt (fuel + 1) a b (alike_of_readsAs a b hreads hplaced)
      | @imported name first first' body body' pos hfirst hbody =>
          cases fuel with
          | zero => exact Follows.failed (fails_evalModule rt name first body)
          | succ fuel =>
              have hmodule := tracks_evalModule rt name (fun a b h => @ih a b h.1 h.2)
                (placed_of_placesAll (.cons hfirst hbody) hplaced)
              intro s t value halike hok hquiet
              rw [eval_module_sexp, mapError_final]
              simp only [mapError_ok_iff]
              exact hmodule s t value halike hok hquiet

end Evaluation

/-! ## Programs -/

/-- Positions tell the S-expressions of the program apart, and from those that the evaluator
makes; a file that is imported twice has its S-expressions in the program twice. -/
def unambiguous (program : List Ast) : Bool := decide ({} :: Ast.positionsAll program).Nodup

/-- The text of the program determines what the run sees. -/
def Event.determined (program : List Ast) : Event → Bool
  | .sighted => false
  | .matched => unambiguous program
  | _ => true

/-- The shipped form of a program whose evaluation looks at nothing that its
text does not determine is evaluated as well, and leaves the same store. -/
theorem evalProgram_ships (rt : Runtime) (fuel : ℕ) {program shipped : List Ast}
    (hships : Forall₂ Ships program shipped)
    (hpositions : ({} :: Ast.positionsAll shipped).Nodup) {values : List Ast}
    (hok : (evalProgram rt fuel program).outcome = .ok values)
    (hdetermined : ∀ event ∈ (evalProgram rt fuel program).trace,
      event.determined program = true) :
    (∃ values', (evalProgram rt fuel shipped).outcome = .ok values') ∧
      (evalProgram rt fuel shipped).final.store = (evalProgram rt fuel program).final.store := by
  let _ : Placing := .ofPrograms program shipped
  have hquiet : ∀ event ∈ (evalProgram rt fuel program).trace, event.quiet := by
    intro event hmem
    have hevent := hdetermined event hmem
    cases event with
    | sighted => cases hevent
    | matched => exact exact_ofPrograms (of_decide_eq_true hevent) hpositions
    | _ => trivial
  have hplaced : Forall₂ (fun a b => Ships a b ∧ Placed a b) program shipped :=
    placed_of_placesAll hships fun _ hmem => List.mem_cons_of_mem _ hmem
  have hstart : Env.initial.Alike Env.initial := ⟨rfl, .cons .nil .nil, rfl⟩
  have hfollows := Follows.collect (fun a b h => tracks_eval_ships rt fuel h.1 h.2) hplaced
  rcases hfollows _ _ values hstart hok hquiet with ⟨halike, values', hvalues', _⟩
  exact ⟨⟨values', hvalues'⟩, halike.store.symm⟩

end Lang
end Di
