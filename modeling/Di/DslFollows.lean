import Di.DslDeepEqual

/-!
# Builtins on alike arguments

A run on alike arguments, from alike contexts over the same store, follows the
original run: as long as the original looks at nothing that its text does not
determine, the other run succeeds as well, with an alike value and the same
store.  One lemma for each builtin; whatever is outside of the program answers both runs
in the same way.
-/

namespace Di
namespace Lang

open Procedure
open List (Forall₂)

theorem fails_complain {α : Type} (text : String) (culprit : Ast) :
    Fails (complain text culprit : EvalM α) :=
  Fails.after (fun _ => fails_throw _) _

theorem fails_unrecognized (arg : Ast) : Fails (unrecognized (some arg)) := fails_complain _ arg

variable [Placing]

structure Env.Alike (s t : Env) : Prop where
  store : s.store = t.store
  ctx : CtxAlike s.ctx t.ctx
  visits : s.visits = t.visits

/-- The text of the program determines what the run sees. -/
def Event.quiet : Event → Prop
  | .sighted => False
  | .matched => Placing.Exact
  | _ => True

abbrev Tracks {α β : Type} (m : EvalM α) (n : EvalM β) (post : α → β → Prop) : Prop :=
  Follows Env.Alike Event.quiet m n post

def TracksEval (ev : Ast → EvalM Ast) : Prop :=
  ∀ a b, Alike a b → Tracks (ev a) (ev b) Alike

theorem Alike.eq_of_settled {v : Scalar} {b : Ast} (halike : Alike (.scalar v) b)
    (hsettled : v.settled = true) : b = .scalar v := by
  cases halike with
  | scalar hvalue => rw [hvalue.eq_of_settled hsettled]

section Primitives

variable {α β : Type} {post : α → β → Prop}

theorem tracks_fail {text : String} {n : EvalM β} : Tracks (fail text : EvalM α) n post :=
  Follows.throw

theorem tracks_complain {text : String} {culprit : Ast} {n : EvalM β} :
    Tracks (complain text culprit : EvalM α) n post :=
  Follows.failed (fails_complain text culprit)

theorem tracks_readStore {f : Store → EvalM α} {g : Store → EvalM β}
    (hf : ∀ store, Tracks (f store) (g store) post) :
    Tracks (readStore >>= f) (readStore >>= g) post := by
  have hread : Tracks readStore readStore Eq :=
    Follows.bind Follows.get fun _ _ halike => Follows.pure halike.store
  apply Follows.bind hread
  rintro store _ rfl
  exact hf store

theorem tracks_failWith {text : Store → String} {n : EvalM β} :
    Tracks (readStore >>= fun store => fail (text store) : EvalM α) n post :=
  Follows.failed (Fails.after (fun _ => fails_throw _) _)

theorem tracks_get {f : Env → EvalM α} {g : Env → EvalM β}
    (hf : ∀ s t, s.Alike t → Tracks (f s) (g t) post) :
    Tracks (get >>= f) (get >>= g) post :=
  Follows.bind Follows.get hf

theorem tracks_writeStore (store : Store) :
    Tracks (writeStore store) (writeStore store) fun _ _ => True := by
  apply Follows.bind (Follows.modify fun s t halike => ⟨rfl, halike.ctx, halike.visits⟩)
  intro _ _ _
  exact Follows.emit.weaken fun _ _ _ => trivial

theorem tracks_sightUnless (determined determined' : Bool) :
    Tracks (sightUnless determined) (sightUnless determined') fun _ _ => determined = true := by
  intro s t _ halike _ hquiet
  have hdetermined : determined = true := by
    by_contra hfalse
    rw [Bool.not_eq_true] at hfalse
    subst hfalse
    exact hquiet .sighted (List.mem_singleton_self _)
  subst hdetermined
  cases determined' with
  | true => exact ⟨halike, (), rfl, rfl⟩
  | false => exact ⟨halike, (), rfl, rfl⟩

theorem tracks_sighted {determined : Bool} (hlooks : determined ≠ true) {f : Unit → EvalM α}
    {n : EvalM β} : Tracks (sightUnless determined >>= f) n post := by
  intro s t a _ _ hquiet
  cases determined with
  | true => exact absurd rfl hlooks
  | false =>
      have hlook : (sightUnless false s).outcome = .ok () := rfl
      rw [bind_ok hlook] at hquiet
      exact (hquiet .sighted (List.mem_append_left _ (List.mem_singleton_self _))).elim

theorem tracks_matchUnless (apart apart' : Bool) :
    Tracks (matchUnless apart) (matchUnless apart') fun _ _ => apart = true ∨ Placing.Exact := by
  intro s t _ halike _ hquiet
  have hmatched : apart = true ∨ Placing.Exact := by
    cases apart with
    | true => exact .inl rfl
    | false => exact .inr (hquiet .matched (List.mem_singleton_self _))
  cases apart <;> cases apart' <;> exact ⟨halike, (), rfl, hmatched⟩

theorem tracks_lookOutside : Tracks lookOutside lookOutside Eq := by
  apply tracks_get
  intro s t halike
  apply Follows.bind (Follows.modify fun _ _ h => ⟨h.store, h.ctx, congrArg (· + 1) h.visits⟩)
  intro _ _ _
  exact Follows.pure halike.visits

theorem tracks_inCtx {c d : Ctx} {m : EvalM α} {n : EvalM β} (hctx : CtxAlike c d)
    (hm : Tracks m n post) : Tracks (inCtx c m) (inCtx d n) post :=
  Follows.within (fun _ _ halike => ⟨halike.store, hctx, halike.visits⟩)
    (fun _ _ _ _ halike halike' => ⟨halike'.store, halike.ctx, halike'.visits⟩) hm

theorem tracks_bindHere (name : String) {a b : Ast} (hvalue : Alike a b) :
    Tracks (bindHere name a) (bindHere name b) fun _ _ => True :=
  Follows.modify fun _ _ halike => ⟨halike.store, alike_bind halike.ctx name hvalue, halike.visits⟩

theorem tracks_emptyList :
    Tracks (pure emptyList) (pure emptyList) Alike := Follows.pure alike_emptyList

theorem tracks_test {a b : Ast} (halike : Alike a b) : Tracks (test a) (test b) Eq := by
  apply Follows.bind (tracks_sightUnless _ _)
  intro _ _ hdecisive
  apply Follows.pure
  cases halike with
  | scalar hvalue => exact hvalue.toBool_eq hdecisive
  | list helems => cases helems <;> rfl
  | hmap _ => rfl
  | sexp _ _ => rfl
  | lambda _ _ => rfl
  | moduleNode _ => rfl
  | label _ => rfl

theorem tracks_calling {m : EvalM α} {n : EvalM β} (hm : Tracks m n post) :
    Tracks (calling m) (calling n) post := by
  apply tracks_get
  intro s t _
  apply Follows.bind Follows.emit
  intro _ _ _
  exact Follows.within (fun _ _ halike => ⟨halike.store, halike.ctx, halike.visits⟩)
    (fun _ _ _ _ _ halike' => ⟨halike'.store, halike'.ctx, halike'.visits⟩) hm

theorem tracks_hashKey {es fs : List (Scalar × Ast)} {a b : Ast} (halike : Alike a b) :
    Tracks (hashKey es a) (hashKey fs b)
      fun k l => k.Alike l ∧ SameKey Scalar.Alike es k l := by
  apply Follows.bind Follows.emit
  intro _ _ _
  cases halike with
  | scalar hvalue =>
      apply Follows.bind (tracks_sightUnless _ _)
      intro _ _ hshown
      exact Follows.pure ⟨hvalue, sameKey_scalar hvalue hshown⟩
  | list _ => exact Follows.crash
  | hmap _ => exact Follows.crash
  | sexp _ _ => exact Follows.crash
  | lambda _ _ => exact Follows.crash
  | moduleNode _ => exact Follows.crash
  | label _ => exact Follows.crash

theorem tracks_collect {f g : Ast → EvalM α} {as bs : List Ast} {rel : α → α → Prop}
    (hf : ∀ a b, Alike a b → Tracks (f a) (g b) rel) (helems : AllAlike as bs) :
    Tracks (collect f as) (collect g bs) (Forall₂ rel) :=
  Follows.collect hf helems

theorem tracks_collect_eq {f g : Ast → EvalM α} {as bs : List Ast}
    (hf : ∀ a b, Alike a b → Tracks (f a) (g b) Eq) (helems : AllAlike as bs) :
    Tracks (collect f as) (collect g bs) Eq :=
  (Follows.collect hf helems).weaken fun _ _ hvalues => List.forall₂_eq_eq_eq ▸ hvalues

theorem tracks_forEach {γ : Type} {f g : γ → EvalM Unit}
    (hf : ∀ a, Tracks (f a) (g a) fun _ _ => True) (list : List γ) :
    Tracks (forEach f list) (forEach g list) fun _ _ => True := by
  have hsame : Forall₂ Eq list list := List.forall₂_same.mpr fun _ _ => rfl
  apply Follows.forEach _ hsame
  rintro a _ rfl
  exact hf a

end Primitives

/-! ## Arithmetic, text and lists -/

section Plain

variable {args args' : List Ast}

theorem tracks_intArg {a b : Ast} (halike : Alike a b) : Tracks (intArg a) (intArg b) Eq := by
  unfold intArg
  split
  · rw [halike.eq_of_settled rfl]
    exact Follows.pure rfl
  · exact tracks_complain

theorem tracks_arithFun (op : ℤ → ℤ → Option ℤ) (hargs : AllAlike args args') :
    Tracks (arithFun op args) (arithFun op args') Alike := by
  apply Follows.bind (tracks_collect_eq (fun _ _ => tracks_intArg) hargs)
  rintro ints _ rfl
  split
  · exact Follows.crash
  · split
    · exact Follows.pure (.scalar (.same _ rfl))
    · exact Follows.crash

theorem tracks_compareFun (op : ℤ → ℤ → Bool) (hargs : AllAlike args args') :
    Tracks (compareFun op args) (compareFun op args') Alike := by
  apply Follows.bind (tracks_collect_eq (fun _ _ => tracks_intArg) hargs)
  rintro ints _ rfl
  split
  · exact Follows.pure (.scalar (.same _ rfl))
  · exact Follows.crash

theorem tracks_concatArg {a b : Ast} (halike : Alike a b) :
    Tracks (concatArg a) (concatArg b) Eq := by
  unfold concatArg
  split
  · rw [halike.eq_of_settled rfl]
    exact Follows.pure rfl
  · exact tracks_complain

theorem tracks_plusImpl (hargs : AllAlike args args') :
    Tracks (plusImpl args) (plusImpl args') Alike := by
  have harith := tracks_arithFun (fun a b => some (wrap (a + b))) hargs
  cases hargs with
  | nil => exact harith
  | cons hhead htail =>
      have hall := Forall₂.cons hhead htail
      cases hhead with
      | @scalar v w hvalue =>
          cases hvalue with
          | same =>
              cases v with
              | str text =>
                  apply Follows.bind (tracks_collect_eq (fun _ _ => tracks_concatArg) hall)
                  rintro texts _ rfl
                  exact Follows.pure (.scalar (.same _ rfl))
              | _ => exact harith
          | whole _ _ => exact harith
      | _ => exact harith

theorem tracks_eqImpl (hargs : AllAlike args args') :
    Tracks (eqImpl args) (eqImpl args') Alike := by
  unfold eqImpl
  split
  · cases hargs with
    | cons ha hrest =>
        cases hrest with
        | cons hb _ =>
            apply tracks_readStore
            intro store
            apply Follows.bind (tracks_sightUnless _ _)
            intro _ _ hshown
            rw [decide_eq_true_eq] at hshown
            apply Follows.bind (tracks_matchUnless _ _)
            intro _ _ hmatched
            have hverdict := hmatched.elim (deepEqual_of_apart store ha hb)
              fun hexact => deepEqual_shown hexact store _ _ _ _ ha hb
            rw [hverdict, ← hshown]
            exact Follows.pure (.scalar (.same _ rfl))
  · exact Follows.crash

theorem tracks_stringArg {a b : Ast} (halike : Alike a b) :
    Tracks (stringArg a) (stringArg b) Eq := by
  unfold stringArg
  split
  · rw [halike.eq_of_settled rfl]
    exact Follows.pure rfl
  · exact tracks_complain

theorem tracks_wrapString {wrapper : String → Ast}
    (hwrapper : ∀ text, Alike (wrapper text) (wrapper text))
    (message : String) (hargs : AllAlike args args') :
    Tracks (wrapString wrapper message args) (wrapString wrapper message args') Alike := by
  unfold wrapString
  split
  · exact Follows.crash
  next text rest =>
    cases hargs with
    | cons hhead _ =>
        rw [hhead.eq_of_settled rfl]
        exact Follows.pure (hwrapper text)
  · exact tracks_complain

theorem tracks_assertString {wrapper : String → Ast}
    (hwrapper : ∀ text, Alike (wrapper text) (wrapper text)) (hargs : AllAlike args args') :
    Tracks (assertString wrapper args) (assertString wrapper args') Alike := by
  unfold assertString
  split
  next text rest =>
    cases hargs with
    | cons hhead _ =>
        rw [hhead.eq_of_settled rfl]
        exact Follows.pure (hwrapper text)
  · exact Follows.crash

theorem tracks_diskSizeImpl (hargs : AllAlike args args') :
    Tracks (diskSizeImpl args) (diskSizeImpl args') Alike := by
  unfold diskSizeImpl
  split
  · exact Follows.crash
  · cases hargs with
    | cons hhead _ =>
        rw [hhead.eq_of_settled rfl]
        exact Follows.pure (.scalar (.same _ rfl))
  · exact tracks_complain

theorem toFloat_eq_of_alike {a b : Ast} (halike : Alike a b) : toFloat a = toFloat b := by
  cases halike with
  | scalar hvalue => exact hvalue.toFloat_eq
  | _ => rfl

theorem tracks_rangeTypeImpl (ident : String) (hargs : AllAlike args args') :
    Tracks (rangeTypeImpl ident args) (rangeTypeImpl ident args') Alike := by
  unfold rangeTypeImpl
  split
  · exact Follows.crash
  next low =>
    cases hargs with
    | @cons _ low' _ _ hlow hrest =>
        cases hrest
        rw [toFloat_eq_of_alike hlow]
        cases htoFloat : toFloat low' with
        | none => exact tracks_failWith
        | some x =>
            simp only [htoFloat]
            exact Follows.pure (.scalar (.same _ rfl))
  next low high rest =>
    cases hargs with
    | @cons _ low' _ _ hlow hrest =>
        cases hrest with
        | @cons _ high' _ _ hhigh _ =>
            rw [toFloat_eq_of_alike hlow, toFloat_eq_of_alike hhigh]
            split
            next x y hx hy =>
              simp only [hx, hy]
              exact Follows.pure (.scalar (.same _ rfl))
            · exact tracks_failWith

theorem tracks_listImpl (hargs : AllAlike args args') :
    Tracks (listImpl args) (listImpl args') Alike :=
  Follows.pure (alike_appended hargs)

theorem tracks_lenImpl (hargs : AllAlike args args') :
    Tracks (lenImpl args) (lenImpl args') Alike := by
  unfold lenImpl
  split
  · exact Follows.crash
  · cases hargs with
    | cons hhead _ =>
        cases hhead with
        | list helems =>
            rw [helems.length_eq]
            exact Follows.pure (.scalar (.same _ rfl))
  · exact tracks_complain

theorem tracks_carImpl (hargs : AllAlike args args') :
    Tracks (carImpl args) (carImpl args') Alike := by
  unfold carImpl
  split
  · exact Follows.crash
  · cases hargs with
    | cons hhead _ =>
        cases hhead with
        | list helems =>
            cases helems with
            | cons hfirst _ => exact Follows.pure hfirst
  · exact tracks_complain

theorem tracks_cdrImpl (hargs : AllAlike args args') :
    Tracks (cdrImpl args) (cdrImpl args') Alike := by
  unfold cdrImpl
  split
  · exact Follows.crash
  · cases hargs with
    | cons hhead _ =>
        cases hhead with
        | list helems =>
            cases helems with
            | cons _ hrest => exact Follows.pure (.list hrest)
  · exact tracks_complain

theorem tracks_consImpl (hargs : AllAlike args args') :
    Tracks (consImpl args) (consImpl args') Alike := by
  unfold consImpl
  split
  · cases hargs with
    | cons hfirst hrest =>
        cases hrest with
        | cons hlist _ =>
            cases hlist with
            | list helems => exact Follows.pure (.list (.cons hfirst helems))
  · exact tracks_complain
  · exact Follows.crash

theorem tracks_nthImpl (hargs : AllAlike args args') :
    Tracks (nthImpl args) (nthImpl args') Alike := by
  unfold nthImpl
  split
  next index isNil elems rest =>
    cases hargs with
    | cons hindex hrest =>
        rw [hindex.eq_of_settled rfl]
        cases hrest with
        | cons hlist _ =>
            cases hlist with
            | list helems =>
                simp only
                split
                · exact tracks_fail
                · rcases rel_cases (rel_getElem? helems index.toNat) with
                    ⟨ha, hb⟩ | ⟨a, b, ha, hb, hvalue⟩
                  · rw [ha]
                    exact tracks_fail
                  · rw [ha, hb]
                    exact Follows.pure hvalue
  · exact tracks_complain
  · exact tracks_complain
  · exact Follows.crash

theorem tracks_rangeArg {a b : Ast} (halike : Alike a b) :
    Tracks (rangeArg a) (rangeArg b) Eq := by
  unfold rangeArg
  split
  · rw [halike.eq_of_settled rfl]
    exact Follows.pure rfl
  · exact tracks_complain

theorem tracks_rangeBetween (fuel : ℕ) (start stop step : ℤ) :
    Tracks (rangeBetween fuel start stop step) (rangeBetween fuel start stop step) Alike := by
  unfold rangeBetween
  split
  · exact tracks_fail
  · split
    next ints _ =>
      have hints : AllAlike (ints.map .int) (ints.map .int) := by
        apply List.forall₂_same.mpr
        intro value hmem
        rcases List.mem_map.mp hmem with ⟨x, _, rfl⟩
        exact .scalar (.same _ rfl)
      exact Follows.pure (alike_appended hints)
    · exact Follows.outOfFuel

theorem tracks_rangeImpl (fuel : ℕ) (hargs : AllAlike args args') :
    Tracks (rangeImpl fuel args) (rangeImpl fuel args') Alike := by
  apply Follows.bind (tracks_collect_eq (fun _ _ => tracks_rangeArg) hargs)
  rintro ints _ rfl
  split
  · exact tracks_rangeBetween _ _ _ _
  · exact tracks_rangeBetween _ _ _ _
  · exact tracks_rangeBetween _ _ _ _
  · exact tracks_fail

theorem tracks_logImpl (hargs : AllAlike args args') :
    Tracks (logImpl args) (logImpl args') Alike := by
  unfold logImpl
  split
  · cases hargs with
    | cons hlevel hrest =>
        cases hrest with
        | cons hmessage _ =>
            rw [hlevel.eq_of_settled rfl, hmessage.eq_of_settled rfl]
            simp only
            split
            · exact tracks_emptyList
            · exact tracks_fail
  · exact tracks_failWith
  · exact tracks_fail
  · exact Follows.crash

theorem tracks_panicImpl : Tracks (panicImpl args) (panicImpl args') Alike := by
  unfold panicImpl
  split
  · exact tracks_fail
  · exact tracks_failWith
  · exact Follows.crash

theorem tracks_sprintfImpl (rt : Runtime) (hargs : AllAlike args args') :
    Tracks (sprintfImpl rt args) (sprintfImpl rt args') Alike := by
  unfold sprintfImpl
  split
  · exact Follows.crash
  next format args =>
    cases hargs with
    | @cons _ _ _ args' hformat hrest =>
        rw [hformat.eq_of_settled rfl]
        apply tracks_readStore
        intro store
        split
        next text htext =>
          by_cases hsettled : sprintfSettled format.toList args = true
          · rw [sprintfPlain_eq store _ hrest hsettled htext]
            apply Follows.bind (tracks_sightUnless _ _)
            intro _ _ _
            exact Follows.pure (.scalar (.same _ rfl))
          · exact tracks_sighted hsettled
        next hnone =>
          by_cases hplain : Ast.plains args = true
          · rw [← eqs_of_alike _ _ hplain hrest, hnone]
            apply Follows.bind (tracks_sightUnless _ _)
            intro _ _ _
            apply Follows.bind tracks_lookOutside
            rintro look _ rfl
            exact Follows.pure (.scalar (.same _ rfl))
          · exact tracks_sighted hplain
  · exact tracks_complain

end Plain

/-! ## Containers, labels and machines -/

section Objects

variable {args args' : List Ast}

theorem tracks_dockerImpl (hargs : AllAlike args args') :
    Tracks (dockerImpl args) (dockerImpl args') Alike := by
  apply Follows.bind
    (tracks_collect_eq (fun _ _ => tracks_stringArg) (alike_flatten _ _ hargs))
  rintro texts _ rfl
  split
  · exact Follows.crash
  · apply tracks_readStore
    intro store
    apply Follows.bind (tracks_writeStore _)
    intro _ _ _
    exact Follows.pure (.scalar (.same _ rfl))

theorem tracks_modifyContainer (i : ℕ) (f : AstContainer → AstContainer) :
    Tracks (modifyContainer i f) (modifyContainer i f) fun _ _ => True :=
  tracks_readStore fun _ => tracks_writeStore _

theorem tracks_setEnvHelper {k k' value value' : Ast} (hk : Alike k k')
    (hvalue : Alike value value') (target : Atom) :
    Tracks (setEnvHelper k value target) (setEnvHelper k' value' target) fun _ _ => True := by
  unfold setEnvHelper
  split
  · exact tracks_fail
  · split
    · rw [hk.eq_of_settled rfl]
      split
      · rw [hvalue.eq_of_settled rfl]
        exact tracks_modifyContainer _ _
      · exact tracks_complain
    · exact tracks_complain

theorem tracks_setEnvLabel {k k' value value' a b : Ast} (hk : Alike k k')
    (hvalue : Alike value value') (htarget : Alike a b) :
    Tracks (setEnvLabel k value a) (setEnvLabel k' value' b) fun _ _ => True := by
  apply tracks_readStore
  intro store
  rw [resolveLabel_eq htarget]
  cases store.resolveLabel b with
  | none => exact tracks_complain
  | some l => exact tracks_forEach (tracks_setEnvHelper hk hvalue) l.elems

theorem tracks_setEnvTarget {k k' value value' a b : Ast} (hk : Alike k k')
    (hvalue : Alike value value') (htarget : Alike a b) :
    Tracks (setEnvTarget k value a) (setEnvTarget k' value' b) fun _ _ => True := by
  unfold setEnvTarget
  split
  · rw [htarget.eq_of_settled rfl]
    exact tracks_setEnvHelper hk hvalue _
  · have hlabel := tracks_setEnvLabel hk hvalue htarget
    rw [htarget.eq_of_settled rfl] at hlabel ⊢
    exact hlabel
  · have hlabel := tracks_setEnvLabel hk hvalue htarget
    cases htarget
    exact hlabel
  · exact tracks_complain

theorem tracks_setEnvImpl (hargs : AllAlike args args') :
    Tracks (setEnvImpl args) (setEnvImpl args') Alike := by
  unfold setEnvImpl
  split
  · cases hargs with
    | cons htarget hrest =>
        cases hrest with
        | cons hk hrest =>
            cases hrest with
            | cons hvalue _ =>
                have htargets := alike_flatten _ _ (.cons htarget .nil)
                apply Follows.bind
                  (Follows.forEach (fun _ _ h => tracks_setEnvTarget hk hvalue h) htargets)
                intro _ _ _
                exact tracks_emptyList
  · exact Follows.crash

theorem tracks_labelArg {a b : Ast} (halike : Alike a b) :
    Tracks (labelArg a) (labelArg b) Eq := by
  apply tracks_readStore
  intro store
  rw [resolveLabel_eq halike]
  cases store.resolveLabel b with
  | none => exact tracks_complain
  | some l => exact Follows.pure rfl

theorem tracks_flattenLabel (hargs : AllAlike args args') :
    Tracks (flattenLabel args) (flattenLabel args') Eq :=
  tracks_collect_eq (fun _ _ => tracks_labelArg) (alike_flatten _ _ hargs)

theorem tracks_excludeAtom (l : AstLabel) (pairs : List (String × String)) (target : Atom) :
    Tracks (excludeAtom l pairs target) (excludeAtom l pairs target) fun _ _ => True := by
  cases target with
  | container i => exact tracks_modifyContainer _ _
  | machine i => exact tracks_complain

theorem tracks_placementImpl (hargs : AllAlike args args') :
    Tracks (placementImpl args) (placementImpl args') Alike := by
  unfold placementImpl
  split
  · exact Follows.crash
  · have hresult :
        Alike (.sexp (.ident "placement" :: _) {}) (.sexp (.ident "placement" :: _) {}) :=
      .sexp (.cons (.scalar (.same _ rfl)) hargs) Placing.nowhere
    cases hargs with
    | cons htype hrest =>
        rw [htype.eq_of_settled rfl] at hresult ⊢
        apply Follows.bind (tracks_flattenLabel hrest)
        rintro labels _ rfl
        split
        · exact tracks_fail
        · split
          · apply Follows.bind
              (tracks_forEach (fun l => tracks_forEach (tracks_excludeAtom l _) l.elems) labels)
            intro _ _ _
            apply Follows.bind Follows.emit
            intro _ _ _
            exact Follows.pure hresult
          · exact tracks_fail
  · exact tracks_complain

theorem tracks_portRange {a b : Ast} (halike : Alike a b) :
    Tracks (portRange a) (portRange b) Eq := by
  unfold portRange
  split
  · rw [halike.eq_of_settled rfl]
    exact Follows.pure rfl
  · cases halike with
    | list helems =>
        split
        · cases helems with
          | cons hlow hrest =>
              cases hrest with
              | cons hhigh hnil =>
                  cases hnil
                  rw [hlow.eq_of_settled rfl, hhigh.eq_of_settled rfl]
                  exact Follows.pure rfl
        · exact tracks_complain
  · exact tracks_complain

theorem tracks_connectLabels (low high : ℤ) (source target : AstLabel) :
    Tracks (connectLabels low high source target) (connectLabels low high source target)
      fun _ _ => True := by
  unfold connectLabels
  split
  · exact tracks_fail
  · split
    · exact tracks_fail
    · exact tracks_readStore fun _ => tracks_writeStore _

theorem tracks_connectImpl (hargs : AllAlike args args') :
    Tracks (connectImpl args) (connectImpl args') Alike := by
  unfold connectImpl
  split
  · cases hargs with
    | cons hports hrest =>
        cases hrest with
        | cons hsource htargets =>
            apply Follows.bind (tracks_portRange hports)
            rintro ⟨low, high⟩ _ rfl
            simp only
            split
            · exact tracks_fail
            · apply Follows.bind (tracks_flattenLabel (.cons hsource .nil))
              rintro sources _ rfl
              apply Follows.bind (tracks_flattenLabel htargets)
              rintro targets _ rfl
              apply Follows.bind (tracks_forEach
                (fun s => tracks_forEach (tracks_connectLabels low high s) targets) sources)
              intro _ _ _
              exact tracks_emptyList
  · exact Follows.crash

theorem tracks_labelMembers {a b : Ast} (halike : Alike a b) :
    Tracks (labelMembers a) (labelMembers b) Eq := by
  apply tracks_readStore
  intro store
  rw [resolveLabel_eq halike]
  cases store.resolveLabel b with
  | none => exact tracks_complain
  | some l => exact Follows.pure rfl

theorem tracks_labelTarget {a b : Ast} (halike : Alike a b) :
    Tracks (labelTarget a) (labelTarget b) Eq := by
  have hmembers := tracks_labelMembers halike
  unfold labelTarget
  split
  · rw [halike.eq_of_settled rfl]
    exact Follows.pure rfl
  · rw [halike.eq_of_settled rfl] at hmembers ⊢
    exact hmembers
  · cases halike
    exact hmembers
  · exact tracks_complain

theorem tracks_labelImpl (hargs : AllAlike args args') :
    Tracks (labelImpl args) (labelImpl args') Alike := by
  unfold labelImpl
  split
  · exact Follows.crash
  · cases hargs with
    | cons hlabel hrest =>
        rw [hlabel.eq_of_settled rfl]
        simp only
        split
        · exact tracks_fail
        · apply tracks_readStore
          intro store
          split
          · exact tracks_fail
          · apply Follows.bind
              (tracks_collect_eq (fun _ _ => tracks_labelTarget) (alike_flatten _ _ hrest))
            rintro groups _ rfl
            apply tracks_readStore
            intro store
            apply Follows.bind (tracks_writeStore _)
            intro _ _ _
            exact Follows.pure (.label _)
  · exact tracks_complain

theorem tracks_labelNameImpl (hargs : AllAlike args args') :
    Tracks (labelNameImpl args) (labelNameImpl args') Alike := by
  cases hargs with
  | nil => exact Follows.crash
  | @cons _ b _ _ hhead _ =>
      apply tracks_readStore
      intro store
      rw [resolveLabel_eq hhead]
      cases store.resolveLabel b with
      | none => exact tracks_complain
      | some l => exact Follows.pure (.scalar (.same _ rfl))

theorem tracks_labelHostImpl (hargs : AllAlike args args') :
    Tracks (labelHostImpl args) (labelHostImpl args') Alike := by
  cases hargs with
  | nil => exact Follows.crash
  | @cons _ b _ _ hhead _ =>
      apply tracks_readStore
      intro store
      rw [resolveLabel_eq hhead]
      cases store.resolveLabel b with
      | none => exact tracks_complain
      | some l => exact Follows.pure (.scalar (.same _ rfl))

theorem tracks_unrecognized :
    Tracks (unrecognized none) (unrecognized none) fun _ _ => True := Follows.pure trivial

theorem tracks_machineImpl (hargs : AllAlike args args') :
    Tracks (machineImpl args) (machineImpl args') Alike := by
  have hattributes := alike_flatten _ _ hargs
  unfold machineImpl
  rcases hset : setMachineAttributes {} (flatten args) with ⟨machine, unknown⟩
  cases unknown with
  | none =>
      rw [setMachineAttributes_eq hattributes _ (by rw [hset])] at hset
      rw [hset]
      apply Follows.bind tracks_unrecognized
      intro _ _ _
      apply tracks_readStore
      intro store
      apply Follows.bind (tracks_writeStore _)
      intro _ _ _
      exact Follows.pure (.scalar (.same _ rfl))
  | some arg => exact Follows.failed ((fails_unrecognized arg).bind _)

theorem tracks_changeMachine {as bs : List Ast} (hattributes : AllAlike as bs) {a b : Ast}
    (halike : Alike a b) : Tracks (changeMachine as a) (changeMachine bs b) Alike := by
  unfold changeMachine
  split
  next i =>
    rw [halike.eq_of_settled rfl]
    apply tracks_readStore
    intro store
    cases store.machines[i]? with
    | none => exact Follows.crash
    | some machine =>
        simp only
        rcases hset : setMachineAttributes machine as with ⟨changed, unknown⟩
        cases unknown with
        | none =>
            rw [setMachineAttributes_eq hattributes _ (by rw [hset])] at hset
            rw [hset]
            apply Follows.bind (tracks_writeStore _)
            intro _ _ _
            apply Follows.bind tracks_unrecognized
            intro _ _ _
            exact Follows.pure (.scalar (.same _ rfl))
        | some arg =>
            exact Follows.failed (Fails.after (fun _ => (fails_unrecognized arg).bind _) _)
  · exact tracks_complain

theorem tracks_machineAttributeImpl (hargs : AllAlike args args') :
    Tracks (machineAttributeImpl args) (machineAttributeImpl args') Alike := by
  cases hargs with
  | nil => exact Follows.crash
  | cons htarget hattributes =>
      apply Follows.bind (tracks_collect
        (fun _ _ h => tracks_changeMachine (alike_flatten _ _ hattributes) h)
        (alike_flatten _ _ (.cons htarget .nil)))
      intro machines machines' hmachines
      exact Follows.pure (alike_appended hmachines)

end Objects

/-! ## Hash maps -/

section Hmaps

variable {args args' : List Ast} {ev : Ast → EvalM Ast}

theorem tracks_parseBinding {a b : Ast} (halike : Alike a b) :
    Tracks (parseBinding a) (parseBinding b) fun p q => Alike p.1 q.1 ∧ Alike p.2 q.2 := by
  unfold parseBinding
  split
  · cases halike with
    | sexp helems _ =>
        cases helems with
        | cons hk hrest =>
            cases hrest with
            | cons hvalue hnil =>
                cases hnil
                exact Follows.pure ⟨hk, hvalue⟩
  · exact tracks_complain

theorem tracks_hmapBind (hev : TracksEval ev) {pairs pairs' : List (Ast × Ast)}
    (hpairs : Forall₂ (fun p q => Alike p.1 q.1 ∧ Alike p.2 q.2) pairs pairs')
    {es fs : List (Scalar × Ast)} (hentries : EntriesAlike es fs) :
    Tracks (hmapBind ev pairs es) (hmapBind ev pairs' fs) EntriesAlike := by
  induction hpairs generalizing es fs with
  | nil => exact Follows.pure hentries
  | cons hpair _ ih =>
      apply Follows.bind (hev _ _ hpair.1)
      intro k k' hk
      apply Follows.bind (hev _ _ hpair.2)
      intro value value' hvalue
      apply Follows.bind (tracks_hashKey hk)
      rintro s s' ⟨hs, hsame⟩
      exact ih (alike_assign hentries hsame hs hvalue)

theorem tracks_hmapImpl (hev : TracksEval ev) (hargs : AllAlike args args') :
    Tracks (hmapImpl ev args) (hmapImpl ev args') Alike := by
  apply Follows.bind (Follows.collect (fun _ _ h => tracks_parseBinding h) hargs)
  intro pairs pairs' hpairs
  apply Follows.bind (tracks_hmapBind hev hpairs .nil)
  intro es fs hentries
  exact Follows.pure (.hmap hentries)

theorem tracks_notHmap {arg : Ast} {n : EvalM Ast} : Tracks (notHmap arg) n Alike :=
  tracks_failWith

theorem tracks_hmapSetImpl (hargs : AllAlike args args') :
    Tracks (hmapSetImpl args) (hmapSetImpl args') Alike := by
  unfold hmapSetImpl
  split
  · cases hargs with
    | cons hmap hrest =>
        cases hmap with
        | hmap hentries =>
            cases hrest with
            | cons hk hrest =>
                cases hrest with
                | cons hvalue _ =>
                    apply Follows.bind (tracks_hashKey hk)
                    rintro s s' ⟨hs, hsame⟩
                    exact Follows.pure (.hmap (alike_assign hentries hsame hs hvalue))
  · exact tracks_notHmap
  · exact Follows.crash

theorem tracks_hmapGetImpl (hargs : AllAlike args args') :
    Tracks (hmapGetImpl args) (hmapGetImpl args') Alike := by
  unfold hmapGetImpl
  split
  · cases hargs with
    | cons hmap hrest =>
        cases hmap with
        | hmap hentries =>
            cases hrest with
            | cons hk _ =>
                apply Follows.bind (tracks_hashKey hk)
                rintro s s' ⟨_, hsame⟩
                rcases rel_cases (alike_lookup hentries hsame) with
                  ⟨ha, hb⟩ | ⟨a, b, ha, hb, hvalue⟩
                · rw [ha]
                  exact tracks_complain
                · rw [ha, hb]
                  exact Follows.pure hvalue
  · exact tracks_notHmap
  · exact Follows.crash

theorem tracks_hmapContainsImpl (hargs : AllAlike args args') :
    Tracks (hmapContainsImpl args) (hmapContainsImpl args') Alike := by
  unfold hmapContainsImpl
  split
  · cases hargs with
    | cons hmap hrest =>
        cases hmap with
        | hmap hentries =>
            cases hrest with
            | cons hk _ =>
                apply Follows.bind (tracks_hashKey hk)
                rintro s s' ⟨_, hsame⟩
                rw [isSome_lookup_eq hentries hsame]
                exact Follows.pure (.scalar (.same _ rfl))
  · exact tracks_notHmap
  · exact Follows.crash

theorem tracks_visitEntries (rt : Runtime) {es fs : List (Scalar × Ast)}
    (hentries : EntriesAlike es fs) :
    Tracks (visitEntries rt es) (visitEntries rt fs) EntriesAlike := by
  apply Follows.bind tracks_lookOutside
  rintro look _ rfl
  rw [hentries.length_eq]
  exact Follows.pure (rel_filterMap_getElem? hentries _)

theorem tracks_visited (rt : Runtime) {project : Scalar × Ast → Ast}
    (hproject : ∀ e f, EntryAlike Scalar.Alike Alike e f → Alike (project e) (project f))
    {es fs : List (Scalar × Ast)} (hentries : EntriesAlike es fs) :
    Tracks (visitEntries rt es >>= fun visited => pure (appended (visited.map project)))
      (visitEntries rt fs >>= fun visited => pure (appended (visited.map project))) Alike := by
  apply Follows.bind (tracks_visitEntries rt hentries)
  intro es fs hvisited
  apply Follows.pure
  apply alike_appended
  apply List.forall₂_map_left_iff.mpr
  apply List.forall₂_map_right_iff.mpr
  exact hvisited.imp hproject

theorem tracks_hmapKeysImpl (rt : Runtime) (hargs : AllAlike args args') :
    Tracks (hmapKeysImpl rt args) (hmapKeysImpl rt args') Alike := by
  unfold hmapKeysImpl
  split
  · exact Follows.crash
  · cases hargs with
    | cons hmap _ =>
        cases hmap with
        | hmap hentries =>
            apply tracks_visited rt _ hentries
            rintro _ _ ⟨hkeys, _⟩
            exact .scalar hkeys
  · exact tracks_notHmap

theorem tracks_hmapValuesImpl (rt : Runtime) (hargs : AllAlike args args') :
    Tracks (hmapValuesImpl rt args) (hmapValuesImpl rt args') Alike := by
  unfold hmapValuesImpl
  split
  · exact Follows.crash
  · cases hargs with
    | cons hmap _ =>
        cases hmap with
        | hmap hentries =>
            apply tracks_visited rt _ hentries
            rintro _ _ ⟨_, hvalue⟩
            exact hvalue
  · exact tracks_notHmap

end Hmaps

/-! ## Binding names -/

section Binding

variable {args args' : List Ast} {ev : Ast → EvalM Ast}

theorem tracks_argName {a b : Ast} (halike : Alike a b) : Tracks (argName a) (argName b) Eq := by
  unfold argName
  split
  · rw [halike.eq_of_settled rfl]
    exact Follows.pure rfl
  · exact tracks_fail

theorem tracks_lambdaImpl (hargs : AllAlike args args') :
    Tracks (lambdaImpl args) (lambdaImpl args') Alike := by
  unfold lambdaImpl
  split
  · exact Follows.crash
  · cases hargs with
    | cons hhead hbody =>
        cases hhead with
        | sexp hnames _ =>
            apply Follows.bind (tracks_collect_eq (fun _ _ => tracks_argName) hnames)
            rintro names _ rfl
            apply tracks_get
            intro s t halike
            exact Follows.pure (.lambda hbody halike.ctx)
  · exact tracks_fail

theorem tracks_observe (moment moment' : Moment) :
    Tracks (Observer.observe moment) (Observer.observe moment') fun _ _ => True :=
  Follows.pure trivial

theorem tracks_bindNew (name : String) {a b : Ast} (hvalue : Alike a b) :
    Tracks (bindNew name a) (bindNew name b) Alike := by
  apply tracks_get
  intro s t halike
  apply Follows.bind (tracks_observe _ _)
  intro _ _ _
  rw [isSome_lookup_eq (alike_headD halike.ctx) (sameKey_eq _ name)]
  split
  · exact tracks_fail
  · apply Follows.bind (tracks_bindHere name hvalue)
    intro _ _ _
    apply Follows.bind (tracks_observe _ _)
    intro _ _ _
    exact tracks_emptyList

theorem tracks_defineImpl (hev : TracksEval ev) (hargs : AllAlike args args') :
    Tracks (defineImpl ev args) (defineImpl ev args') Alike := by
  unfold defineImpl
  split
  · exact Follows.crash
  · cases hargs with
    | cons hhead hbody =>
        cases hhead with
        | sexp helems _ =>
            split
            · exact tracks_fail
            · cases helems with
              | cons hname hnames =>
                  rw [hname.eq_of_settled rfl]
                  apply Follows.bind
                    (tracks_lambdaImpl (.cons (.sexp hnames Placing.nowhere) hbody))
                  intro value value' hvalue
                  exact tracks_bindNew _ hvalue
            · exact tracks_complain
  · cases hargs with
    | cons hname hrest =>
        rw [hname.eq_of_settled rfl]
        split
        · exact Follows.crash
        · cases hrest with
          | cons hexpr hnil =>
              cases hnil
              apply Follows.bind (hev _ _ hexpr)
              intro value value' hvalue
              exact tracks_bindNew _ hvalue
        · exact tracks_fail
  · exact tracks_complain

theorem tracks_letBindings (hev : TracksEval ev) {pairs pairs' : List (Ast × Ast)}
    (hpairs : Forall₂ (fun p q => Alike p.1 q.1 ∧ Alike p.2 q.2) pairs pairs') :
    Tracks (letBindings ev pairs) (letBindings ev pairs') BindsAlike := by
  induction hpairs with
  | nil => exact Follows.pure .nil
  | @cons pair pair' rest rest' hpair _ ih =>
      rcases pair with ⟨nameExpr, valueExpr⟩
      rcases pair' with ⟨nameExpr', valueExpr'⟩
      unfold letBindings
      split
      next name =>
        have hname : Alike (.ident name) nameExpr' := hpair.1
        rw [hname.eq_of_settled rfl]
        apply Follows.bind (hev _ _ hpair.2)
        intro value value' hvalue
        apply Follows.bind (tracks_bindHere name hvalue)
        intro _ _ _
        apply Follows.bind ih
        intro more more' hmore
        exact Follows.pure (.cons (.mk rfl hvalue) hmore)
      · exact tracks_complain

theorem names_eq_of_alike {es fs : Binds} (hentries : BindsAlike es fs) :
    es.map Prod.fst = fs.map Prod.fst := by
  induction hentries with
  | nil => rfl
  | cons hhead _ ih =>
      cases hhead with
      | mk hname _ => rw [List.map_cons, List.map_cons, ih, hname]

theorem values_alike {es fs : Binds} (hentries : BindsAlike es fs) :
    AllAlike (es.map Prod.snd) (fs.map Prod.snd) := by
  apply List.forall₂_map_left_iff.mpr
  apply List.forall₂_map_right_iff.mpr
  apply hentries.imp
  rintro _ _ ⟨_, hvalue⟩
  exact hvalue

theorem tracks_letImpl (hev : TracksEval ev) (hargs : AllAlike args args') :
    Tracks (letImpl ev args) (letImpl ev args') Alike := by
  unfold letImpl
  split
  · exact Follows.crash
  · cases hargs with
    | cons hhead hbody =>
        cases hhead with
        | sexp hbindings _ =>
            apply Follows.bind (Follows.collect (fun _ _ h => tracks_parseBinding h) hbindings)
            intro pairs pairs' hpairs
            apply tracks_get
            intro s t halike
            apply Follows.bind
              (tracks_inCtx (.cons .nil halike.ctx) (tracks_letBindings hev hpairs))
            intro bound bound' hbound
            apply hev
            rw [names_eq_of_alike hbound]
            refine Alike.sexp ?_ Placing.nowhere
            apply Forall₂.cons _ (values_alike hbound)
            apply Alike.lambda _ halike.ctx
            cases hbody with
            | nil => exact .cons alike_emptyList .nil
            | cons hfirst hrest => exact .cons hfirst hrest
  · exact tracks_fail

end Binding

/-! ## Control and modules -/

section Control

variable {args args' : List Ast} {ev : Ast → EvalM Ast}

theorem tracks_boolImpl (hargs : AllAlike args args') :
    Tracks (boolImpl args) (boolImpl args') Alike := by
  cases hargs with
  | nil => exact Follows.crash
  | cons hhead _ =>
      apply Follows.bind (tracks_test hhead)
      rintro b _ rfl
      exact Follows.pure (.scalar (.same _ rfl))

theorem tracks_notImpl (hev : TracksEval ev) (hargs : AllAlike args args') :
    Tracks (notImpl ev args) (notImpl ev args') Alike := by
  cases hargs with
  | nil => exact Follows.crash
  | cons hhead _ =>
      apply Follows.bind (hev _ _ hhead)
      intro value value' hvalue
      apply Follows.bind (tracks_test hvalue)
      rintro b _ rfl
      exact Follows.pure (.scalar (.same _ rfl))

theorem tracks_shortCircuit (hev : TracksEval ev) (stop : Bool) (hargs : AllAlike args args') :
    Tracks (shortCircuit stop ev args) (shortCircuit stop ev args') Alike := by
  induction hargs with
  | nil => exact Follows.pure (.scalar (.same _ rfl))
  | cons hhead _ ih =>
      apply Follows.bind (hev _ _ hhead)
      intro value value' hvalue
      apply Follows.bind (tracks_test hvalue)
      rintro b _ rfl
      split
      · exact Follows.pure (.scalar (.same _ rfl))
      · exact ih

theorem tracks_andImpl (hev : TracksEval ev) (hargs : AllAlike args args') :
    Tracks (andImpl ev args) (andImpl ev args') Alike := by
  rw [andImpl_eq, andImpl_eq]
  exact tracks_shortCircuit hev false hargs

theorem tracks_orImpl (hev : TracksEval ev) (hargs : AllAlike args args') :
    Tracks (orImpl ev args) (orImpl ev args') Alike := by
  rw [orImpl_eq, orImpl_eq]
  exact tracks_shortCircuit hev true hargs

theorem tracks_ifImpl (hev : TracksEval ev) (hargs : AllAlike args args') :
    Tracks (ifImpl ev args) (ifImpl ev args') Alike := by
  unfold ifImpl
  split
  · cases hargs with
    | cons hcond hrest =>
        cases hrest with
        | cons hthen hrest =>
            apply Follows.bind (hev _ _ hcond)
            intro value value' hvalue
            apply Follows.bind (tracks_test hvalue)
            rintro b _ rfl
            split
            · exact hev _ _ hthen
            · cases hrest with
              | nil => exact tracks_emptyList
              | cons helse _ => exact hev _ _ helse
  · exact Follows.crash

theorem tracks_prognImpl (hargs : AllAlike args args') :
    Tracks (prognImpl args) (prognImpl args') Alike := by
  unfold prognImpl
  rcases rel_cases (alike_getLast? hargs) with ⟨ha, hb⟩ | ⟨a, b, ha, hb, hvalue⟩
  · rw [ha]
    exact Follows.crash
  · rw [ha, hb]
    exact Follows.pure hvalue

theorem tracks_applyImpl (hev : TracksEval ev) (hargs : AllAlike args args') :
    Tracks (applyImpl ev args) (applyImpl ev args') Alike := by
  unfold applyImpl
  split
  · cases hargs with
    | cons hf hrest =>
        cases hrest with
        | cons hlist _ =>
            cases hlist with
            | list helems => exact hev _ _ (.sexp (.cons hf helems) Placing.nowhere)
  · exact tracks_complain
  · exact Follows.crash

theorem tracks_makeListImpl (hev : TracksEval ev) (hargs : AllAlike args args') :
    Tracks (makeListImpl ev args) (makeListImpl ev args') Alike := by
  unfold makeListImpl
  split
  · cases hargs with
    | cons hcount hrest =>
        cases hrest with
        | cons helem _ =>
            apply Follows.bind (hev _ _ hcount)
            intro value value' hvalue
            split
            next n =>
              rw [hvalue.eq_of_settled rfl]
              simp only
              split
              · exact tracks_complain
              · have hsame : Forall₂ Eq (List.range n.toNat) (List.range n.toNat) :=
                  List.forall₂_same.mpr fun _ _ => rfl
                apply Follows.bind (Follows.collect (fun _ _ _ => hev _ _ helem) hsame)
                intro elems elems' helems
                exact Follows.pure (alike_appended helems)
            · exact tracks_complain
  · exact Follows.crash

theorem tracks_listArg {a b : Ast} (halike : Alike a b) :
    Tracks (listArg a) (listArg b) AllAlike := by
  unfold listArg
  split
  · cases halike with
    | list helems => exact Follows.pure helems
  · exact tracks_complain

theorem tracks_mapImpl (hev : TracksEval ev) (hargs : AllAlike args args') :
    Tracks (mapImpl ev args) (mapImpl ev args') Alike := by
  cases hargs with
  | nil => exact Follows.crash
  | @cons f f' _ _ hf hrest =>
      apply Follows.bind (Follows.collect (fun _ _ h => tracks_listArg h) hrest)
      intro lists lists' hlists
      cases hlists with
      | nil => exact Follows.crash
      | @cons first first' others others' hfirst hothers =>
          have hlengths : (others.all fun l => l.length = first.length) =
              others'.all fun l => l.length = first'.length := by
            rw [← hfirst.length_eq]
            clear hfirst
            induction hothers with
            | nil => rfl
            | cons hhead _ ih => rw [List.all_cons, List.all_cons, ih, hhead.length_eq]
          simp only
          rw [← hlengths]
          split
          · have hsame : Forall₂ Eq (List.range first.length) (List.range first'.length) := by
              rw [hfirst.length_eq]
              exact List.forall₂_same.mpr fun _ _ => rfl
            have hcall : ∀ i j, i = j → Tracks
                (ev (.sexp (f :: (first :: others).map fun l => l.getD i emptyList) {}))
                (ev (.sexp (f' :: (first' :: others').map fun l => l.getD j emptyList) {}))
                Alike := by
              rintro i _ rfl
              apply hev
              refine Alike.sexp ?_ Placing.nowhere
              apply Forall₂.cons hf
              apply List.forall₂_map_left_iff.mpr
              apply List.forall₂_map_right_iff.mpr
              exact (Forall₂.cons hfirst hothers).imp fun _ _ h => alike_getD h i
            apply Follows.bind (Follows.collect hcall hsame)
            intro mapped mapped' hmapped
            exact Follows.pure (alike_appended hmapped)
          · exact tracks_fail

theorem tracks_reduceFrom (hev : TracksEval ev) {f f' : Ast} (hf : Alike f f')
    {items items' : List Ast} (hitems : AllAlike items items') {result result' : Ast}
    (hresult : Alike result result') :
    Tracks (reduceFrom ev f result items) (reduceFrom ev f' result' items') Alike := by
  induction hitems generalizing result result' with
  | nil => exact Follows.pure hresult
  | cons hitem _ ih =>
      apply Follows.bind
        (hev _ _ (.sexp (.cons hf (.cons hresult (.cons hitem .nil))) Placing.nowhere))
      intro next next' hnext
      exact ih hnext

theorem tracks_reduceImpl (hev : TracksEval ev) (hargs : AllAlike args args') :
    Tracks (reduceImpl ev args) (reduceImpl ev args') Alike := by
  unfold reduceImpl
  split
  · cases hargs with
    | cons hf hrest =>
        cases hrest with
        | cons hlist _ =>
            cases hlist with
            | list helems =>
                split
                · cases helems with
                  | cons hfirst hmore =>
                      cases hmore with
                      | cons hsecond hitems =>
                          exact tracks_reduceFrom hev hf (.cons hsecond hitems) hfirst
                · exact tracks_complain
  · exact tracks_complain
  · exact Follows.crash

theorem tracks_bindExport (name : String) {a b : Ast} (hvalue : Alike a b) :
    Tracks (bindExport name a) (bindExport name b) fun _ _ => True := by
  apply tracks_get
  intro s t _
  apply Follows.bind (tracks_bindHere name hvalue)
  intro _ _ _
  exact tracks_observe _ _

theorem tracks_exports (rt : Runtime) (name : String) {c d : Ctx} (hctx : CtxAlike c d) :
    Tracks
      (forEach (fun bind => bindExport (name ++ "." ++ bind.1) bind.2)
        ((c.headD []).filter fun bind => shouldExport rt bind.1))
      (forEach (fun bind => bindExport (name ++ "." ++ bind.1) bind.2)
        ((d.headD []).filter fun bind => shouldExport rt bind.1)) fun _ _ => True := by
  apply Follows.forEach _ (alike_filter (alike_headD hctx) (shouldExport rt))
  rintro _ _ ⟨hname, hvalue⟩
  subst hname
  exact tracks_bindExport _ hvalue

theorem tracks_evalModule (rt : Runtime) (name : String)
    {rel : Ast → Ast → Prop} (hev : ∀ a b, rel a b → Tracks (ev a) (ev b) Alike)
    {body body' : List Ast} (hbody : Forall₂ rel body body') :
    Tracks (evalModule rt ev name body) (evalModule rt ev name body') Alike := by
  have hinside : Tracks
      (do let results ← collect ev body; let env ← get; pure (results, env.ctx) :
        EvalM (List Ast × Ctx))
      (do let results ← collect ev body'; let env ← get; pure (results, env.ctx))
      fun p q => AllAlike p.1 q.1 ∧ CtxAlike p.2 q.2 := by
    apply Follows.bind (Follows.collect hev hbody)
    intro results results' hresults
    apply tracks_get
    intro s t halike
    exact Follows.pure ⟨hresults, halike.ctx⟩
  apply Follows.bind (tracks_inCtx (.cons .nil (.cons .nil .nil)) hinside)
  rintro ⟨results, ctx⟩ ⟨results', ctx'⟩ ⟨hresults, hctx⟩
  apply Follows.bind (tracks_exports rt name hctx)
  intro _ _ _
  exact Follows.pure (.moduleNode hresults)

theorem tracks_moduleImpl (rt : Runtime) (hev : TracksEval ev) (hargs : AllAlike args args') :
    Tracks (moduleImpl rt ev args) (moduleImpl rt ev args') Alike := by
  cases hargs with
  | nil => exact Follows.crash
  | cons hname hbody =>
      apply Follows.bind (hev _ _ hname)
      intro value value' hvalue
      split
      next name =>
        rw [hvalue.eq_of_settled rfl]
        exact tracks_evalModule rt name hev hbody
      · exact tracks_complain

end Control

end Lang
end Di
