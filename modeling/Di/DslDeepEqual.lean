import Di.DslAlike

/-!
# Comparing alike values

`reflect.DeepEqual` compares the positions of S-expressions and tells a number from the
integer with the same text.  On values that are read from a text it gives the verdict it
gives on the original values with the numbers of the text, if corresponding positions
are equal in both programs or in neither, or if the values differ in more than
positions.
-/

namespace Di
namespace Lang

open List (Forall₂)

/-! ## Trees without positions -/

theorem lookup_unplacedEntries (k : Scalar) (es : List (Scalar × Ast)) :
    (Ast.unplacedEntries es).lookup k = (es.lookup k).map Ast.unplaced := by
  induction es with
  | nil => rfl
  | cons entry es ih =>
      rw [Ast.unplacedEntries, List.lookup_cons, List.lookup_cons, ih]
      split <;> rfl

theorem lookup_unplacedBinds (name : String) (binds : Binds) :
    (Ast.unplacedBinds binds).lookup name = (binds.lookup name).map Ast.unplaced := by
  induction binds with
  | nil => rfl
  | cons bind binds ih =>
      rw [Ast.unplacedBinds, List.lookup_cons, List.lookup_cons, ih]
      split <;> rfl

theorem length_unplacedEntries (es : List (Scalar × Ast)) :
    (Ast.unplacedEntries es).length = es.length := by
  induction es with
  | nil => rfl
  | cons entry es ih => rw [Ast.unplacedEntries, List.length_cons, List.length_cons, ih]

theorem length_unplacedBinds (binds : Binds) :
    (Ast.unplacedBinds binds).length = binds.length := by
  induction binds with
  | nil => rfl
  | cons bind binds ih => rw [Ast.unplacedBinds, List.length_cons, List.length_cons, ih]

mutual

theorem deepEqual_unplaced (store : Store) : ∀ a b : Ast, deepEqual store a b = true →
    deepEqual store a.unplaced b.unplaced = true
  | .list _ as, b, hequal => by
      cases b with
      | list _ bs =>
          simp only [Ast.unplaced, deepEqual, Bool.and_eq_true] at hequal ⊢
          exact ⟨hequal.1, deepEquals_unplaced store as bs hequal.2⟩
      | _ => simp [deepEqual] at hequal
  | .hmap es, b, hequal => by
      cases b with
      | hmap fs =>
          simp only [Ast.unplaced, deepEqual, Bool.and_eq_true, length_unplacedEntries] at hequal ⊢
          exact ⟨hequal.1, deepEqualEntries_unplaced store es fs hequal.2⟩
      | _ => simp [deepEqual] at hequal
  | .sexp as _, b, hequal => by
      cases b with
      | sexp bs _ =>
          simp only [Ast.unplaced, deepEqual, Bool.and_eq_true] at hequal ⊢
          exact ⟨deepEquals_unplaced store as bs hequal.1, decide_eq_true trivial⟩
      | _ => simp [deepEqual] at hequal
  | .lambda _ as c, b, hequal => by
      cases b with
      | lambda _ bs d =>
          simp only [Ast.unplaced, deepEqual, Bool.and_eq_true] at hequal ⊢
          exact ⟨⟨hequal.1.1, deepEquals_unplaced store as bs hequal.1.2⟩,
            deepEqualCtx_unplaced store c d hequal.2⟩
      | _ => simp [deepEqual] at hequal
  | .moduleNode _ as, b, hequal => by
      cases b with
      | moduleNode _ bs =>
          simp only [Ast.unplaced, deepEqual, Bool.and_eq_true] at hequal ⊢
          exact ⟨hequal.1, deepEquals_unplaced store as bs hequal.2⟩
      | _ => simp [deepEqual] at hequal
  | .label _, b, hequal => by
      cases b with
      | label _ => exact hequal
      | _ => simp [deepEqual] at hequal
  | .scalar _, b, hequal => by
      cases b with
      | scalar _ => exact hequal
      | _ => simp [deepEqual] at hequal
termination_by structural x => x

theorem deepEquals_unplaced (store : Store) : ∀ as bs : List Ast,
    deepEquals store as bs = true →
      deepEquals store (Ast.unplaceds as) (Ast.unplaceds bs) = true
  | [], bs, hequal => by
      cases bs with
      | nil => exact hequal
      | cons _ _ => simp [deepEquals] at hequal
  | a :: as, bs, hequal => by
      cases bs with
      | nil => simp [deepEquals] at hequal
      | cons b bs =>
          simp only [Ast.unplaceds, deepEquals, Bool.and_eq_true] at hequal ⊢
          exact ⟨deepEqual_unplaced store a b hequal.1, deepEquals_unplaced store as bs hequal.2⟩
termination_by structural x => x

theorem deepEqualEntries_unplaced (store : Store) : ∀ es fs : List (Scalar × Ast),
    deepEqualEntries store es fs = true →
      deepEqualEntries store (Ast.unplacedEntries es) (Ast.unplacedEntries fs) = true
  | [], _, _ => by simp only [Ast.unplacedEntries, deepEqualEntries]
  | (k, a) :: es, fs, hequal => by
      simp only [Ast.unplacedEntries, deepEqualEntries, lookup_unplacedEntries,
        Bool.and_eq_true] at hequal ⊢
      refine ⟨?_, deepEqualEntries_unplaced store es fs hequal.2⟩
      cases hlookup : fs.lookup k with
      | none => simp [hlookup] at hequal
      | some b =>
          rw [hlookup] at hequal
          exact deepEqual_unplaced store a b hequal.1
termination_by structural x => x

theorem deepEqualBinds_unplaced (store : Store) : ∀ es fs : Binds,
    deepEqualBinds store es fs = true →
      deepEqualBinds store (Ast.unplacedBinds es) (Ast.unplacedBinds fs) = true
  | [], _, _ => by simp only [Ast.unplacedBinds, deepEqualBinds]
  | (name, a) :: es, fs, hequal => by
      simp only [Ast.unplacedBinds, deepEqualBinds, lookup_unplacedBinds,
        Bool.and_eq_true] at hequal ⊢
      refine ⟨?_, deepEqualBinds_unplaced store es fs hequal.2⟩
      cases hlookup : fs.lookup name with
      | none => simp [hlookup] at hequal
      | some b =>
          rw [hlookup] at hequal
          exact deepEqual_unplaced store a b hequal.1
termination_by structural x => x

theorem deepEqualCtx_unplaced (store : Store) : ∀ c d : Ctx, deepEqualCtx store c d = true →
    deepEqualCtx store (Ast.unplacedCtx c) (Ast.unplacedCtx d) = true
  | [], d, hequal => by
      cases d with
      | nil => exact hequal
      | cons _ _ => simp [deepEqualCtx] at hequal
  | es :: outer, d, hequal => by
      cases d with
      | nil => simp [deepEqualCtx] at hequal
      | cons fs outer' =>
          simp only [Ast.unplacedCtx, deepEqualCtx, Bool.and_eq_true, length_unplacedBinds]
            at hequal ⊢
          exact ⟨⟨hequal.1.1, deepEqualBinds_unplaced store es fs hequal.1.2⟩,
            deepEqualCtx_unplaced store outer outer' hequal.2⟩
termination_by structural x => x

end

section Alike

variable [Placing]

/-! ## Trees that are read from a text -/

mutual

theorem shown_alike : ∀ a b : Ast, Alike a b → Alike a.shown b
  | .list _ as, _, .list helems => .list (showns_alike as _ helems)
  | .hmap es, _, .hmap hentries => .hmap (shownEntries_alike es _ hentries)
  | .sexp as _, _, .sexp helems hplaces => .sexp (showns_alike as _ helems) hplaces
  | .lambda _ as c, _, .lambda hbody hctx =>
      .lambda (showns_alike as _ hbody) (shownCtx_alike c _ hctx)
  | .moduleNode _ as, _, .moduleNode hbody => .moduleNode (showns_alike as _ hbody)
  | .label l, _, .label _ => .label l
  | .scalar _, _, .scalar hvalue => .scalar hvalue.shown_alike
termination_by structural x => x

theorem showns_alike : ∀ as bs : List Ast, AllAlike as bs → AllAlike (Ast.showns as) bs
  | [], _, .nil => .nil
  | a :: as, _, .cons hhead htail => .cons (shown_alike a _ hhead) (showns_alike as _ htail)
termination_by structural x => x

theorem shownEntries_alike : ∀ es fs : List (Scalar × Ast), EntriesAlike es fs →
    EntriesAlike (Ast.shownEntries es) fs
  | [], _, .nil => .nil
  | (_, a) :: es, _, .cons (.mk hkeys hvalues) htail =>
      .cons (.mk hkeys.shown_alike (shown_alike a _ hvalues)) (shownEntries_alike es _ htail)
termination_by structural x => x

theorem shownBinds_alike : ∀ es fs : Binds, BindsAlike es fs → BindsAlike (Ast.shownBinds es) fs
  | [], _, .nil => .nil
  | (_, a) :: es, _, .cons (.mk hkeys hvalues) htail =>
      .cons (.mk hkeys (shown_alike a _ hvalues)) (shownBinds_alike es _ htail)
termination_by structural x => x

theorem shownCtx_alike : ∀ c d : Ctx, CtxAlike c d → CtxAlike (Ast.shownCtx c) d
  | [], _, .nil => .nil
  | binds :: outer, _, .cons hbinds houter =>
      .cons (shownBinds_alike binds _ hbinds) (shownCtx_alike outer _ houter)
termination_by structural x => x

end

mutual

theorem unplaced_eq_of_alike : ∀ a b : Ast, Alike a b → b.unplaced = a.shown.unplaced
  | .list _ as, _, .list helems => by
      rw [Ast.shown, Ast.unplaced, Ast.unplaced, unplaceds_eq_of_alike as _ helems]
  | .hmap es, _, .hmap hentries => by
      rw [Ast.shown, Ast.unplaced, Ast.unplaced, unplacedEntries_eq_of_alike es _ hentries]
  | .sexp as _, _, .sexp helems _ => by
      rw [Ast.shown, Ast.unplaced, Ast.unplaced, unplaceds_eq_of_alike as _ helems]
  | .lambda _ as c, _, .lambda hbody hctx => by
      rw [Ast.shown, Ast.unplaced, Ast.unplaced, unplaceds_eq_of_alike as _ hbody,
        unplacedCtx_eq_of_alike c _ hctx]
  | .moduleNode _ as, _, .moduleNode hbody => by
      rw [Ast.shown, Ast.unplaced, Ast.unplaced, unplaceds_eq_of_alike as _ hbody]
  | .label _, _, .label _ => rfl
  | .scalar _, _, .scalar hvalue => by
      rw [Ast.shown, Ast.unplaced, Ast.unplaced, hvalue.eq_shown]
termination_by structural x => x

theorem unplaceds_eq_of_alike : ∀ as bs : List Ast, AllAlike as bs →
    Ast.unplaceds bs = Ast.unplaceds (Ast.showns as)
  | [], _, .nil => rfl
  | a :: as, _, .cons hhead htail => by
      rw [Ast.showns, Ast.unplaceds, Ast.unplaceds, unplaced_eq_of_alike a _ hhead,
        unplaceds_eq_of_alike as _ htail]
termination_by structural x => x

theorem unplacedEntries_eq_of_alike : ∀ es fs : List (Scalar × Ast), EntriesAlike es fs →
    Ast.unplacedEntries fs = Ast.unplacedEntries (Ast.shownEntries es)
  | [], _, .nil => rfl
  | (_, a) :: es, _, .cons (.mk hkeys hvalues) htail => by
      rw [Ast.shownEntries, Ast.unplacedEntries, Ast.unplacedEntries, hkeys.eq_shown,
        unplaced_eq_of_alike a _ hvalues, unplacedEntries_eq_of_alike es _ htail]
termination_by structural x => x

theorem unplacedBinds_eq_of_alike : ∀ es fs : Binds, BindsAlike es fs →
    Ast.unplacedBinds fs = Ast.unplacedBinds (Ast.shownBinds es)
  | [], _, .nil => rfl
  | (_, a) :: es, _, .cons (.mk hkeys hvalues) htail => by
      rw [Ast.shownBinds, Ast.unplacedBinds, Ast.unplacedBinds, hkeys,
        unplaced_eq_of_alike a _ hvalues, unplacedBinds_eq_of_alike es _ htail]
termination_by structural x => x

theorem unplacedCtx_eq_of_alike : ∀ c d : Ctx, CtxAlike c d →
    Ast.unplacedCtx d = Ast.unplacedCtx (Ast.shownCtx c)
  | [], _, .nil => rfl
  | binds :: outer, _, .cons hbinds houter => by
      rw [Ast.shownCtx, Ast.unplacedCtx, Ast.unplacedCtx, unplacedBinds_eq_of_alike binds _ hbinds,
        unplacedCtx_eq_of_alike outer _ houter]
termination_by structural x => x

end

/-! ## `reflect.DeepEqual` -/

/-- A value that is read from the text of another, after the numbers in it have changed. -/
def Shows (a b : Ast) : Prop := ∃ c, Alike c b ∧ a = c.shown

theorem lookup_shownEntries {es fs : List (Scalar × Ast)} (hentries : EntriesAlike es fs)
    (k : Scalar) : Option.Rel Shows ((Ast.shownEntries es).lookup k) (fs.lookup k) := by
  induction hentries with
  | nil => exact .none
  | cons hhead _ ih =>
      cases hhead with
      | @mk k' l' a b hkeys hvalues =>
          rw [Ast.shownEntries, List.lookup_cons, List.lookup_cons, hkeys.eq_shown]
          split
          · exact .some ⟨a, hvalues, rfl⟩
          · exact ih

theorem lookup_shownBinds {es fs : Binds} (hbinds : BindsAlike es fs) (name : String) :
    Option.Rel Shows ((Ast.shownBinds es).lookup name) (fs.lookup name) := by
  induction hbinds with
  | nil => exact .none
  | cons hhead _ ih =>
      cases hhead with
      | @mk name' _ a b hname hvalues =>
          subst hname
          rw [Ast.shownBinds, List.lookup_cons, List.lookup_cons]
          split
          · exact .some ⟨a, hvalues, rfl⟩
          · exact ih

mutual

theorem deepEqual_shown (hexact : Placing.Exact) (store : Store) :
    ∀ a b a' b' : Ast, Alike a a' → Alike b b' →
      deepEqual store a' b' = deepEqual store a.shown b.shown
  | .list _ as, _, _, _, .list has, hb => by
      cases hb with
      | @list _ bs _ hbs =>
          simp only [Ast.shown, deepEqual]
          rw [deepEquals_shown hexact store as bs _ _ has hbs]
      | _ => simp [Ast.shown, deepEqual]
  | .hmap es, _, _, _, .hmap hes, hb => by
      cases hb with
      | @hmap fs _ hfs =>
          simp only [Ast.shown, deepEqual]
          rw [deepEqualEntries_shown hexact store es fs _ _ hes hfs,
            ← (shownEntries_alike _ _ hes).length_eq, ← (shownEntries_alike _ _ hfs).length_eq]
      | _ => simp [Ast.shown, deepEqual]
  | .sexp as p, _, _, _, .sexp has hp, hb => by
      cases hb with
      | @sexp bs _ q q' hbs hq =>
          simp only [Ast.shown, deepEqual]
          rw [deepEquals_shown hexact store as bs _ _ has hbs,
            decide_eq_decide.mpr (hexact _ _ _ _ hp hq)]
      | _ => simp [Ast.shown, deepEqual]
  | .lambda _ as c, _, _, _, .lambda has hc, hb => by
      cases hb with
      | @lambda _ bs _ d _ hbs hd =>
          simp only [Ast.shown, deepEqual]
          rw [deepEquals_shown hexact store as bs _ _ has hbs,
            deepEqualCtx_shown hexact store c d _ _ hc hd]
      | _ => simp [Ast.shown, deepEqual]
  | .moduleNode _ as, _, _, _, .moduleNode has, hb => by
      cases hb with
      | @moduleNode _ bs _ hbs =>
          simp only [Ast.shown, deepEqual]
          rw [deepEquals_shown hexact store as bs _ _ has hbs]
      | _ => simp [Ast.shown, deepEqual]
  | .label _, _, _, _, .label _, hb => by
      cases hb with
      | label _ => rfl
      | _ => simp [Ast.shown, deepEqual]
  | .scalar _, _, _, _, .scalar ha, hb => by
      cases hb with
      | scalar hb => rw [Ast.shown, Ast.shown, ha.eq_shown, hb.eq_shown]
      | _ => simp [Ast.shown, deepEqual]
termination_by structural x => x

theorem deepEquals_shown (hexact : Placing.Exact) (store : Store) :
    ∀ as bs as' bs' : List Ast, AllAlike as as' → AllAlike bs bs' →
      deepEquals store as' bs' = deepEquals store (Ast.showns as) (Ast.showns bs)
  | [], _, _, _, .nil, hbs => by
      cases hbs with
      | nil => rfl
      | cons _ _ => simp [Ast.showns, deepEquals]
  | a :: as, _, _, _, .cons ha has, hbs => by
      cases hbs with
      | nil => simp [Ast.showns, deepEquals]
      | cons hb hbs =>
          rw [Ast.showns, Ast.showns, deepEquals, deepEquals,
            deepEqual_shown hexact store a _ _ _ ha hb,
            deepEquals_shown hexact store as _ _ _ has hbs]
termination_by structural x => x

theorem deepEqualEntries_shown (hexact : Placing.Exact) (store : Store) :
    ∀ es fs es' fs' : List (Scalar × Ast), EntriesAlike es es' → EntriesAlike fs fs' →
      deepEqualEntries store es' fs' =
        deepEqualEntries store (Ast.shownEntries es) (Ast.shownEntries fs)
  | [], _, _, _, .nil, _ => by simp only [Ast.shownEntries, deepEqualEntries]
  | (k, a) :: es, fs, _, fs', .cons (.mk hk ha) hes, hfs => by
      rw [Ast.shownEntries, deepEqualEntries, deepEqualEntries,
        deepEqualEntries_shown hexact store es fs _ _ hes hfs, hk.eq_shown]
      rcases rel_cases (lookup_shownEntries hfs k.shown) with
        ⟨hleft, hright⟩ | ⟨_, b', hleft, hright, b, hb, rfl⟩
      · rw [hleft, hright]
      · rw [hleft, hright]
        simp only [deepEqual_shown hexact store a b _ _ ha hb]
termination_by structural x => x

theorem deepEqualBinds_shown (hexact : Placing.Exact) (store : Store) : ∀ es fs es' fs' : Binds,
    BindsAlike es es' → BindsAlike fs fs' →
      deepEqualBinds store es' fs' =
        deepEqualBinds store (Ast.shownBinds es) (Ast.shownBinds fs)
  | [], _, _, _, .nil, _ => by simp only [Ast.shownBinds, deepEqualBinds]
  | (name, a) :: es, fs, _, fs', .cons (.mk hname ha) hes, hfs => by
      subst hname
      rw [Ast.shownBinds, deepEqualBinds, deepEqualBinds,
        deepEqualBinds_shown hexact store es fs _ _ hes hfs]
      rcases rel_cases (lookup_shownBinds hfs name) with
        ⟨hleft, hright⟩ | ⟨_, b', hleft, hright, b, hb, rfl⟩
      · rw [hleft, hright]
      · rw [hleft, hright]
        simp only [deepEqual_shown hexact store a b _ _ ha hb]
termination_by structural x => x

theorem deepEqualCtx_shown (hexact : Placing.Exact) (store : Store) :
    ∀ c d c' d' : Ctx, CtxAlike c c' → CtxAlike d d' →
      deepEqualCtx store c' d' = deepEqualCtx store (Ast.shownCtx c) (Ast.shownCtx d)
  | [], _, _, _, .nil, hd => by
      cases hd with
      | nil => rfl
      | cons _ _ => simp [Ast.shownCtx, deepEqualCtx]
  | es :: outer, _, _, _, .cons hes houter, hd => by
      cases hd with
      | nil => simp [Ast.shownCtx, deepEqualCtx]
      | @cons fs _ outer' _ hfs houter' =>
          rw [Ast.shownCtx, Ast.shownCtx, deepEqualCtx, deepEqualCtx,
            deepEqualBinds_shown hexact store es fs _ _ hes hfs,
            deepEqualCtx_shown hexact store outer outer' _ _ houter houter',
            ← (shownBinds_alike _ _ hes).length_eq, ← (shownBinds_alike _ _ hfs).length_eq]
termination_by structural x => x

end

/-- Values that are apart compare the same way wherever the positions are. -/
theorem deepEqual_of_apart (store : Store) {a b a' b' : Ast} (ha : Alike a a') (hb : Alike b b')
    (hapart : apart store a b = true) :
    deepEqual store a' b' = deepEqual store a.shown b.shown := by
  unfold apart at hapart
  rw [Bool.or_eq_true, Bool.not_eq_true', Bool.and_eq_true] at hapart
  rcases hapart with hdiffer | ⟨hplain, hplain'⟩
  · have hshown : deepEqual store a.shown b.shown = false :=
      eq_false_of_ne_true fun h => by simp [deepEqual_unplaced store _ _ h] at hdiffer
    have hmoved : deepEqual store a' b' = false := by
      apply eq_false_of_ne_true
      intro h
      have hunplaced := deepEqual_unplaced store _ _ h
      rw [unplaced_eq_of_alike _ _ ha, unplaced_eq_of_alike _ _ hb, hdiffer] at hunplaced
      cases hunplaced
    rw [hshown, hmoved]
  · rw [eq_of_alike _ _ hplain (shown_alike _ _ ha), eq_of_alike _ _ hplain' (shown_alike _ _ hb)]

end Alike

end Lang
end Di
