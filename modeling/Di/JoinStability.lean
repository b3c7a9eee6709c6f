import Di.Join

/-!
# When a greedy join reproduces an earlier one

The rights show a view that was once written from the lefts: up to
permutation, the views of the rights are the targets of the lefts.  Does
joining them again pair every left with a right that shows its own target?

`join_reproduces` gives a condition on the left slice under which it does,
whatever the order of the rights.  Conversely `Picks.followed` lets the order of
the rights choose the matches, as long as each chosen right is optimal for its
left among those that are left, so a left that may take the right of a later one
is a real risk.
-/

namespace Di
namespace Join

variable {α β X : Type*}

/-- No left can take, with a score of at most `bound`, a right that shows the
target of a later left, unless the two targets agree. -/
def Settled (score : α → β → ℤ) (bound : ℤ) (view : β → X) (target : α → X)
    (lefts : List α) : Prop :=
  lefts.Pairwise fun early late =>
    ∀ r, view r = target late → 0 ≤ score early r → score early r ≤ bound →
      target early = target late

section Reproduces

variable {score : α → β → ℤ} {bound : ℤ} {view : β → X} {target : α → X}

/-- A left whose target is shown by some right is matched, and with a right
that shows its target. -/
theorem bestMatch_own {l : α} {lefts : List α} {rights : List β}
    (hviews : (rights.map view).Perm ((l :: lefts).map target))
    (hown : ∀ r ∈ rights, view r = target l →
      0 ≤ score l r ∧ score l r ≤ bound)
    (hlate : ∀ late ∈ lefts, ∀ r, view r = target late → 0 ≤ score l r →
      score l r ≤ bound → target l = target late) :
    ∃ best, bestMatch score l rights 0 none = some best ∧
      view best.elem = target l := by
  obtain ⟨own, hownMem, hownView⟩ : ∃ r ∈ rights, view r = target l := by
    have hmem : target l ∈ rights.map view := hviews.mem_iff.mpr (by simp)
    obtain ⟨r, hr, heq⟩ := List.mem_map.mp hmem
    exact ⟨r, hr, heq⟩
  obtain ⟨hownNonneg, hownBound⟩ := hown own hownMem hownView
  cases hmatch : bestMatch score l rights 0 none with
  | none =>
      have hneg := bestMatch_none hmatch own hownMem
      omega
  | some best =>
      refine ⟨best, rfl, ?_⟩
      obtain ⟨hsound, hoptimal⟩ := bestMatch_some hmatch
      have hbound : best.score ≤ bound := by
        rcases hoptimal own hownMem with hneg | hle
        · omega
        · exact hle.trans hownBound
      have hbestMem : best.elem ∈ rights := List.mem_of_getElem? hsound.at_index
      have hview : view best.elem ∈ (l :: lefts).map target :=
        hviews.mem_iff.mp (List.mem_map_of_mem hbestMem)
      obtain ⟨owner, howner, heq⟩ := List.mem_map.mp hview
      rcases List.mem_cons.mp howner with rfl | hlater
      · exact heq.symm
      · rw [← heq]
        apply (hlate owner hlater best.elem heq.symm _ _).symm
        · exact hsound.score_eq ▸ hsound.nonneg
        · exact hsound.score_eq ▸ hbound

/-- In a settled left slice every left is matched with a right that shows its
own target, in every order of the rights. -/
theorem join_reproduces {lefts : List α} {rights : List β}
    (hviews : (rights.map view).Perm (lefts.map target))
    (hown : ∀ l ∈ lefts, ∀ r ∈ rights, view r = target l →
      0 ≤ score l r ∧ score l r ≤ bound)
    (hsettled : Settled score bound view target lefts) :
    (join score lefts rights).lonelyLefts = [] ∧
      (join score lefts rights).lonelyRights = [] ∧
      ∀ pair ∈ (join score lefts rights).pairs,
        view pair.2 = target pair.1 := by
  induction lefts generalizing rights with
  | nil =>
      have hnil : rights = [] := by simpa using hviews
      simp [hnil]
  | cons l lefts ih =>
      obtain ⟨hlate, hrest⟩ := List.pairwise_cons.mp hsettled
      obtain ⟨best, hmatch, hview⟩ := bestMatch_own hviews (hown l (by simp)) hlate
      have hdel := perm_cons_sliceDel (bestMatch_some hmatch).1.at_index
      have hviewsRest : ((sliceDel rights best.index).map view).Perm
          (lefts.map target) := by
        have hmap := (hdel.map view).symm.trans hviews
        rw [List.map_cons, List.map_cons, hview] at hmap
        exact hmap.cons_inv
      have hownRest : ∀ x ∈ lefts, ∀ r ∈ sliceDel rights best.index,
          view r = target x → 0 ≤ score x r ∧ score x r ≤ bound := by
        intro x hx r hr
        exact hown x (List.mem_cons_of_mem l hx) r
          (hdel.mem_iff.mpr (List.mem_cons_of_mem best.elem hr))
      obtain ⟨hlonelyLefts, hlonelyRights, hpairs⟩ :=
        ih hviewsRest hownRest hrest
      rw [join_cons, hmatch]
      refine ⟨hlonelyLefts, hlonelyRights, ?_⟩
      intro pair hpair
      rcases List.mem_cons.mp hpair with rfl | htail
      · exact hview
      · exact hpairs pair htail

end Reproduces

/-- If the score only looks at the classes of its arguments, and there are as many
lefts as rights of each class, then nothing is left over. -/
theorem join_complete_of_classes {score : α → β → ℤ} {f : α → X} {g : β → X} {lefts : List α}
    {rights : List β} (hscore : ∀ l ∈ lefts, ∀ r ∈ rights, 0 ≤ score l r ↔ f l = g r)
    (hclasses : (lefts.map f).Perm (rights.map g)) :
    (join score lefts rights).lonelyLefts = [] ∧
      (join score lefts rights).lonelyRights = [] := by
  set joined := join score lefts rights with hjoined
  have hlefts := join_lefts_perm score lefts rights
  have hrights := join_rights_perm score lefts rights
  rw [← hjoined] at hlefts hrights
  have hpairs : joined.pairs.map (f ∘ Prod.fst) = joined.pairs.map (g ∘ Prod.snd) := by
    apply List.map_congr_left
    intro pair hpair
    exact (hscore _ (join_pair_left_mem score hpair) _ (join_pair_right_mem score hpair)).mp
      (join_pairs_nonneg score lefts rights pair hpair)
  have hlonely : (joined.lonelyLefts.map f).Perm (joined.lonelyRights.map g) := by
    have hall := ((hlefts.map f).trans hclasses).trans (hrights.map g).symm
    rw [List.map_append, List.map_append, List.map_map, List.map_map, hpairs] at hall
    exact (List.perm_append_left_iff _).mp hall
  have hnone : joined.lonelyLefts = [] := by
    rw [List.eq_nil_iff_forall_not_mem]
    intro l hl
    rcases List.mem_map.mp (hlonely.mem_iff.mp (List.mem_map_of_mem hl)) with ⟨r, hr, hclass⟩
    have hneg := join_lonely_incompatible score hl hr
    have hl' := hlefts.mem_iff.mp (List.mem_append_right _ hl)
    have hnonneg := (hscore l hl' r (join_lonelyRight_mem score hr)).mpr hclass.symm
    omega
  rw [hnone] at hlonely
  exact ⟨hnone, by simpa using hlonely.symm⟩

/-! ## Steering the join by the order of the rights -/

/-- A slice from which deleting the head `r` leaves `slice`. -/
def undelete (r : β) : List β → List β
  | [] => [r]
  | x :: rest => r :: (rest ++ [x])

theorem undelete_perm (r : β) (slice : List β) :
    (undelete r slice).Perm (r :: slice) := by
  cases slice with
  | nil => exact .rfl
  | cons x rest => exact (List.perm_append_singleton x rest).cons r

theorem sliceDel_undelete (r : β) (slice : List β) :
    sliceDel (undelete r slice) 0 = slice := by
  cases slice with
  | nil => rfl
  | cons x rest =>
      have hlast : (r :: (rest ++ [x])).getLast? = some x := by
        rw [← List.cons_append, List.getLast?_concat]
      simp only [undelete, sliceDel, hlast, List.set_cons_zero]
      rw [← List.cons_append, List.dropLast_concat]

/-- The right of the pair is optimal for its left within the pool. -/
def Optimal (score : α → β → ℤ) (pool : List β) (pair : α × β) : Prop :=
  0 ≤ score pair.1 pair.2 ∧
    ∀ r ∈ pool, score pair.1 r < 0 ∨ score pair.1 pair.2 ≤ score pair.1 r

theorem Optimal.of_subset {score : α → β → ℤ} {pool smaller : List β} {pair : α × β}
    (hoptimal : Optimal score pool pair) (hsmaller : ∀ r ∈ smaller, r ∈ pool) :
    Optimal score smaller pair :=
  ⟨hoptimal.1, fun r hr => hoptimal.2 r (hsmaller r hr)⟩

/-- The lefts of the plan can take its rights out of the pool one after another, each
one an optimal one among those that are left, and `rest` remains. -/
def Picks (score : α → β → ℤ) : List (α × β) → List β → List β → Prop
  | [], pool, rest => rest.Perm pool
  | pair :: plan, pool, rest =>
      Optimal score pool pair ∧ ∃ left, pool.Perm (pair.2 :: left) ∧ Picks score plan left rest

theorem Picks.perm {score : α → β → ℤ} {plan : List (α × β)} {pool rest : List β}
    (hpicks : Picks score plan pool rest) : pool.Perm (plan.map Prod.snd ++ rest) := by
  induction plan generalizing pool with
  | nil => exact List.Perm.symm hpicks
  | cons pair plan ih =>
      rcases hpicks with ⟨_, left, hleft, hplan⟩
      exact hleft.trans ((ih hplan).cons pair.2)

theorem Picks.of_perm {score : α → β → ℤ} {plan : List (α × β)} {pool other rest : List β}
    (hpicks : Picks score plan pool rest) (hother : other.Perm pool) :
    Picks score plan other rest := by
  cases plan with
  | nil => exact List.Perm.trans hpicks hother.symm
  | cons pair plan =>
      rcases hpicks with ⟨hoptimal, left, hleft, hplan⟩
      exact ⟨hoptimal.of_subset fun r => hother.mem_iff.mp, left, hother.trans hleft, hplan⟩

theorem Picks.nonneg {score : α → β → ℤ} {plan : List (α × β)} {pool rest : List β}
    (hpicks : Picks score plan pool rest) : ∀ pair ∈ plan, 0 ≤ score pair.1 pair.2 := by
  induction plan generalizing pool with
  | nil => simp
  | cons first plan ih =>
      rcases hpicks with ⟨hfirst, left, _, hplan⟩
      intro pair hpair
      rcases List.mem_cons.mp hpair with rfl | hpair
      · exact hfirst.1
      · exact ih hplan pair hpair

theorem Picks.concat {score : α → β → ℤ} {plan : List (α × β)} {pool left rest : List β}
    {pair : α × β} (hpicks : Picks score plan pool left) (hoptimal : Optimal score left pair)
    (hleft : left.Perm (pair.2 :: rest)) : Picks score (plan ++ [pair]) pool rest := by
  induction plan generalizing pool with
  | nil =>
      have hperm : left.Perm pool := hpicks
      exact ⟨hoptimal.of_subset fun r => hperm.mem_iff.mpr, rest, hperm.symm.trans hleft, .rfl⟩
  | cons first plan ih =>
      rcases hpicks with ⟨hfirst, next, hnext, hplan⟩
      exact ⟨hfirst, next, hnext, ih hplan⟩

/-- The join itself picks its pairs one after another. -/
theorem join_picks (score : α → β → ℤ) (lefts : List α) (rights : List β) :
    Picks score (join score lefts rights).pairs rights
      (join score lefts rights).lonelyRights := by
  induction lefts generalizing rights with
  | nil => exact List.Perm.refl rights
  | cons l lefts ih =>
      rw [join_cons]
      cases hmatch : bestMatch score l rights 0 none with
      | none => exact ih rights
      | some best =>
          rcases bestMatch_some hmatch with ⟨hsound, hbest⟩
          have hscore := hsound.score_eq
          refine ⟨⟨hscore ▸ hsound.nonneg, ?_⟩, _, perm_cons_sliceDel hsound.at_index, ih _⟩
          simpa only [← hscore] using hbest

/-- Some order of the rights makes the join match the first lefts as
planned and continue with the remaining rights. -/
theorem Picks.followed {score : α → β → ℤ} {plan : List (α × β)} {pool rest : List β}
    (hpicks : Picks score plan pool rest) (lefts : List α) :
    ∃ rights : List β, rights.Perm pool ∧
      join score (plan.map Prod.fst ++ lefts) rights =
        { join score lefts rest with pairs := plan ++ (join score lefts rest).pairs } := by
  induction plan generalizing pool with
  | nil => exact ⟨rest, hpicks, rfl⟩
  | cons pair plan ih =>
      rcases hpicks with ⟨⟨hnonneg, hbest⟩, left, hleft, hplan⟩
      rcases ih hplan with ⟨rights, hperm, hjoin⟩
      have hall : (undelete pair.2 rights).Perm pool :=
        (undelete_perm pair.2 rights).trans ((hperm.cons pair.2).trans hleft.symm)
      refine ⟨undelete pair.2 rights, hall, ?_⟩
      have hworse : ∀ r ∈ undelete pair.2 rights,
          score pair.1 r < 0 ∨ score pair.1 pair.2 ≤ score pair.1 r :=
        fun r hr => hbest r (hall.mem_iff.mp hr)
      have hmatch : bestMatch score pair.1 (undelete pair.2 rights) 0 none =
          some ⟨0, pair.2, score pair.1 pair.2⟩ := by
        cases rights with
        | nil => exact bestMatch_head hnonneg (by simp)
        | cons x tail =>
            exact bestMatch_head hnonneg fun r hr => hworse r (List.mem_cons_of_mem _ hr)
      rw [List.map_cons, List.cons_append, join_cons, hmatch]
      simp only [sliceDel_undelete, hjoin, List.cons_append]

theorem join_steered {score : α → β → ℤ} (steer : List (α × β))
    (lefts : List α) (rest pool : List β)
    (hpool : ∀ r ∈ steer.map Prod.snd ++ rest, r ∈ pool)
    (hoptimal : ∀ pair ∈ steer, Optimal score pool pair) :
    ∃ rights : List β, rights.Perm (steer.map Prod.snd ++ rest) ∧
      (join score (steer.map Prod.fst ++ lefts) rights).pairs =
        steer ++ (join score lefts rest).pairs := by
  have hpicks : Picks score steer (steer.map Prod.snd ++ rest) rest := by
    induction steer with
    | nil => exact List.Perm.refl rest
    | cons pair steer ih =>
        refine ⟨(hoptimal pair (by simp)).of_subset hpool, _, .rfl, ?_⟩
        apply ih
        · exact fun r hr => hpool r (List.mem_cons_of_mem pair.2 hr)
        · exact fun other hother => hoptimal other (List.mem_cons_of_mem pair hother)
  rcases hpicks.followed lefts with ⟨rights, hperm, hjoin⟩
  exact ⟨rights, hperm, by rw [hjoin]⟩

end Join
end Di
