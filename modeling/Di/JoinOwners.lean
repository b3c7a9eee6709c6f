import Di.JoinStability

/-!
# Lefts that own a right

Some lefts own one of the rights: it is the only one for which their score is
zero.  Such a left takes its own right if it is still there when its turn comes.
A left that owns nothing may have taken it before, so whether every owner keeps
its right depends on the order of the two slices.

`keepsOwn_iff` says when it does not: in every order of both slices each owner is
paired with its own right exactly if no sequence of lefts that own nothing, each
taking an optimal right among those that are left, comes to an owned one.
-/

namespace Di
namespace Join

variable {α β : Type*}

/-- `own` gives the right that a left owns, if there is one. -/
structure Owning (score : α → β → ℤ) (own : α → Option β) (lefts : List α)
    (rights : List β) : Prop where
  listed : ∀ l ∈ lefts, ∀ r ∈ own l, r ∈ rights
  zero : ∀ l ∈ lefts, ∀ r ∈ own l, score l r = 0
  only : ∀ l ∈ lefts, ∀ r ∈ own l, ∀ t ∈ rights, score l t = 0 → t = r
  apart : lefts.Pairwise fun a b => ∀ r ∈ own a, own b ≠ some r

def KeepsOwn (score : α → β → ℤ) (own : α → Option β) (lefts : List α)
    (rights : List β) : Prop :=
  ∀ l ∈ lefts, ∀ r ∈ own l, (l, r) ∈ (join score lefts rights).pairs

def seekers (own : α → Option β) (lefts : List α) : List α :=
  lefts.filter fun l => (own l).isNone

/-- Lefts that own nothing can take optimal rights one after another until one of
them takes a right that is owned. -/
def Contested (score : α → β → ℤ) (own : α → Option β) (lefts : List α)
    (rights : List β) : Prop :=
  ∃ plan pair rest, Picks score (plan ++ [pair]) rights rest ∧
    ((plan ++ [pair]).map Prod.fst).Subperm (seekers own lefts) ∧
    ∃ l ∈ lefts, own l = some pair.2

section Owners

variable {score : α → β → ℤ} {own : α → Option β} {lefts : List α} {rights : List β}

theorem Owning.perm {ls : List α} {rs : List β} (howning : Owning score own lefts rights)
    (hls : ls.Perm lefts) (hrs : rs.Perm rights) : Owning score own ls rs where
  listed := fun l hl r hr => hrs.mem_iff.mpr (howning.listed l (hls.mem_iff.mp hl) r hr)
  zero := fun l hl => howning.zero l (hls.mem_iff.mp hl)
  only := fun l hl r hr t ht =>
    howning.only l (hls.mem_iff.mp hl) r hr t (hrs.mem_iff.mp ht)
  apart := by
    refine hls.symm.pairwise howning.apart ?_
    intro a b hab r hb ha
    exact hab r ha hb

theorem bestMatch_owner {l : α} (howning : Owning score own (l :: lefts) rights) {r : β}
    (hr : own l = some r) :
    ∃ best, bestMatch score l rights 0 none = some best ∧ best.elem = r := by
  have hlisted := howning.listed l (by simp) r hr
  have hzero := howning.zero l (by simp) r hr
  cases hmatch : bestMatch score l rights 0 none with
  | none =>
      have hneg := bestMatch_none hmatch r hlisted
      omega
  | some best =>
      rcases bestMatch_some hmatch with ⟨hsound, hbest⟩
      have hscore := hsound.score_eq
      have hnonneg := hsound.nonneg
      have hle := hbest r hlisted
      refine ⟨best, rfl, ?_⟩
      apply howning.only l (by simp) r hr
      · exact List.mem_of_getElem? hsound.at_index
      · omega

theorem Owning.tail {l : α} {fewer : List β} (howning : Owning score own (l :: lefts) rights)
    (hfewer : ∀ r ∈ fewer, r ∈ rights) (hlisted : ∀ late ∈ lefts, ∀ r ∈ own late, r ∈ fewer) :
    Owning score own lefts fewer where
  listed := hlisted
  zero := fun late hlate => howning.zero late (List.mem_cons_of_mem l hlate)
  only := fun late hlate r hr t ht =>
    howning.only late (List.mem_cons_of_mem l hlate) r hr t (hfewer t ht)
  apart := (List.pairwise_cons.mp howning.apart).2

theorem Owning.taken {l : α} {r : β} {fewer : List β}
    (howning : Owning score own (l :: lefts) rights) (hfewer : rights.Perm (r :: fewer))
    (hr : ∀ late ∈ lefts, own late ≠ some r) : Owning score own lefts fewer := by
  apply howning.tail
  · intro t ht
    exact hfewer.mem_iff.mpr (List.mem_cons_of_mem r ht)
  · intro late hlate t ht
    have hmem := hfewer.mem_iff.mp (howning.listed late (List.mem_cons_of_mem l hlate) t ht)
    rcases List.mem_cons.mp hmem with rfl | hmem
    · exact absurd ht (hr late hlate)
    · exact hmem

theorem KeepsOwn.matched {l : α} {best : Candidate β}
    (hkeeps : KeepsOwn score own lefts (sliceDel rights best.index))
    (hmatch : bestMatch score l rights 0 none = some best)
    (hown : ∀ r ∈ own l, r = best.elem) : KeepsOwn score own (l :: lefts) rights := by
  intro late hlate r hr
  rw [join_cons, hmatch]
  rcases List.mem_cons.mp hlate with rfl | hlate
  · rw [hown r hr]
    exact List.mem_cons_self
  · exact List.mem_cons_of_mem _ (hkeeps late hlate r hr)

theorem KeepsOwn.skipped {l : α} (hkeeps : KeepsOwn score own lefts rights)
    (hmatch : bestMatch score l rights 0 none = none) (hown : own l = none) :
    KeepsOwn score own (l :: lefts) rights := by
  intro late hlate r hr
  rw [join_cons, hmatch]
  rcases List.mem_cons.mp hlate with rfl | hlate
  · simp [hown] at hr
  · exact hkeeps late hlate r hr

theorem optimal_or_gone {l : α} {best : Candidate β} {left gone : List β}
    (hmatch : bestMatch score l rights 0 none = some best)
    (hleft : left.Perm (rights ++ gone)) :
    Optimal score left (l, best.elem) ∨ ∃ r ∈ gone, Optimal score left (l, r) := by
  rcases bestMatch_some hmatch with ⟨hsound, hbest⟩
  have hscore := hsound.score_eq
  have hnonneg := hsound.nonneg
  have hmem : best.elem ∈ left :=
    hleft.mem_iff.mpr (List.mem_append_left _ (List.mem_of_getElem? hsound.at_index))
  cases hbetter : bestMatch score l left 0 none with
  | none =>
      have hneg := bestMatch_none hbetter best.elem hmem
      omega
  | some better =>
      rcases bestMatch_some hbetter with ⟨hsound', hbest'⟩
      have hscore' := hsound'.score_eq
      have hoptimal : Optimal score left (l, better.elem) :=
        ⟨hscore' ▸ hsound'.nonneg, hscore' ▸ hbest'⟩
      have hwhere := hleft.mem_iff.mp (List.mem_of_getElem? hsound'.at_index)
      rcases List.mem_append.mp hwhere with hright | hgone
      · left
        refine ⟨hscore ▸ hnonneg, ?_⟩
        intro r hr
        have hle := hbest better.elem hright
        have hle' := hbest' r hr
        have hnonneg' := hsound'.nonneg
        change score l r < 0 ∨ score l best.elem ≤ score l r
        omega
      · exact .inr ⟨better.elem, hgone, hoptimal⟩

theorem contested_of_optimal {all : List α} {pool : List β} {plan : List (α × β)}
    {left : List β} {l : α} {r : β} (hpicks : Picks score plan pool left)
    (hoptimal : Optimal score left (l, r)) (hr : r ∈ left)
    (howned : ∃ owner ∈ all, own owner = some r) (hown : own l = none)
    (hseekers : (plan.map Prod.fst ++ seekers own (l :: lefts)).Subperm (seekers own all)) :
    Contested score own all pool := by
  rcases List.append_of_mem hr with ⟨before, after, hsplit⟩
  have hperm : left.Perm (r :: (before ++ after)) := hsplit ▸ List.perm_middle
  refine ⟨plan, (l, r), before ++ after, hpicks.concat hoptimal hperm, ?_, howned⟩
  have hfirst : (plan.map Prod.fst ++ [l]).Sublist
      (plan.map Prod.fst ++ seekers own (l :: lefts)) := by
    apply List.Sublist.append_left
    simp [seekers, hown]
  rw [List.map_append]
  exact hfirst.subperm.trans hseekers

/-- The loop from a point on at which only lefts without a right of their own have
taken rights that nobody owns (`plan`), and owners have taken their own (`gone`). -/
theorem keepsOwn_or_contested {all : List α} {pool : List β} {plan : List (α × β)}
    {left gone : List β} (hpicks : Picks score plan pool left)
    (hleft : left.Perm (rights ++ gone))
    (hgone : ∀ r ∈ gone, ∃ l ∈ all, own l = some r)
    (hlefts : ∀ l ∈ lefts, l ∈ all)
    (hseekers : (plan.map Prod.fst ++ seekers own lefts).Subperm (seekers own all))
    (howning : Owning score own lefts rights) :
    KeepsOwn score own lefts rights ∨ Contested score own all pool := by
  induction lefts generalizing rights plan left gone with
  | nil => exact .inl (by simp [KeepsOwn])
  | cons l lefts ih =>
      have hlater : ∀ late ∈ lefts, late ∈ all :=
        fun late hlate => hlefts late (List.mem_cons_of_mem l hlate)
      cases hown : own l with
      | some r =>
          rcases bestMatch_owner howning hown with ⟨best, hmatch, rfl⟩
          have hdel := perm_cons_sliceDel (bestMatch_some hmatch).1.at_index
          have hapart := (List.pairwise_cons.mp howning.apart).1
          have hrest : left.Perm (sliceDel rights best.index ++ best.elem :: gone) :=
            hleft.trans ((hdel.append_right gone).trans List.perm_middle.symm)
          have hgone' : ∀ r ∈ best.elem :: gone, ∃ l ∈ all, own l = some r := by
            intro r hr
            rcases List.mem_cons.mp hr with rfl | hr
            · exact ⟨l, hlefts l (by simp), hown⟩
            · exact hgone r hr
          have hsame : seekers own (l :: lefts) = seekers own lefts := by
            simp [seekers, hown]
          rw [hsame] at hseekers
          have howning' := howning.taken hdel fun late hlate => hapart late hlate _ hown
          apply (ih hpicks hrest hgone' hlater hseekers howning').imp_left
          intro hkeeps
          exact hkeeps.matched hmatch (by simp [hown])
      | none =>
          cases hmatch : bestMatch score l rights 0 none with
          | none =>
              have howning' := howning.tail (fun _ hr => hr) fun late hlate =>
                howning.listed late (List.mem_cons_of_mem l hlate)
              have hfewer : (plan.map Prod.fst ++ seekers own lefts).Sublist
                  (plan.map Prod.fst ++ seekers own (l :: lefts)) := by
                apply List.Sublist.append_left
                simp [seekers, hown]
              apply (ih hpicks hleft hgone hlater (hfewer.subperm.trans hseekers)
                howning').imp_left
              intro hkeeps
              exact hkeeps.skipped hmatch hown
          | some best =>
              have hdel := perm_cons_sliceDel (bestMatch_some hmatch).1.at_index
              have hrest : left.Perm (best.elem :: (sliceDel rights best.index ++ gone)) :=
                hleft.trans (hdel.append_right gone)
              rcases optimal_or_gone hmatch hleft with hoptimal | ⟨r, hr, hoptimal⟩
              · by_cases howned : ∃ owner ∈ all, own owner = some best.elem
                · exact .inr (contested_of_optimal hpicks hoptimal
                    (hrest.mem_iff.mpr List.mem_cons_self) howned hown hseekers)
                · have howning' := howning.taken hdel fun late hlate heq =>
                    howned ⟨late, hlater late hlate, heq⟩
                  have hseekers' : ((plan ++ [(l, best.elem)]).map Prod.fst ++
                      seekers own lefts).Subperm (seekers own all) := by
                    simpa [seekers, hown] using hseekers
                  apply (ih (hpicks.concat hoptimal hrest) .rfl hgone hlater hseekers'
                    howning').imp_left
                  intro hkeeps
                  exact hkeeps.matched hmatch (by simp [hown])
              · exact .inr (contested_of_optimal hpicks hoptimal
                  (hleft.mem_iff.mpr (List.mem_append_right _ hr)) (hgone r hr) hown hseekers)

/-- In every order of both slices every owner is paired with its own right exactly if
no owned right is contested. -/
theorem keepsOwn_iff (howning : Owning score own lefts rights) (hrights : rights.Nodup) :
    (∀ ls rs, ls.Perm lefts → rs.Perm rights → KeepsOwn score own ls rs) ↔
      ¬ Contested score own lefts rights := by
  constructor
  · rintro hkeeps ⟨plan, pair, rest, hpicks, hseekers, owner, howner, hown⟩
    obtain ⟨others, hothers⟩ : ∃ others,
        lefts.Perm ((plan ++ [pair]).map Prod.fst ++ others) := by
      rcases hseekers.trans List.filter_sublist.subperm with ⟨chosen, hperm, hsublist⟩
      rcases hsublist.exists_perm_append with ⟨others, hall⟩
      exact ⟨others, hall.trans (hperm.append_right others)⟩
    rcases hpicks.followed others with ⟨rs, hrs, hjoin⟩
    have hkept := hkeeps _ rs hothers.symm hrs owner (hothers.mem_iff.mp howner) _ hown
    have htaken : pair ∈ (join score ((plan ++ [pair]).map Prod.fst ++ others) rs).pairs := by
      rw [hjoin]
      simp
    -- the right of the pair is matched once
    have hnodup := ((join_rights_perm score ((plan ++ [pair]).map Prod.fst ++ others)
      rs).trans hrs).nodup_iff.mpr hrights
    have hsame : (owner, pair.2) = pair :=
      List.inj_on_of_nodup_map (List.nodup_append.mp hnodup).1 hkept htaken rfl
    have hseeker : pair.1 ∈ seekers own lefts := hseekers.subset (by simp)
    have hnone : own pair.1 = none := by simpa [seekers] using (List.mem_filter.mp hseeker).2
    rw [← hsame, hown] at hnone
    cases hnone
  · intro hcontested ls rs hls hrs
    have hpicks : Picks score [] rights rs := hrs
    have hnone : ∀ r ∈ ([] : List β), ∃ l ∈ lefts, own l = some r := by simp
    have hseekers : (seekers own ls).Perm (seekers own lefts) := hls.filter _
    have hkeeps := keepsOwn_or_contested hpicks (by simp) hnone
      (fun l hl => hls.mem_iff.mp hl) hseekers.subperm (howning.perm hls hrs)
    exact hkeeps.resolve_right hcontested

/-- Nothing is contested if the lefts that own nothing cannot take what is owned. -/
theorem not_contested_of_incompatible
    (hneg : ∀ l ∈ lefts, own l = none → ∀ owner ∈ lefts, ∀ r ∈ own owner, score l r < 0) :
    ¬ Contested score own lefts rights := by
  rintro ⟨plan, pair, rest, hpicks, hseekers, owner, howner, hown⟩
  have hnonneg : 0 ≤ score pair.1 pair.2 := hpicks.nonneg pair (by simp)
  have hseeker : pair.1 ∈ seekers own lefts := hseekers.subset (by simp)
  rcases List.mem_filter.mp hseeker with ⟨hmem, hnone⟩
  have hscore := hneg pair.1 hmem (by simpa using hnone) owner howner pair.2 hown
  omega

end Owners

end Join
end Di
