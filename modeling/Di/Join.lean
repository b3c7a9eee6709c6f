import Mathlib.Tactic

/-!
# The greedy join

`join.Join` matches the elements of a left slice, in order, with the elements
of a right slice.  A negative score forbids a match; among the rights that are
still lonely the one whose score is closest to zero wins, the first one on a
tie, and a score of zero ends the search at once.  A matched right is deleted
by moving the last lonely right into its place, so the order in which later
lefts meet the rights depends on the earlier matches.

The specification is stated up to permutation: nothing is lost or duplicated,
no pair has a negative score, every pair is at least as good as any right left
over, and no left over pair could have been matched.
-/

namespace Di
namespace Join

variable {α β : Type*}

/-- The right remembered by the inner loop, with its index and its score. -/
structure Candidate (β : Type*) where
  index : ℕ
  elem : β
  score : ℤ

/-- The inner loop over the lonely rights, from index `i` on. -/
def bestMatch (score : α → β → ℤ) (l : α) :
    List β → ℕ → Option (Candidate β) → Option (Candidate β)
  | [], _, best => best
  | r :: rest, i, best =>
      let s := score l r
      if s < 0 then bestMatch score l rest (i + 1) best
      else if s = 0 then some ⟨i, r, s⟩
      else match best with
        | none => bestMatch score l rest (i + 1) (some ⟨i, r, s⟩)
        | some old =>
            if s < old.score then bestMatch score l rest (i + 1) (some ⟨i, r, s⟩)
            else bestMatch score l rest (i + 1) best

/-- Deletes index `i` by moving the last element into its place. -/
def sliceDel (slice : List β) (i : ℕ) : List β :=
  match slice.getLast? with
  | none => []
  | some last => (slice.set i last).dropLast

structure Joined (α β : Type*) where
  pairs : List (α × β)
  lonelyLefts : List α
  lonelyRights : List β

/-- The outer loop over the lefts. -/
def join (score : α → β → ℤ) : List α → List β → Joined α β
  | [], rights => ⟨[], [], rights⟩
  | l :: lefts, rights =>
      match bestMatch score l rights 0 none with
      | some best =>
          let joined := join score lefts (sliceDel rights best.index)
          { joined with pairs := (l, best.elem) :: joined.pairs }
      | none =>
          let joined := join score lefts rights
          { joined with lonelyLefts := l :: joined.lonelyLefts }

@[simp] theorem join_nil (score : α → β → ℤ) (rights : List β) :
    join score [] rights = ⟨[], [], rights⟩ := rfl

theorem join_cons (score : α → β → ℤ) (l : α) (lefts : List α) (rights : List β) :
    join score (l :: lefts) rights =
      match bestMatch score l rights 0 none with
      | some best =>
          let joined := join score lefts (sliceDel rights best.index)
          { joined with pairs := (l, best.elem) :: joined.pairs }
      | none =>
          let joined := join score lefts rights
          { joined with lonelyLefts := l :: joined.lonelyLefts } := rfl

/-! ## The inner loop -/

/-- A candidate is a right at its index with a non-negative score. -/
structure Candidate.Sound (score : α → β → ℤ) (l : α) (rights : List β)
    (c : Candidate β) : Prop where
  at_index : rights[c.index]? = some c.elem
  score_eq : c.score = score l c.elem
  nonneg : 0 ≤ c.score

/-- What the inner loop returns when it starts after `seen` with a candidate
that is optimal for `seen`. -/
theorem bestMatch_from
    (score : α → β → ℤ) (l : α) (seen rights : List β)
    (best : Option (Candidate β))
    (hsound : ∀ c ∈ best, c.Sound score l (seen ++ rights))
    (hbest : ∀ c ∈ best, ∀ r ∈ seen, score l r < 0 ∨ c.score ≤ score l r)
    (hnone : best = none → ∀ r ∈ seen, score l r < 0) :
    (∀ c ∈ bestMatch score l rights seen.length best,
      c.Sound score l (seen ++ rights) ∧
        ∀ r ∈ seen ++ rights, score l r < 0 ∨ c.score ≤ score l r) ∧
    (bestMatch score l rights seen.length best = none →
      ∀ r ∈ seen ++ rights, score l r < 0) := by
  induction rights generalizing seen best with
  | nil =>
      simp only [bestMatch, List.append_nil] at *
      exact ⟨fun c hc => ⟨hsound c hc, hbest c hc⟩, hnone⟩
  | cons r rest ih =>
      have hlength : (seen ++ [r]).length = seen.length + 1 := by simp
      have happend : seen ++ r :: rest = (seen ++ [r]) ++ rest := by simp
      have hat : (seen ++ r :: rest)[seen.length]? = some r := by simp
      have hlast : ∀ {P : β → Prop}, (∀ x ∈ seen, P x) → P r →
          ∀ x ∈ seen ++ [r], P x := by
        intro P hseen hr x hx
        rcases List.mem_append.mp hx with hx | hx
        · exact hseen x hx
        · rw [List.mem_singleton] at hx
          exact hx ▸ hr
      -- The next iteration always starts after `seen ++ [r]`.
      have hnext := ih (seen ++ [r])
      rw [← happend, hlength] at hnext
      simp only [bestMatch]
      by_cases hneg : score l r < 0
      · rw [if_pos hneg]
        apply hnext best hsound
        · intro c hc
          exact hlast (hbest c hc) (.inl hneg)
        · intro hempty
          exact hlast (hnone hempty) hneg
      · rw [if_neg hneg]
        have hnonneg : 0 ≤ score l r := not_lt.mp hneg
        by_cases hzero : score l r = 0
        · rw [if_pos hzero]
          refine ⟨?_, by simp⟩
          intro c hc
          rw [Option.mem_def, Option.some.injEq] at hc
          subst hc
          refine ⟨⟨hat, rfl, hnonneg⟩, ?_⟩
          intro x _
          rw [hzero]
          exact lt_or_ge _ _
        · rw [if_neg hzero]
          -- the current right becomes the candidate if no earlier one is better
          have htake (hfirst : ∀ x ∈ seen, score l x < 0 ∨ score l r ≤ score l x) := by
            apply hnext (some ⟨seen.length, r, score l r⟩)
            · intro c hc
              rw [Option.mem_def, Option.some.injEq] at hc
              subst hc
              exact ⟨hat, rfl, hnonneg⟩
            · intro c hc
              rw [Option.mem_def, Option.some.injEq] at hc
              subst hc
              exact hlast hfirst (.inr le_rfl)
            · simp
          cases best with
          | none => exact htake fun x hx => .inl (hnone rfl x hx)
          | some old =>
              by_cases hlt : score l r < old.score
              · simp only [if_pos hlt]
                apply htake
                intro x hx
                exact (hbest old rfl x hx).imp id (le_trans hlt.le)
              · simp only [if_neg hlt]
                apply hnext (some old) hsound
                · intro c hc
                  rw [Option.mem_def, Option.some.injEq] at hc
                  subst hc
                  exact hlast (hbest old rfl) (.inr (not_lt.mp hlt))
                · simp

section InnerLoop

variable {score : α → β → ℤ} {l : α} {rights : List β}

/-- A match is a non-negative score that no right undercuts. -/
theorem bestMatch_some {c : Candidate β} (hmatch : bestMatch score l rights 0 none = some c) :
    c.Sound score l rights ∧ ∀ r ∈ rights, score l r < 0 ∨ c.score ≤ score l r := by
  have hspec := bestMatch_from score l [] rights none (by simp) (by simp) (by simp)
  simpa using hspec.1 c (by simpa using hmatch)

/-- No match means that every score is negative. -/
theorem bestMatch_none (hmatch : bestMatch score l rights 0 none = none) :
    ∀ r ∈ rights, score l r < 0 := by
  have hspec := bestMatch_from score l [] rights none (by simp) (by simp) (by simp)
  simpa using hspec.2 (by simpa using hmatch)

theorem bestMatch_of_negative (hneg : ∀ r ∈ rights, score l r < 0) :
    bestMatch score l rights 0 none = none := by
  cases hmatch : bestMatch score l rights 0 none with
  | none => rfl
  | some best =>
      have hsound := (bestMatch_some hmatch).1
      have hscore := hneg best.elem (List.mem_of_getElem? hsound.at_index)
      have hnonneg := hsound.nonneg
      rw [hsound.score_eq] at hnonneg
      omega

/-- The remembered candidate survives rights that do not undercut it. -/
theorem bestMatch_keeps (best : Candidate β) (hpos : 0 < best.score) (rights : List β) (i : ℕ)
    (hworse : ∀ r ∈ rights, score l r < 0 ∨ best.score ≤ score l r) :
    bestMatch score l rights i (some best) = some best := by
  induction rights generalizing i with
  | nil => rfl
  | cons r rest ih =>
      have hrest : ∀ x ∈ rest, score l x < 0 ∨ best.score ≤ score l x :=
        fun x hx => hworse x (List.mem_cons_of_mem r hx)
      simp only [bestMatch]
      rcases hworse r (by simp) with hneg | hle
      · rw [if_pos hneg, ih (i + 1) hrest]
      · have hnonneg : ¬ score l r < 0 := by omega
        have hne : ¬ score l r = 0 := by omega
        have hge : ¬ score l r < best.score := by omega
        rw [if_neg hnonneg, if_neg hne, if_neg hge, ih (i + 1) hrest]

/-- A head that no other right undercuts is matched. -/
theorem bestMatch_head {r : β} {rest : List β} (hnonneg : 0 ≤ score l r)
    (hworse : ∀ x ∈ rest, score l x < 0 ∨ score l r ≤ score l x) :
    bestMatch score l (r :: rest) 0 none = some ⟨0, r, score l r⟩ := by
  simp only [bestMatch]
  rw [if_neg (not_lt.mpr hnonneg)]
  by_cases hzero : score l r = 0
  · rw [if_pos hzero]
  · rw [if_neg hzero]
    have hpos : 0 < score l r := by omega
    exact bestMatch_keeps ⟨0, r, score l r⟩ hpos rest 1 hworse

end InnerLoop

/-! ## Deleting a matched right -/

theorem perm_cons_sliceDel {rights : List β} {i : ℕ} {r : β}
    (hat : rights[i]? = some r) : rights.Perm (r :: sliceDel rights i) := by
  obtain ⟨front, last, rfl⟩ : ∃ front last, rights = front ++ [last] := by
    rcases List.eq_nil_or_concat rights with hnil | ⟨front, last, hconcat⟩
    · simp [hnil] at hat
    · exact ⟨front, last, by simpa using hconcat⟩
  have hdel : sliceDel (front ++ [last]) i =
      ((front ++ [last]).set i last).dropLast := by
    simp [sliceDel]
  rw [hdel]
  rcases Nat.lt_trichotomy i front.length with hlt | heq | hgt
  · -- An inner right: the last one takes its place.
    rw [List.getElem?_append_left hlt] at hat
    rw [List.set_append_left i last hlt, List.dropLast_concat]
    have hget : front[i] = r := by
      rw [List.getElem?_eq_getElem hlt, Option.some.injEq] at hat
      exact hat
    have hset := (List.set_perm_cons_eraseIdx hlt last).cons r
    have herase := List.getElem_cons_eraseIdx_perm hlt
    rw [hget] at herase
    calc
      (front ++ [last]).Perm (last :: front) := List.perm_append_singleton last front
      (last :: front).Perm (last :: r :: front.eraseIdx i) := herase.symm.cons last
      (last :: r :: front.eraseIdx i).Perm (r :: last :: front.eraseIdx i) :=
        List.Perm.swap r last _
      (r :: last :: front.eraseIdx i).Perm (r :: front.set i last) := hset.symm
  · subst heq
    simp only [List.getElem?_concat_length, Option.some.injEq] at hat
    subst hat
    rw [List.set_append_right front.length last le_rfl]
    simp
  · have hout : (front ++ [last])[i]? = none := by
      rw [List.getElem?_eq_none_iff]
      simp
      omega
    rw [hout] at hat
    contradiction

/-! ## The whole join -/

section Spec

variable (score : α → β → ℤ)

/-- Every left is matched or lonely, in the order of the left slice. -/
theorem join_lefts_perm (lefts : List α) (rights : List β) :
    ((join score lefts rights).pairs.map Prod.fst ++
      (join score lefts rights).lonelyLefts).Perm lefts := by
  induction lefts generalizing rights with
  | nil => simp
  | cons l lefts ih =>
      rw [join_cons]
      cases bestMatch score l rights 0 none with
      | none => exact List.perm_middle.trans ((ih rights).cons l)
      | some best => exact (ih (sliceDel rights best.index)).cons l

@[simp] theorem join_nil_right (lefts : List α) :
    join score lefts ([] : List β) = ⟨[], lefts, []⟩ := by
  induction lefts with
  | nil => rfl
  | cons l lefts ih => simp [join_cons, bestMatch, ih]

/-- Every right is matched or lonely. -/
theorem join_rights_perm (lefts : List α) (rights : List β) :
    ((join score lefts rights).pairs.map Prod.snd ++
      (join score lefts rights).lonelyRights).Perm rights := by
  induction lefts generalizing rights with
  | nil => simp
  | cons l lefts ih =>
      rw [join_cons]
      cases hmatch : bestMatch score l rights 0 none with
      | none => exact ih rights
      | some best =>
          have hsound := (bestMatch_some hmatch).1
          exact ((ih (sliceDel rights best.index)).cons best.elem).trans
            (perm_cons_sliceDel hsound.at_index).symm

theorem join_pairs_nonneg (lefts : List α) (rights : List β) :
    ∀ pair ∈ (join score lefts rights).pairs, 0 ≤ score pair.1 pair.2 := by
  induction lefts generalizing rights with
  | nil => simp
  | cons l lefts ih =>
      rw [join_cons]
      cases hmatch : bestMatch score l rights 0 none with
      | none => exact ih rights
      | some best =>
          have hsound := (bestMatch_some hmatch).1
          intro pair hpair
          rcases List.mem_cons.mp hpair with rfl | hrest
          · exact hsound.score_eq ▸ hsound.nonneg
          · exact ih (sliceDel rights best.index) pair hrest

theorem join_pair_left_mem {lefts : List α} {rights : List β} {pair : α × β}
    (hpair : pair ∈ (join score lefts rights).pairs) : pair.1 ∈ lefts :=
  (join_lefts_perm score lefts rights).mem_iff.mp
    (List.mem_append_left _ (List.mem_map_of_mem hpair))

theorem join_pair_right_mem {lefts : List α} {rights : List β} {pair : α × β}
    (hpair : pair ∈ (join score lefts rights).pairs) : pair.2 ∈ rights :=
  (join_rights_perm score lefts rights).mem_iff.mp
    (List.mem_append_left _ (List.mem_map_of_mem hpair))

theorem join_lonelyRight_mem {lefts : List α} {rights : List β} {r : β}
    (hlonely : r ∈ (join score lefts rights).lonelyRights) : r ∈ rights :=
  (join_rights_perm score lefts rights).mem_iff.mp
    (List.mem_append_right _ hlonely)

/-- A left and a right that are both left over cannot be paired. -/
theorem join_lonely_incompatible {lefts : List α} {rights : List β} {l : α} {r : β}
    (hleft : l ∈ (join score lefts rights).lonelyLefts)
    (hright : r ∈ (join score lefts rights).lonelyRights) : score l r < 0 := by
  induction lefts generalizing rights with
  | nil => simp at hleft
  | cons head lefts ih =>
      rw [join_cons] at hleft hright
      cases hmatch : bestMatch score head rights 0 none with
      | some best =>
          rw [hmatch] at hleft hright
          exact ih hleft hright
      | none =>
          rw [hmatch] at hleft hright
          rcases List.mem_cons.mp hleft with rfl | hrest
          · exact bestMatch_none hmatch r (join_lonelyRight_mem score hright)
          · exact ih hrest hright

theorem join_pairs_sublist (lefts : List α) (rights : List β) :
    ((join score lefts rights).pairs.map Prod.fst).Sublist lefts := by
  induction lefts generalizing rights with
  | nil => simp
  | cons l lefts ih =>
      rw [join_cons]
      cases bestMatch score l rights 0 none with
      | none => exact (ih rights).cons l
      | some best => exact (ih (sliceDel rights best.index)).cons_cons l

theorem join_lonelyLefts_sublist (lefts : List α) (rights : List β) :
    (join score lefts rights).lonelyLefts.Sublist lefts := by
  induction lefts generalizing rights with
  | nil => simp
  | cons l lefts ih =>
      rw [join_cons]
      cases bestMatch score l rights 0 none with
      | none => exact (ih rights).cons_cons l
      | some best => exact (ih (sliceDel rights best.index)).cons l

/-- A right that is left over was there when each left chose. -/
theorem join_pair_best {lefts : List α} {rights : List β} {pair : α × β} {r : β}
    (hpair : pair ∈ (join score lefts rights).pairs)
    (hlonely : r ∈ (join score lefts rights).lonelyRights) :
    score pair.1 r < 0 ∨ score pair.1 pair.2 ≤ score pair.1 r := by
  induction lefts generalizing rights with
  | nil => simp at hpair
  | cons l lefts ih =>
      rw [join_cons] at hpair hlonely
      cases hmatch : bestMatch score l rights 0 none with
      | none =>
          rw [hmatch] at hpair hlonely
          exact ih hpair hlonely
      | some best =>
          rw [hmatch] at hpair hlonely
          rcases List.mem_cons.mp hpair with rfl | hrest
          · rcases bestMatch_some hmatch with ⟨hsound, hbest⟩
            have hthere : r ∈ best.elem :: sliceDel rights best.index :=
              List.mem_cons_of_mem _ (join_lonelyRight_mem score hlonely)
            rw [← hsound.score_eq]
            exact hbest r ((perm_cons_sliceDel hsound.at_index).mem_iff.mpr hthere)
          · exact ih hrest hlonely

structure GreedyMatching (lefts : List α) (rights : List β) (joined : Joined α β) : Prop where
  lefts_perm : (joined.pairs.map Prod.fst ++ joined.lonelyLefts).Perm lefts
  pairs_ordered : (joined.pairs.map Prod.fst).Sublist lefts
  lonelyLefts_ordered : joined.lonelyLefts.Sublist lefts
  rights_perm : (joined.pairs.map Prod.snd ++ joined.lonelyRights).Perm rights
  nonneg : ∀ pair ∈ joined.pairs, 0 ≤ score pair.1 pair.2
  incompatible : ∀ l ∈ joined.lonelyLefts, ∀ r ∈ joined.lonelyRights, score l r < 0
  best : ∀ pair ∈ joined.pairs, ∀ r ∈ joined.lonelyRights,
    score pair.1 r < 0 ∨ score pair.1 pair.2 ≤ score pair.1 r

/-- `Join` computes a greedy matching, for every score function. -/
theorem join_greedyMatching (lefts : List α) (rights : List β) :
    GreedyMatching score lefts rights (join score lefts rights) where
  lefts_perm := join_lefts_perm score lefts rights
  pairs_ordered := join_pairs_sublist score lefts rights
  lonelyLefts_ordered := join_lonelyLefts_sublist score lefts rights
  rights_perm := join_rights_perm score lefts rights
  nonneg := join_pairs_nonneg score lefts rights
  incompatible := fun _ hleft _ hright => join_lonely_incompatible score hleft hright
  best := fun _ hpair _ hlonely => join_pair_best score hpair hlonely

/-- Some lefts can take `r`, and at least as many as there are rights that any
of them can take. -/
def InDemand (lefts : List α) (rights : List β) (r : β) : Prop :=
  let suitors := lefts.filter fun l => 0 ≤ score l r
  suitors ≠ [] ∧
    rights.countP (fun other => suitors.any fun l => 0 ≤ score l other) ≤
      suitors.length

instance (lefts : List α) (rights : List β) (r : β) :
    Decidable (InDemand score lefts rights r) :=
  inferInstanceAs (Decidable (_ ∧ _))

theorem InDemand.of_perm {score : α → β → ℤ} {lefts : List α}
    {rights others : List β} {r : β}
    (hdemand : InDemand score lefts rights r) (hperm : rights.Perm others) :
    InDemand score lefts others r :=
  ⟨hdemand.1, hperm.countP_eq _ ▸ hdemand.2⟩

/-- A right in demand is not left over: its suitors would all have to be paired
with other rights. -/
theorem not_lonely_of_inDemand {lefts : List α} {rights : List β} {r : β}
    (hdemand : InDemand score lefts rights r) :
    r ∉ (join score lefts rights).lonelyRights := by
  intro hlonely
  obtain ⟨hsome, hcount⟩ := hdemand
  set suitors := lefts.filter fun l => 0 ≤ score l r with hsuitors
  set wanted : β → Bool := fun other => suitors.any fun l => 0 ≤ score l other
    with hwanted
  have hpaired : suitors.length ≤
      ((join score lefts rights).pairs.map Prod.snd).countP wanted := by
    have hlefts := (join_lefts_perm score lefts rights).countP_eq
      fun l => decide (0 ≤ score l r)
    have hlonelyLefts : (join score lefts rights).lonelyLefts.countP
        (fun l => decide (0 ≤ score l r)) = 0 := by
      rw [List.countP_eq_zero]
      intro l hl hle
      have hneg := join_lonely_incompatible score hl hlonely
      have hnonneg : 0 ≤ score l r := by simpa using hle
      omega
    rw [List.countP_append, hlonelyLefts, Nat.add_zero] at hlefts
    rw [hsuitors, ← List.countP_eq_length_filter, ← hlefts, List.countP_map,
      List.countP_map]
    apply List.countP_mono_left
    intro pair hpair hsuitor
    have hmem : pair.1 ∈ suitors :=
      List.mem_filter.mpr ⟨join_pair_left_mem score hpair, hsuitor⟩
    exact List.any_eq_true.mpr
      ⟨pair.1, hmem, by simpa using join_pairs_nonneg score lefts rights pair hpair⟩
  have hself : 0 < (join score lefts rights).lonelyRights.countP wanted := by
    obtain ⟨l, hl⟩ := List.exists_mem_of_ne_nil _ hsome
    rw [List.countP_pos_iff]
    exact ⟨r, hlonely, List.any_eq_true.mpr ⟨l, hl, (List.mem_filter.mp hl).2⟩⟩
  have hrights := (join_rights_perm score lefts rights).countP_eq wanted
  rw [List.countP_append] at hrights
  omega

end Spec

end Join
end Di
