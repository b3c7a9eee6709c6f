import Di.Join

/-!
# Joins by key

Most passes of the program compare what there is with what there should be by a join
that pairs elements with the same key and nothing else.  Such a join is a difference of
multisets of keys, whatever the order of the two lists; where the keys of a list are
distinct, its lonely elements are those whose key the other list lacks.
-/

namespace Di
namespace Join

variable {α β κ : Type*} [DecidableEq κ]

/-- Two elements can be paired exactly if they have the same key. -/
def keyMatch (left : α → κ) (right : β → κ) (l : α) (r : β) : ℤ :=
  if left l = right r then 0 else -1

section KeyMatch

variable {left : α → κ} {right : β → κ} {lefts : List α} {rights : List β}

theorem keyMatch_nonneg {l : α} {r : β} : 0 ≤ keyMatch left right l r ↔ left l = right r := by
  unfold keyMatch
  split <;> simp_all

theorem key_eq_of_pair {pair : α × β}
    (hpair : pair ∈ (join (keyMatch left right) lefts rights).pairs) :
    left pair.1 = right pair.2 :=
  keyMatch_nonneg.mp (join_pairs_nonneg _ lefts rights pair hpair)

theorem key_ne_of_lonely {l : α} {r : β}
    (hl : l ∈ (join (keyMatch left right) lefts rights).lonelyLefts)
    (hr : r ∈ (join (keyMatch left right) lefts rights).lonelyRights) : left l ≠ right r := by
  intro hkey
  have hneg := join_lonely_incompatible _ hl hr
  have hnonneg := keyMatch_nonneg.mpr hkey
  omega

theorem pairs_keys_eq :
    (join (keyMatch left right) lefts rights).pairs.map (fun pair => left pair.1) =
      (join (keyMatch left right) lefts rights).pairs.map fun pair => right pair.2 :=
  List.map_congr_left fun _ hpair => key_eq_of_pair hpair

section Count

variable (left : α → κ) (right : β → κ) (lefts : List α) (rights : List β) (k : κ)

theorem count_lefts :
    (lefts.map left).count k =
      ((join (keyMatch left right) lefts rights).pairs.map fun pair => left pair.1).count k +
        ((join (keyMatch left right) lefts rights).lonelyLefts.map left).count k := by
  have hperm := (join_lefts_perm (keyMatch left right) lefts rights).map left
  rw [← hperm.count_eq, List.map_append, List.count_append, List.map_map]
  rfl

theorem count_rights :
    (rights.map right).count k =
      ((join (keyMatch left right) lefts rights).pairs.map fun pair => left pair.1).count k +
        ((join (keyMatch left right) lefts rights).lonelyRights.map right).count k := by
  have hperm := (join_rights_perm (keyMatch left right) lefts rights).map right
  rw [← hperm.count_eq, List.map_append, List.count_append, List.map_map, pairs_keys_eq]
  rfl

theorem count_lonely_zero :
    ((join (keyMatch left right) lefts rights).lonelyLefts.map left).count k = 0 ∨
      ((join (keyMatch left right) lefts rights).lonelyRights.map right).count k = 0 := by
  by_contra hboth
  rw [not_or, List.count_eq_zero, List.count_eq_zero, not_not, not_not] at hboth
  obtain ⟨l, hl, hkey⟩ := List.mem_map.mp hboth.1
  obtain ⟨r, hr, hkey'⟩ := List.mem_map.mp hboth.2
  exact key_ne_of_lonely hl hr (hkey.trans hkey'.symm)

/-- The keys of the lonely lefts are the surplus of the lefts. -/
theorem count_lonelyLefts :
    ((join (keyMatch left right) lefts rights).lonelyLefts.map left).count k =
      (lefts.map left).count k - (rights.map right).count k := by
  have hlefts := count_lefts left right lefts rights k
  have hrights := count_rights left right lefts rights k
  have hzero := count_lonely_zero left right lefts rights k
  omega

/-- The keys of the lonely rights are the surplus of the rights. -/
theorem count_lonelyRights :
    ((join (keyMatch left right) lefts rights).lonelyRights.map right).count k =
      (rights.map right).count k - (lefts.map left).count k := by
  have hlefts := count_lefts left right lefts rights k
  have hrights := count_rights left right lefts rights k
  have hzero := count_lonely_zero left right lefts rights k
  omega

end Count

theorem mem_lonelyLefts_of_not_mem {l : α} (hl : l ∈ lefts) (hkey : left l ∉ rights.map right) :
    l ∈ (join (keyMatch left right) lefts rights).lonelyLefts := by
  rcases List.mem_append.mp ((join_lefts_perm (keyMatch left right) lefts rights).mem_iff.mpr hl)
    with hpaired | hlonely
  · obtain ⟨pair, hpair, rfl⟩ := List.mem_map.mp hpaired
    rw [key_eq_of_pair hpair] at hkey
    exact absurd (List.mem_map_of_mem (join_pair_right_mem _ hpair)) hkey
  · exact hlonely

theorem mem_lonelyRights_of_not_mem {r : β} (hr : r ∈ rights) (hkey : right r ∉ lefts.map left) :
    r ∈ (join (keyMatch left right) lefts rights).lonelyRights := by
  rcases List.mem_append.mp ((join_rights_perm (keyMatch left right) lefts rights).mem_iff.mpr hr)
    with hpaired | hlonely
  · obtain ⟨pair, hpair, rfl⟩ := List.mem_map.mp hpaired
    rw [← key_eq_of_pair hpair] at hkey
    exact absurd (List.mem_map_of_mem (join_pair_left_mem _ hpair)) hkey
  · exact hlonely

theorem mem_lonelyLefts_iff (hlefts : (lefts.map left).Nodup) {l : α} :
    l ∈ (join (keyMatch left right) lefts rights).lonelyLefts ↔
      l ∈ lefts ∧ left l ∉ rights.map right := by
  constructor
  · intro hlonely
    refine ⟨(join_lonelyLefts_sublist _ lefts rights).subset hlonely, ?_⟩
    have hcount := count_lonelyLefts left right lefts rights (left l)
    have hpos := List.count_pos_iff.mpr (List.mem_map_of_mem (f := left) hlonely)
    have hone := List.nodup_iff_count_le_one.mp hlefts (left l)
    rw [← List.count_eq_zero]
    omega
  · rintro ⟨hl, hkey⟩
    exact mem_lonelyLefts_of_not_mem hl hkey

theorem mem_lonelyRights_iff (hrights : (rights.map right).Nodup) {r : β} :
    r ∈ (join (keyMatch left right) lefts rights).lonelyRights ↔
      r ∈ rights ∧ right r ∉ lefts.map left := by
  constructor
  · intro hlonely
    refine ⟨join_lonelyRight_mem _ hlonely, ?_⟩
    have hcount := count_lonelyRights left right lefts rights (right r)
    have hpos := List.count_pos_iff.mpr (List.mem_map_of_mem (f := right) hlonely)
    have hone := List.nodup_iff_count_le_one.mp hrights (right r)
    rw [← List.count_eq_zero]
    omega
  · rintro ⟨hr, hkey⟩
    exact mem_lonelyRights_of_not_mem hr hkey

theorem mem_pairs_iff (hlefts : (lefts.map left).Nodup) (hrights : (rights.map right).Nodup)
    {pair : α × β} :
    pair ∈ (join (keyMatch left right) lefts rights).pairs ↔
      pair.1 ∈ lefts ∧ pair.2 ∈ rights ∧ left pair.1 = right pair.2 := by
  constructor
  · intro hpair
    exact ⟨join_pair_left_mem _ hpair, join_pair_right_mem _ hpair, key_eq_of_pair hpair⟩
  · rintro ⟨hl, hr, hkey⟩
    rcases List.mem_append.mp
        ((join_lefts_perm (keyMatch left right) lefts rights).mem_iff.mpr hl) with
      hpaired | hlonely
    · obtain ⟨found, hfound, hfst⟩ := List.mem_map.mp hpaired
      have hsnd : found.2 = pair.2 := by
        apply List.inj_on_of_nodup_map hrights (join_pair_right_mem _ hfound) hr
        rw [← key_eq_of_pair hfound, hfst, hkey]
      exact Prod.ext hfst hsnd ▸ hfound
    · have hmissing := ((mem_lonelyLefts_iff hlefts).mp hlonely).2
      exact absurd (hkey ▸ List.mem_map_of_mem hr) hmissing

end KeyMatch

/-! ## Rights seen through a function -/

section Projected

variable {α β γ : Type*} {score : α → β → ℤ} {f : γ → β}

def Candidate.map (f : γ → β) (c : Candidate γ) : Candidate β := ⟨c.index, f c.elem, c.score⟩

theorem bestMatch_map (l : α) (rights : List γ) (i : ℕ) (best : Option (Candidate γ)) :
    bestMatch score l (rights.map f) i (best.map (Candidate.map f)) =
      (bestMatch (fun l r => score l (f r)) l rights i best).map (Candidate.map f) := by
  induction rights generalizing i best with
  | nil => simp [bestMatch]
  | cons r rest ih =>
      have hnew := ih (i + 1) (some ⟨i, r, score l (f r)⟩)
      have hold := ih (i + 1) best
      rw [Option.map_some] at hnew
      cases best with
      | none =>
          simp only [List.map_cons, bestMatch, Option.map_none] at hold ⊢
          split_ifs
          · exact hold
          · rfl
          · exact hnew
      | some old =>
          simp only [List.map_cons, bestMatch, Option.map_some] at hold ⊢
          have hscore : (old.map f).score = old.score := rfl
          rw [hscore]
          split_ifs
          · exact hold
          · rfl
          · exact hnew
          · exact hold

theorem sliceDel_map (rights : List γ) (i : ℕ) :
    sliceDel (rights.map f) i = (sliceDel rights i).map f := by
  rw [sliceDel, sliceDel, List.getLast?_map]
  cases rights.getLast? with
  | none => rfl
  | some last => simp [List.map_set, List.map_dropLast]

/-- A join that looks at the rights through a function is one of their images. -/
theorem join_map (lefts : List α) (rights : List γ) :
    join score lefts (rights.map f) =
      ⟨(join (fun l r => score l (f r)) lefts rights).pairs.map fun pair => (pair.1, f pair.2),
        (join (fun l r => score l (f r)) lefts rights).lonelyLefts,
        (join (fun l r => score l (f r)) lefts rights).lonelyRights.map f⟩ := by
  induction lefts generalizing rights with
  | nil => rfl
  | cons l lefts ih =>
      have hbest := @bestMatch_map _ _ _ score f l rights 0 none
      rw [Option.map_none] at hbest
      rw [join_cons, join_cons, hbest]
      cases bestMatch (fun l r => score l (f r)) l rights 0 none with
      | none => simp [ih]
      | some best => simp [Candidate.map, sliceDel_map, ih]

end Projected

end Join
end Di
