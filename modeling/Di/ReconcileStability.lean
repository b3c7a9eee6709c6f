import Di.Reconcile
import Di.JoinStability

/-!
# When reconciling again writes nothing

After a table has been reconciled with a target, its rows show the target.
Reconciling again pairs targets and rows anew, in whatever order the rows are
visited.  `reconcile_settled` says when the second run writes nothing in any
order, and `reconcile_unsettled` that some order makes it write as soon as a
target can take the row of a later one that it disagrees with.
-/

namespace Di
namespace Reconcile

open Db Join

variable {L X : Type*} {t : TableType} {rule : Rule L t}
  {view : RowOf t → X} {target : L → X} {bound : ℤ}

theorem reconcile_settled {lefts : List L} {rights : List (RowOf t)}
    {db : Database}
    (hviews : (rights.map view).Perm (lefts.map target))
    (hown : ∀ l ∈ lefts, ∀ row ∈ rights, view row = target l →
      0 ≤ rule.score l row ∧ rule.score l row ≤ bound)
    (hfixed : ∀ l ∈ lefts, ∀ row ∈ rights, view row = target l →
      rule.rewrite l row = row)
    (hsettled : Settled rule.score bound view target lefts)
    (hstored : ∀ row ∈ rights, row ∈ (db.tables t).rows) :
    reconcile rule lefts rights db = some db := by
  obtain ⟨hlefts, hrights, hpairs⟩ := join_reproduces hviews hown hsettled
  refine reconcile_fixed rule lefts rights db hlefts hrights ?_ hstored
  intro pair hpair
  exact hfixed pair.1 (join_pair_left_mem rule.score hpair) pair.2
    (join_pair_right_mem rule.score hpair) (hpairs pair hpair)

theorem exists_split_of_not_pairwise {α : Type*} {R : α → α → Prop}
    {entries : List α} (hnot : ¬ entries.Pairwise R) :
    ∃ front early rest late, entries = front ++ early :: rest ∧
      late ∈ rest ∧ ¬ R early late := by
  induction entries with
  | nil => exact absurd List.Pairwise.nil hnot
  | cons head tail ih =>
      by_cases htail : tail.Pairwise R
      · rw [List.pairwise_cons, not_and] at hnot
        obtain ⟨late, hlate, hbad⟩ : ∃ late ∈ tail, ¬ R head late := by
          by_contra hall
          push Not at hall
          exact hnot hall htail
        exact ⟨[], head, tail, late, rfl, hlate, hbad⟩
      · obtain ⟨front, early, rest, late, rfl, hlate, hbad⟩ := ih htail
        exact ⟨head :: front, early, rest, late, rfl, hlate, hbad⟩

/-- What was written into the row of a pair. -/
def Rule.row (rule : Rule L t) (pair : L × RowOf t) : RowOf t :=
  rule.rewrite pair.1 pair.2

theorem Rule.rewritePairs_eq_map_row (rule : Rule L t)
    (pairs : List (L × RowOf t)) :
    rule.rewritePairs pairs = pairs.map rule.row := rfl

/-- The rows of the pairs can be visited in an order in which `early` takes
the row of a later pair. -/
theorem join_confused {pairs front rest : List (L × RowOf t)}
    {early late : L × RowOf t}
    (hsplit : pairs = front ++ early :: rest) (hlate : late ∈ rest)
    (hbound : 0 ≤ bound)
    (hown : ∀ pair ∈ pairs, rule.score pair.1 (rule.row pair) = bound)
    (hmin : ∀ left ∈ pairs, ∀ right ∈ pairs,
      rule.score left.1 (rule.row right) < 0 ∨
        bound ≤ rule.score left.1 (rule.row right))
    (htakes : rule.score early.1 (rule.row late) = bound) :
    ∃ rights : List (RowOf t), rights.Perm (rule.rewritePairs pairs) ∧
      (early.1, rule.row late) ∈
        (join rule.score (pairs.map Prod.fst) rights).pairs := by
  have hmem : ∀ pair ∈ front ++ [early], pair ∈ pairs := by
    intro pair hpair
    rw [hsplit, List.mem_append, List.mem_cons]
    rcases List.mem_append.mp hpair with hfront | hlast
    · exact .inl hfront
    · exact .inr (.inl (List.mem_singleton.mp hlast))
  obtain ⟨before, after, rfl⟩ := List.append_of_mem hlate
  -- Everyone before `early` keeps its own row; `early` takes the later one.
  let steer := front.map (fun pair => (pair.1, rule.row pair)) ++
    [(early.1, rule.row late)]
  let others := rule.row early :: (before ++ after).map rule.row
  have hrows : (steer.map Prod.snd ++ others).Perm (rule.rewritePairs pairs) := by
    have hleft : steer.map Prod.snd ++ others =
        front.map rule.row ++
          (rule.row late :: rule.row early ::
            (before.map rule.row ++ after.map rule.row)) := by
      simp [steer, others, Function.comp_def]
    have hright : rule.rewritePairs pairs =
        front.map rule.row ++
          (rule.row early ::
            (before.map rule.row ++ rule.row late :: after.map rule.row)) := by
      rw [rule.rewritePairs_eq_map_row, hsplit]
      simp
    rw [hleft, hright]
    refine List.Perm.append_left _ ((List.Perm.swap _ _ _).trans ?_)
    exact List.perm_middle.symm.cons _
  have hoptimal : ∀ pair ∈ steer,
      Optimal rule.score (rule.rewritePairs pairs) pair := by
    intro pair hpair
    obtain ⟨owner, howner, hfst, hscore⟩ : ∃ owner ∈ pairs,
        owner.1 = pair.1 ∧ rule.score pair.1 pair.2 = bound := by
      rcases List.mem_append.mp hpair with hfront | hlast
      · obtain ⟨owner, howner, rfl⟩ := List.mem_map.mp hfront
        have hstored := hmem owner (List.mem_append_left _ howner)
        exact ⟨owner, hstored, rfl, hown owner hstored⟩
      · rw [List.mem_singleton] at hlast
        subst hlast
        exact ⟨early, hmem early (by simp), rfl, htakes⟩
    refine ⟨hscore ▸ hbound, ?_⟩
    intro row hrow
    obtain ⟨right, hright, rfl⟩ := List.mem_map.mp hrow
    rw [hscore, ← hfst]
    exact hmin owner howner right hright
  obtain ⟨rights, hperm, hpairs⟩ := join_steered steer
    ((before ++ late :: after).map Prod.fst) others (rule.rewritePairs pairs)
    (fun row hrow => hrows.mem_iff.mp hrow) hoptimal
  refine ⟨rights, hperm.trans hrows, ?_⟩
  have hlefts : pairs.map Prod.fst =
      steer.map Prod.fst ++ (before ++ late :: after).map Prod.fst := by
    simp [steer, hsplit, Function.comp_def]
  rw [hlefts, hpairs]
  exact List.mem_append_left _ (by simp [steer])

/-- If some target scores the best possible score on the row of a later target
with a different view, then some order of the rows makes the second run change
the table. -/
theorem reconcile_unsettled {pairs : List (L × RowOf t)}
    {rest : List (RowOf t)} {db : Database}
    (hview : ∀ l row, view (rule.rewrite l row) = target l)
    (hrows : (db.tables t).rows.Perm (rule.rewritePairs pairs ++ rest))
    (hbound : 0 ≤ bound)
    (hown : ∀ pair ∈ pairs, rule.score pair.1 (rule.row pair) = bound)
    (hmin : ∀ left ∈ pairs, ∀ right ∈ pairs,
      rule.score left.1 (rule.row right) < 0 ∨
        bound ≤ rule.score left.1 (rule.row right))
    (hunsettled : ¬ pairs.Pairwise fun early late =>
      rule.score early.1 (rule.row late) = bound →
        target early.1 = target late.1) :
    ∃ rights : List (RowOf t), rights.Perm (rule.rewritePairs pairs) ∧
      ∀ next, reconcile rule (pairs.map Prod.fst) rights db = some next →
        next.tables t ≠ db.tables t := by
  obtain ⟨front, early, later, late, hsplit, hlate, hbad⟩ :=
    exists_split_of_not_pairwise hunsettled
  rw [Classical.not_imp] at hbad
  obtain ⟨rights, hperm, hjoined⟩ :=
    join_confused hsplit hlate hbound hown hmin hbad.1
  refine ⟨rights, hperm, ?_⟩
  intro next hnext hsame
  obtain ⟨found, hfound, hnextRows, _⟩ :=
    reconcile_spec rule (pairs.map Prod.fst) rights rest db
      (hrows.trans (hperm.symm.append_right rest))
  rw [hnext, Option.some.injEq] at hfound
  subst hfound
  have hlateRow : rule.row late ∈ (db.tables t).rows := by
    rw [hrows.mem_iff, List.mem_append]
    left
    apply List.mem_map_of_mem
    rw [hsplit]
    exact List.mem_append_right _ (List.mem_cons_of_mem early hlate)
  have htaken : rule.rewrite early.1 (rule.row late) ∈ (db.tables t).rows := by
    rw [← hsame, hnextRows.mem_iff, List.mem_append]
    left
    exact List.mem_map_of_mem (List.mem_append_left _ hjoined)
  have hequal := Table.eq_of_id_eq htaken hlateRow (rule.rewrite_id _ _)
  apply hbad.2
  rw [← hview early.1 (rule.row late), hequal]
  exact hview late.1 late.2

end Reconcile
end Di
