import Di.ReconcileStability

/-!
# Mirroring a target in a table

Reconciliation with the roles of the two slices exchanged: the rows choose among the
targets.  The rows without a target are removed, and a blank row is inserted for
every target without a row.
-/

namespace Di
namespace Reconcile

open Db Join

variable {L X : Type*} {t : TableType}

/-- The matching of rows with targets. -/
def Rule.rowJoin (rule : Rule L t) (rows : List (RowOf t)) (targets : List L) :
    Joined (RowOf t) L :=
  join (fun row target => rule.score target row) rows targets

def mirror (rule : Rule L t) (rows : List (RowOf t)) (targets : List L) (db : Database) :
    Option Database :=
  let joined := rule.rowJoin rows targets
  writeMatching rule (joined.pairs.map Prod.swap) joined.lonelyRights joined.lonelyLefts db

/-- The target/row pairs that are written. -/
def mirrored (rule : Rule L t) (rows : List (RowOf t)) (targets : List L) (db : Database) :
    List (L × RowOf t) :=
  (rule.rowJoin rows targets).pairs.map Prod.swap ++
    bootedFrom t db.idAlloc (rule.rowJoin rows targets).lonelyRights

section Spec

variable (rule : Rule L t) (targets : List L) (db : Database) {rows : List (RowOf t)}

theorem rows_perm_rowJoin (rows : List (RowOf t)) :
    rows.Perm ((rule.rowJoin rows targets).lonelyLefts ++
      ((rule.rowJoin rows targets).pairs.map Prod.swap).map Prod.snd) := by
  have hlefts := join_lefts_perm (fun row target => rule.score target row) rows targets
  have hswap : ((rule.rowJoin rows targets).pairs.map Prod.swap).map Prod.snd =
      (rule.rowJoin rows targets).pairs.map Prod.fst := by
    rw [List.map_map]
    rfl
  rw [hswap]
  exact hlefts.symm.trans List.perm_append_comm

/-- Mirroring a whole table never panics; the rows are the written pairs. -/
theorem mirror_spec (hrows : (db.tables t).rows.Perm rows) :
    ∃ next, mirror rule rows targets db = some next ∧
      (next.tables t).rows.Perm (rule.rewritePairs (mirrored rule rows targets db)) ∧
      SameElsewhere t db next := by
  have hsplit := hrows.trans (rows_perm_rowJoin rule targets rows)
  rw [← List.append_nil (((rule.rowJoin rows targets).pairs.map Prod.swap).map Prod.snd)]
    at hsplit
  obtain ⟨next, hnext, hperm, hsame, _⟩ := writeMatching_spec rule _
    (rule.rowJoin rows targets).lonelyRights _ [] db hsplit
  rw [List.append_nil] at hperm
  exact ⟨next, hnext, hperm, hsame⟩

/-- Every target is written into exactly one row. -/
theorem mirrored_map_fst_perm :
    ((mirrored rule rows targets db).map Prod.fst).Perm targets := by
  have hrights := join_rights_perm (fun row target => rule.score target row) rows targets
  have hswap : ((rule.rowJoin rows targets).pairs.map Prod.swap).map Prod.fst =
      (rule.rowJoin rows targets).pairs.map Prod.snd := by
    rw [List.map_map]
    rfl
  rw [mirrored, List.map_append, bootedFrom_map_fst, hswap]
  exact hrights

section Rows

variable {rule targets db} {next : Database} (hrows : (db.tables t).rows.Perm rows)
  (hnext : mirror rule rows targets db = some next)

include hrows hnext

theorem mirror_rows :
    (next.tables t).rows.Perm (rule.rewritePairs (mirrored rule rows targets db)) := by
  obtain ⟨found, hfound, hperm, _⟩ := mirror_spec rule targets db hrows
  rw [hnext, Option.some.injEq] at hfound
  exact hfound ▸ hperm

/-- A matched row is stored with its target written into it. -/
theorem mem_mirror_of_pair {pair : RowOf t × L}
    (hpair : pair ∈ (rule.rowJoin rows targets).pairs) :
    rule.rewrite pair.2 pair.1 ∈ (next.tables t).rows := by
  have hmem : pair.swap ∈ mirrored rule rows targets db :=
    List.mem_append_left _ (List.mem_map_of_mem hpair)
  exact (mirror_rows hrows hnext).mem_iff.mpr (List.mem_map_of_mem hmem)

/-- A row whose identifier is still in use was matched. -/
theorem exists_pair_of_kept {row kept : RowOf t} (hrow : row ∈ (db.tables t).rows)
    (hkept : kept ∈ (next.tables t).rows) (hid : HasID.id kept = HasID.id row) :
    ∃ target, (row, target) ∈ (rule.rowJoin rows targets).pairs ∧
      kept = rule.rewrite target row := by
  obtain ⟨pair, hpair, rfl⟩ := List.mem_map.mp ((mirror_rows hrows hnext).mem_iff.mp hkept)
  rw [rule.rewrite_id] at hid
  rcases List.mem_append.mp hpair with hjoined | hbooted
  · obtain ⟨joined, hmem, rfl⟩ := List.mem_map.mp hjoined
    have hstored := hrows.mem_iff.mpr (join_pair_left_mem _ hmem)
    have hsame : joined.1 = row := Table.eq_of_id_eq hstored hrow hid
    exact ⟨joined.2, hsame ▸ hmem, hsame ▸ rfl⟩
  · have hnew := lt_id_of_mem_bootedFrom hbooted
    have hold := db.allocated t row hrow
    omega

/-- The rows left over are the ones that are removed. -/
theorem lonely_perm_removed :
    (rule.rowJoin rows targets).lonelyLefts.Perm
      ((db.tables t).rows.filter fun row => HasID.id row ∉ (next.tables t).ids) := by
  have hjoined := join_lefts_perm (fun row target => rule.score target row) rows targets
  have hsplit : (db.tables t).rows.Perm
      ((rule.rowJoin rows targets).pairs.map Prod.fst ++
        (rule.rowJoin rows targets).lonelyLefts) := hrows.trans hjoined.symm
  have hdistinct : ((rule.rowJoin rows targets).pairs.map Prod.fst ++
      (rule.rowJoin rows targets).lonelyLefts).Nodup :=
    hsplit.nodup_iff.mp (List.Nodup.of_map _ (db.tables t).nodup)
  have hpaired : ((rule.rowJoin rows targets).pairs.map Prod.fst).filter
      (fun row => HasID.id row ∉ (next.tables t).ids) = [] := by
    rw [List.filter_eq_nil_iff]
    intro row hrow
    obtain ⟨pair, hpair, rfl⟩ := List.mem_map.mp hrow
    have hids := Table.mem_ids_of_mem (mem_mirror_of_pair hrows hnext hpair)
    rw [rule.rewrite_id] at hids
    simpa using hids
  have hlonely : (rule.rowJoin rows targets).lonelyLefts.filter
      (fun row => HasID.id row ∉ (next.tables t).ids) =
        (rule.rowJoin rows targets).lonelyLefts := by
    rw [List.filter_eq_self]
    intro row hrow
    rw [decide_eq_true_iff]
    intro hids
    obtain ⟨kept, hkept, hid⟩ := List.mem_map.mp hids
    have hstored := hsplit.mem_iff.mpr (List.mem_append_right _ hrow)
    obtain ⟨target, hpair, _⟩ := exists_pair_of_kept hrows hnext hstored hkept hid
    exact (List.disjoint_of_nodup_append hdistinct) (List.mem_map_of_mem hpair) hrow
  have hfilter := hsplit.filter fun row => decide (HasID.id row ∉ (next.tables t).ids)
  rw [List.filter_append, hpaired, hlonely, List.nil_append] at hfilter
  exact hfilter.symm

end Rows

end Spec

/-- Rows that show the targets, and that match a target only if they show it, are
left alone. -/
theorem mirror_settled {rule : Rule L t} {key : RowOf t → X} {name : L → X}
    {rows : List (RowOf t)} {targets : List L} {db : Database}
    (hkeys : (rows.map key).Perm (targets.map name))
    (hzero : ∀ target row, rule.score target row = 0 ↔ key row = name target)
    (hfixed : ∀ target ∈ targets, ∀ row ∈ rows, key row = name target →
      rule.rewrite target row = row)
    (hstored : ∀ row ∈ rows, row ∈ (db.tables t).rows) :
    (rule.rowJoin rows targets).lonelyLefts = [] ∧ mirror rule rows targets db = some db := by
  have hsettled : Settled (fun row target => rule.score target row) 0 name key rows := by
    apply List.pairwise_of_forall
    intro early late target hname hnonneg hle
    exact ((hzero target early).mp (le_antisymm hle hnonneg)).trans hname
  have hown : ∀ row ∈ rows, ∀ target ∈ targets, name target = key row →
      0 ≤ rule.score target row ∧ rule.score target row ≤ 0 := by
    intro row _ target _ hname
    have hscore := (hzero target row).mpr hname.symm
    exact ⟨hscore.ge, hscore.le⟩
  have hjoined : (rule.rowJoin rows targets).lonelyLefts = [] ∧
      (rule.rowJoin rows targets).lonelyRights = [] ∧
        ∀ pair ∈ (rule.rowJoin rows targets).pairs, name pair.2 = key pair.1 :=
    join_reproduces hkeys.symm hown hsettled
  obtain ⟨hlefts, hrights, hpairs⟩ := hjoined
  refine ⟨hlefts, ?_⟩
  unfold mirror
  simp only [hlefts, hrights]
  apply writeMatching_fixed
  · intro pair hpair
    obtain ⟨joined, hmem, rfl⟩ := List.mem_map.mp hpair
    exact hfixed _ (join_pair_right_mem _ hmem) _ (join_pair_left_mem _ hmem)
      (hpairs joined hmem).symm
  · intro pair hpair
    obtain ⟨joined, hmem, rfl⟩ := List.mem_map.mp hpair
    exact hstored _ (join_pair_left_mem _ hmem)

end Reconcile
end Di
