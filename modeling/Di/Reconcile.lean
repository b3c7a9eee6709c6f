import Di.Database
import Di.Join

/-!
# Reconciling a table with a target

The policy engine of the controller and the two policy functions of the minion
share one procedure: join the target with the selected rows, remove the rows
left over, insert a blank row for every target left over, and write the target
into the row it was paired with.  The procedure is modelled once, over a rule
that gives the score of a pair and the way a target is written into a row.

`reconcile_spec` describes the resulting rows up to permutation, which is all
that is visible through map traversals.  `reconcile_fixed` is the criterion
under which nothing at all is written.
-/

namespace Di
namespace Reconcile

open Db Join

/-- How targets of type `L` are matched with rows and written into them. -/
structure Rule (L : Type*) (t : TableType) where
  score : L → RowOf t → ℤ
  rewrite : L → RowOf t → RowOf t
  rewrite_id : ∀ l row, HasID.id (rewrite l row) = HasID.id row

variable {L : Type*} {t : TableType}

def removeAll : List (RowOf t) → Database → Database
  | [], db => db
  | row :: rows, db => removeAll rows (db.remove t row)

/-- A blank row for every target, with the database that holds them. -/
def insertAll : List L → Database → List (L × RowOf t) × Database
  | [], db => ([], db)
  | l :: lefts, db =>
      let inserted := db.insertRow t
      let rest := insertAll lefts inserted.2
      ((l, inserted.1) :: rest.1, rest.2)

/-- Commits the rows in order; `none` is the panic of one of the commits. -/
def commitAll : List (RowOf t) → Database → Option Database
  | [], db => some db
  | row :: rows, db => (db.commit t row).bind (commitAll rows)

def Rule.rewritePairs (rule : Rule L t) (pairs : List (L × RowOf t)) :
    List (RowOf t) :=
  pairs.map fun pair => rule.rewrite pair.1 pair.2

def reconcile (rule : Rule L t) (lefts : List L) (rights : List (RowOf t))
    (db : Database) : Option Database :=
  let joined := join rule.score lefts rights
  let inserted := insertAll joined.lonelyLefts (removeAll joined.lonelyRights db)
  commitAll (rule.rewritePairs (joined.pairs ++ inserted.1)) inserted.2

/-! ## The three loops -/

/-- The tables other than `t` are the same. -/
def SameElsewhere (t : TableType) (before after : Database) : Prop :=
  ∀ other, other ≠ t → after.tables other = before.tables other

theorem SameElsewhere.trans {first second third : Database}
    (hfirst : SameElsewhere t first second)
    (hsecond : SameElsewhere t second third) : SameElsewhere t first third :=
  fun other hne => (hsecond other hne).trans (hfirst other hne)

/-- Committing the only row of a table. -/
theorem commit_singleton {db : Database} {old : RowOf t} (row : RowOf t)
    (hrows : (db.tables t).rows = [old]) (hid : HasID.id old = HasID.id row) :
    ∃ next, db.commit t row = some next ∧ (next.tables t).rows = [row] ∧
      SameElsewhere t db next ∧ next.idAlloc = db.idAlloc := by
  have hperm : (db.tables t).rows.Perm (old :: []) := .of_eq hrows
  obtain ⟨table, htable, hnext⟩ := Table.commit_perm hperm hid
  have hstored : HasID.id row ∈ (db.tables t).ids := by
    rw [← hid]
    exact Table.mem_ids_of_mem (by simp [hrows])
  obtain ⟨next, hcommit⟩ := Database.exists_commit hstored
  obtain ⟨htable', halloc, hsame⟩ := Database.commit_eq_some hcommit
  rw [htable', Option.some.injEq] at htable
  refine ⟨next, hcommit, ?_, hsame, halloc⟩
  rw [htable]
  exact List.perm_singleton.mp hnext

theorem removeAll_spec (rows rest : List (RowOf t)) (db : Database)
    (hrows : (db.tables t).rows.Perm (rows ++ rest)) :
    ((removeAll rows db).tables t).rows.Perm rest ∧
      SameElsewhere t db (removeAll rows db) ∧
      (removeAll rows db).idAlloc = db.idAlloc := by
  induction rows generalizing db with
  | nil => exact ⟨hrows, fun _ _ => rfl, rfl⟩
  | cons row rows ih =>
      have hremoved : ((db.remove t row).tables t).rows.Perm (rows ++ rest) := by
        rw [Database.remove_table]
        exact Table.remove_perm hrows
      obtain ⟨hperm, hsame, halloc⟩ := ih (db.remove t row) hremoved
      exact ⟨hperm,
        SameElsewhere.trans (fun other hne => db.remove_other row hne) hsame,
        halloc⟩

/-- The pairs of targets with the blank rows allocated for them. -/
def bootedFrom (t : TableType) : ℕ → List L → List (L × RowOf t)
  | _, [] => []
  | alloc, l :: lefts => (l, blank t (alloc + 1)) :: bootedFrom t (alloc + 1) lefts

@[simp] theorem bootedFrom_map_fst (alloc : ℕ) (lefts : List L) :
    (bootedFrom t alloc lefts).map Prod.fst = lefts := by
  induction lefts generalizing alloc with
  | nil => rfl
  | cons l lefts ih => simp [bootedFrom, ih]

/-- The identifiers of inserted rows were never allocated before. -/
theorem lt_id_of_mem_bootedFrom {alloc : ℕ} {lefts : List L}
    {pair : L × RowOf t} (hpair : pair ∈ bootedFrom t alloc lefts) :
    alloc < HasID.id pair.2 := by
  induction lefts generalizing alloc with
  | nil => simp [bootedFrom] at hpair
  | cons l lefts ih =>
      rcases List.mem_cons.mp hpair with rfl | hrest
      · simp
      · exact (Nat.lt_succ_self alloc).trans (ih hrest)

theorem mem_bootedFrom_blank {alloc : ℕ} {lefts : List L}
    {pair : L × RowOf t} (hpair : pair ∈ bootedFrom t alloc lefts) :
    ∃ i, pair.2 = blank t i := by
  induction lefts generalizing alloc with
  | nil => simp [bootedFrom] at hpair
  | cons l lefts ih =>
      rcases List.mem_cons.mp hpair with rfl | hrest
      · exact ⟨alloc + 1, rfl⟩
      · exact ih hrest

theorem insertAll_spec (lefts : List L) (rest : List (RowOf t)) (db : Database)
    (hrows : (db.tables t).rows.Perm rest) :
    (insertAll (t := t) lefts db).1 = bootedFrom t db.idAlloc lefts ∧
      ((insertAll (t := t) lefts db).2.tables t).rows.Perm
        ((bootedFrom t db.idAlloc lefts).map Prod.snd ++ rest) ∧
      SameElsewhere t db (insertAll (t := t) lefts db).2 ∧
      (insertAll (t := t) lefts db).2.idAlloc = db.idAlloc + lefts.length := by
  induction lefts generalizing db rest with
  | nil => exact ⟨rfl, hrows, fun _ _ => rfl, rfl⟩
  | cons l lefts ih =>
      have hinserted : ((db.insertRow t).2.tables t).rows.Perm
          (blank t (db.idAlloc + 1) :: rest) := by
        rw [Database.insertRow_table]
        exact Table.insert_perm (db.blank_fresh t) hrows
      obtain ⟨hbooted, hperm, hsame, halloc⟩ :=
        ih (blank t (db.idAlloc + 1) :: rest) (db.insertRow t).2 hinserted
      rw [Database.insertRow_idAlloc] at hbooted hperm halloc
      refine ⟨?_, ?_, ?_, ?_⟩
      · simp only [insertAll, bootedFrom, Database.insertRow_fst, hbooted]
      · exact hperm.trans List.perm_middle
      · exact SameElsewhere.trans (fun other hne => db.insertRow_other hne) hsame
      · simp only [insertAll, halloc, List.length_cons]
        omega

theorem commitAll_spec (rule : Rule L t) (pairs : List (L × RowOf t))
    (rest : List (RowOf t)) (db : Database)
    (hrows : (db.tables t).rows.Perm (pairs.map Prod.snd ++ rest)) :
    ∃ next, commitAll (rule.rewritePairs pairs) db = some next ∧
      (next.tables t).rows.Perm (rule.rewritePairs pairs ++ rest) ∧
      SameElsewhere t db next ∧ next.idAlloc = db.idAlloc := by
  induction pairs generalizing db rest with
  | nil => exact ⟨db, rfl, hrows, fun _ _ => rfl, rfl⟩
  | cons pair pairs ih =>
      have hid := (rule.rewrite_id pair.1 pair.2).symm
      have hstored : HasID.id (rule.rewrite pair.1 pair.2) ∈
          (db.tables t).ids := by
        rw [← hid]
        exact Table.mem_ids_of_mem (hrows.mem_iff.mpr (by simp))
      obtain ⟨written, hcommit⟩ := Database.exists_commit hstored
      obtain ⟨htable, hallocWritten, hsameWritten⟩ :=
        Database.commit_eq_some hcommit
      obtain ⟨table, htable', hperm⟩ := Table.commit_perm hrows hid
      rw [htable, Option.some.injEq] at htable'
      subst htable'
      obtain ⟨next, hnext, hpermNext, hsame, halloc⟩ :=
        ih (rule.rewrite pair.1 pair.2 :: rest) written
          (hperm.trans List.perm_middle.symm)
      refine ⟨next, ?_, hpermNext.trans List.perm_middle,
        SameElsewhere.trans hsameWritten hsame, halloc.trans hallocWritten⟩
      simpa [Rule.rewritePairs, commitAll, hcommit] using hnext

theorem commitAll_frame {rows : List (RowOf t)} {db next : Database}
    (hnext : commitAll rows db = some next) :
    (next.tables t).ids = (db.tables t).ids ∧ SameElsewhere t db next ∧
      next.idAlloc = db.idAlloc := by
  induction rows generalizing db with
  | nil =>
      obtain rfl := Option.some.inj hnext
      exact ⟨rfl, fun _ _ => rfl, rfl⟩
  | cons row rows ih =>
      obtain ⟨written, hcommit, hrest⟩ := Option.bind_eq_some_iff.mp hnext
      obtain ⟨htable, halloc, hsame⟩ := Database.commit_eq_some hcommit
      obtain ⟨hidsRest, hsameRest, hallocRest⟩ := ih hrest
      exact ⟨hidsRest.trans (Table.ids_commit htable),
        SameElsewhere.trans hsame hsameRest, hallocRest.trans halloc⟩

/-- Commits of stored rows do not panic. -/
theorem exists_commitAll {rows : List (RowOf t)} {db : Database}
    (hstored : ∀ row ∈ rows, HasID.id row ∈ (db.tables t).ids) :
    ∃ next, commitAll rows db = some next := by
  induction rows generalizing db with
  | nil => exact ⟨db, rfl⟩
  | cons row rows ih =>
      obtain ⟨written, hcommit⟩ := Database.exists_commit (hstored row (by simp))
      have hids := Table.ids_commit (Database.commit_eq_some hcommit).1
      have hrest : ∀ other ∈ rows, HasID.id other ∈ (written.tables t).ids :=
        fun other hother => hids ▸ hstored other (List.mem_cons_of_mem row hother)
      obtain ⟨next, hnext⟩ := ih hrest
      exact ⟨next, Option.bind_eq_some_iff.mpr ⟨written, hcommit, hnext⟩⟩

/-- After commits of distinct rows, these are stored and the others are as
before. -/
theorem mem_commitAll {rows : List (RowOf t)} {db next : Database}
    (hdistinct : (rows.map HasID.id).Nodup)
    (hnext : commitAll rows db = some next) (stored : RowOf t) :
    stored ∈ (next.tables t).rows ↔ stored ∈ rows ∨
      (stored ∈ (db.tables t).rows ∧ HasID.id stored ∉ rows.map HasID.id) := by
  induction rows generalizing db with
  | nil =>
      obtain rfl := Option.some.inj hnext
      simp
  | cons row rows ih =>
      obtain ⟨written, hcommit, hrest⟩ := Option.bind_eq_some_iff.mp hnext
      have hwritten : stored ∈ (written.tables t).rows ↔ _ :=
        Table.mem_rows_commit (Database.commit_eq_some hcommit).1
      rw [List.map_cons, List.nodup_cons] at hdistinct
      rw [ih hdistinct.2 hrest, hwritten, List.map_cons, List.mem_cons, List.mem_cons]
      constructor
      · rintro (hmem | ⟨rfl | ⟨hold, hne⟩, hnot⟩)
        · exact .inl (.inr hmem)
        · exact .inl (.inl rfl)
        · exact .inr ⟨hold, by simp [hne, hnot]⟩
      · rintro ((rfl | hmem) | ⟨hold, hnot⟩)
        · exact .inr ⟨.inl rfl, hdistinct.1⟩
        · exact .inl hmem
        · rw [not_or] at hnot
          exact .inr ⟨.inr ⟨hold, hnot.1⟩, hnot.2⟩

/-- Committing rows that are stored as they stand writes nothing. -/
theorem commitAll_stored (rows : List (RowOf t)) (db : Database)
    (hstored : ∀ row ∈ rows, row ∈ (db.tables t).rows) :
    commitAll rows db = some db := by
  induction rows with
  | nil => rfl
  | cons row rows ih =>
      rw [commitAll, Database.commit_self (hstored row (by simp)),
        Option.bind_some]
      exact ih fun other hother => hstored other (List.mem_cons_of_mem row hother)

/-! ## Writing a matching -/

/-- Removes the rows left over, inserts a blank row for every target left over and
writes every target into its row. -/
def writeMatching (rule : Rule L t) (pairs : List (L × RowOf t)) (targets : List L)
    (rows : List (RowOf t)) (db : Database) : Option Database :=
  let inserted := insertAll targets (removeAll rows db)
  commitAll (rule.rewritePairs (pairs ++ inserted.1)) inserted.2

theorem writeMatching_spec (rule : Rule L t) (pairs : List (L × RowOf t)) (targets : List L)
    (rows rest : List (RowOf t)) (db : Database)
    (hrows : (db.tables t).rows.Perm (rows ++ (pairs.map Prod.snd ++ rest))) :
    ∃ next, writeMatching rule pairs targets rows db = some next ∧
      (next.tables t).rows.Perm
        (rule.rewritePairs (pairs ++ bootedFrom t db.idAlloc targets) ++ rest) ∧
      SameElsewhere t db next ∧ next.idAlloc = db.idAlloc + targets.length := by
  obtain ⟨hremoved, hsameRemoved, hallocRemoved⟩ := removeAll_spec _ _ db hrows
  obtain ⟨hbooted, hinserted, hsameInserted, hallocInserted⟩ :=
    insertAll_spec targets _ _ hremoved
  rw [hallocRemoved] at hbooted hinserted hallocInserted
  have hpairs : (pairs ++ bootedFrom t db.idAlloc targets).map Prod.snd ++ rest =
      pairs.map Prod.snd ++ ((bootedFrom t db.idAlloc targets).map Prod.snd ++ rest) := by
    simp
  obtain ⟨next, hnext, hperm, hsame, halloc⟩ :=
    commitAll_spec rule (pairs ++ bootedFrom t db.idAlloc targets) rest _
      (hinserted.trans (by
        rw [hpairs]
        exact List.perm_append_comm_assoc _ _ _))
  refine ⟨next, ?_, hperm, ?_, halloc.trans hallocInserted⟩
  · unfold writeMatching
    simp only [hbooted]
    exact hnext
  · exact (hsameRemoved.trans hsameInserted).trans hsame

/-- Nothing is written when nothing is left over and every row already is what its
target would make of it. -/
theorem writeMatching_fixed {rule : Rule L t} {pairs : List (L × RowOf t)} {db : Database}
    (hpairs : ∀ pair ∈ pairs, rule.rewrite pair.1 pair.2 = pair.2)
    (hstored : ∀ pair ∈ pairs, pair.2 ∈ (db.tables t).rows) :
    writeMatching rule pairs [] [] db = some db := by
  unfold writeMatching
  simp only [removeAll, insertAll, List.append_nil]
  apply commitAll_stored
  intro row hrow
  obtain ⟨pair, hpair, rfl⟩ := List.mem_map.mp hrow
  rw [hpairs pair hpair]
  exact hstored pair hpair

/-! ## The whole procedure -/

section Spec

variable (rule : Rule L t) (lefts : List L) (rights rest : List (RowOf t))
  (db : Database)

/-- The target/row pairs that are written: the joined ones, then the targets
left over with the blank rows inserted for them. -/
def written : List (L × RowOf t) :=
  (join rule.score lefts rights).pairs ++
    bootedFrom t db.idAlloc (join rule.score lefts rights).lonelyLefts

theorem reconcile_eq_writeMatching :
    reconcile rule lefts rights db =
      writeMatching rule (join rule.score lefts rights).pairs
        (join rule.score lefts rights).lonelyLefts
        (join rule.score lefts rights).lonelyRights db := rfl

/-- Reconciliation never panics.  Its rows are the written pairs and the rows
that were not selected, and no other table changes. -/
theorem reconcile_spec
    (hrows : (db.tables t).rows.Perm (rights ++ rest)) :
    ∃ next, reconcile rule lefts rights db = some next ∧
      (next.tables t).rows.Perm
        (rule.rewritePairs (written rule lefts rights db) ++ rest) ∧
      SameElsewhere t db next ∧
      next.idAlloc =
        db.idAlloc + (join rule.score lefts rights).lonelyLefts.length := by
  have hjoined := join_rights_perm rule.score lefts rights
  have hsplit : (db.tables t).rows.Perm
      ((join rule.score lefts rights).lonelyRights ++
        ((join rule.score lefts rights).pairs.map Prod.snd ++ rest)) := by
    refine hrows.trans ((hjoined.symm.append_right rest).trans ?_)
    rw [List.append_assoc]
    exact List.perm_append_comm_assoc _ _ _
  rw [reconcile_eq_writeMatching]
  exact writeMatching_spec rule _ _ _ rest db hsplit

/-- Every target is written into exactly one row. -/
theorem written_map_fst_perm :
    ((written rule lefts rights db).map Prod.fst).Perm lefts := by
  rw [written, List.map_append, bootedFrom_map_fst]
  exact join_lefts_perm rule.score lefts rights

/-- A written pair is a joined pair or uses a new identifier. -/
theorem mem_written {pair : L × RowOf t}
    (hpair : pair ∈ written rule lefts rights db) :
    (pair.2 ∈ rights ∧ 0 ≤ rule.score pair.1 pair.2) ∨
      db.idAlloc < HasID.id pair.2 := by
  rcases List.mem_append.mp hpair with hjoined | hbooted
  · exact .inl ⟨join_pair_right_mem rule.score hjoined,
      join_pairs_nonneg rule.score lefts rights pair hjoined⟩
  · exact .inr (lt_id_of_mem_bootedFrom hbooted)

/-- If what is written into a row determines a view of it, then the rows that are
written show exactly the view of the targets. -/
theorem Rule.view_perm (rule : Rule L t) {X : Type*} {view : RowOf t → X} {target : L → X}
    (hview : ∀ l row, view (rule.rewrite l row) = target l) {pairs : List (L × RowOf t)}
    {targets : List L} (hpairs : (pairs.map Prod.fst).Perm targets) :
    ((rule.rewritePairs pairs).map view).Perm (targets.map target) := by
  have hmap : (rule.rewritePairs pairs).map view = (pairs.map Prod.fst).map target := by
    simp [Rule.rewritePairs, Function.comp_def, hview]
  rw [hmap]
  exact hpairs.map target

/-- Nothing is written when the join leaves nothing over and every row already
is what its target would make of it. -/
theorem reconcile_fixed
    (hlefts : (join rule.score lefts rights).lonelyLefts = [])
    (hrights : (join rule.score lefts rights).lonelyRights = [])
    (hpairs : ∀ pair ∈ (join rule.score lefts rights).pairs,
      rule.rewrite pair.1 pair.2 = pair.2)
    (hstored : ∀ row ∈ rights, row ∈ (db.tables t).rows) :
    reconcile rule lefts rights db = some db := by
  rw [reconcile_eq_writeMatching, hlefts, hrights]
  apply writeMatching_fixed hpairs
  intro pair hpair
  exact hstored pair.2 (join_pair_right_mem rule.score hpair)

end Spec

end Reconcile
end Di
