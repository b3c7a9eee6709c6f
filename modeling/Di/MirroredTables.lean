import Di.LabelStore
import Di.Mirror
import Di.Scheduler

/-!
# The tables that mirror the store and docker

A minion copies the labels of the consensus store into its label table, and a worker
copies the containers that docker runs into its container table.  A label row without
a key of its own is not removed as long as there are keys without a row: it is paired
with one of them and renamed.  A container row is only paired with the container of
its identifier and keeps what the supervisor does not know.
-/

namespace Di
namespace MirroredTables

open Db Reconcile
open NetworkStore (Directory ipOf)
open LabelStore (hasMark)
open Scheduler (DockerContainer)

/-! ## Labels -/

def labelScore (key : String) (dbl : Label) : ℤ := if dbl.label = key then 0 else 1

def labelRule (dir : Directory) : Rule String .label where
  score := labelScore
  rewrite := fun key dbl =>
    { dbl with label := key, ip := ipOf dir key, multiHost := hasMark dir key }
  rewrite_id := fun _ _ => rfl

def readLabelTransact (order : IterOrder Label) (keyOrder : IterOrder String)
    (dir : Directory) (view : Database) : Option Database :=
  mirror (labelRule dir) (view.select .label order fun _ => true) (keyOrder.visit dir.keys) view

/-- What a row says about its label. -/
def labelView (dbl : Label) : String × String × Bool := (dbl.label, dbl.ip, dbl.multiHost)

def labelTarget (dir : Directory) (key : String) : String × String × Bool :=
  (key, ipOf dir key, hasMark dir key)

theorem labelScore_eq_zero (key : String) (dbl : Label) :
    labelScore key dbl = 0 ↔ dbl.label = key := by
  unfold labelScore
  split_ifs with hlabel
  · simp [hlabel]
  · simp [hlabel]

theorem select_all_perm (db : Database) (t : TableType) (order : IterOrder (RowOf t)) :
    (db.tables t).rows.Perm (db.select t order fun _ => true) := by
  have hselect := (db.tables t).select_perm order fun _ => true
  rw [List.filter_true] at hselect
  exact hselect.symm

theorem readLabelTransact_spec (order : IterOrder Label) (keyOrder : IterOrder String)
    (dir : Directory) (db : Database) :
    ∃ after, readLabelTransact order keyOrder dir db = some after ∧
      ((after.tables .label).rows.map labelView).Perm (dir.keys.map (labelTarget dir)) ∧
      SameElsewhere .label db after := by
  rcases mirror_spec (labelRule dir) (keyOrder.visit dir.keys) db
    (select_all_perm db .label order) with ⟨after, hafter, hrows, hsame⟩
  have hrewrite : ∀ key dbl, labelView ((labelRule dir).rewrite key dbl) = labelTarget dir key :=
    fun _ _ => rfl
  have hviews := (hrows.map labelView).trans
    ((labelRule dir).view_perm hrewrite (mirrored_map_fst_perm _ _ db))
  exact ⟨after, hafter, hviews.trans ((keyOrder.perm dir.keys).map _), hsame⟩

/-- A label table that shows the directory is left alone. -/
theorem readLabelTransact_again {dir : Directory} {db : Database}
    (hviews : ((db.tables .label).rows.map labelView).Perm (dir.keys.map (labelTarget dir)))
    (order : IterOrder Label) (keyOrder : IterOrder String) :
    readLabelTransact order keyOrder dir db = some db := by
  have hselect := select_all_perm db .label order
  have hkeys : ((db.select .label order fun _ => true).map Label.label).Perm
      ((keyOrder.visit dir.keys).map id) := by
    have hnames := hviews.map Prod.fst
    rw [List.map_map, List.map_map] at hnames
    exact (hselect.symm.map Label.label).trans (hnames.trans ((keyOrder.perm dir.keys).symm.map id))
  refine (mirror_settled hkeys labelScore_eq_zero ?_ ?_).2
  · intro key _ dbl hdbl hlabel
    have hmem : labelView dbl ∈ dir.keys.map (labelTarget dir) :=
      hviews.mem_iff.mp (List.mem_map_of_mem (hselect.mem_iff.mpr hdbl))
    rcases List.mem_map.mp hmem with ⟨own, _, hown⟩
    simp only [labelTarget, labelView, Prod.mk.injEq] at hown
    have hsame : key = own := hlabel.symm.trans hown.1.symm
    rw [hsame]
    change ({ dbl with
      label := own, ip := ipOf dir own, multiHost := hasMark dir own } : Label) = dbl
    rw [hown.2.1, hown.2.2, hown.1]
  · intro dbl hdbl
    exact hselect.mem_iff.mpr hdbl

/-- After `readLabelTransact` the label table has one row for each key of the
directory, with the address and the mark of that key, and no other row.  Reading the
same directory again writes nothing, in any order. -/
theorem readLabelTransact_mirrors (order : IterOrder Label) (keyOrder : IterOrder String)
    (dir : Directory) (db : Database) :
    ∃ after, readLabelTransact order keyOrder dir db = some after ∧
      (∀ key ∈ dir, ∃! dbl, dbl ∈ (after.tables .label).rows ∧ dbl.label = key) ∧
      (∀ dbl ∈ (after.tables .label).rows,
        dbl.label ∈ dir ∧ dbl.ip = ipOf dir dbl.label ∧
          (dbl.multiHost = true ↔ "MultiHost" ∈ NetworkStore.children dir dbl.label)) ∧
      SameElsewhere .label db after ∧
      ∀ order' keyOrder', readLabelTransact order' keyOrder' dir after = some after := by
  rcases readLabelTransact_spec order keyOrder dir db with ⟨after, hafter, hviews, hsame⟩
  have hlabels : ((after.tables .label).rows.map Label.label).Perm dir.keys := by
    have hnames := hviews.map Prod.fst
    rw [List.map_map, List.map_map] at hnames
    simpa [Function.comp_def, labelView, labelTarget] using hnames
  refine ⟨after, hafter, ?_, ?_, hsame, readLabelTransact_again hviews⟩
  · intro key hkey
    rcases List.mem_map.mp (hlabels.mem_iff.mpr hkey) with ⟨dbl, hdbl, hlabel⟩
    refine ⟨dbl, ⟨hdbl, hlabel⟩, ?_⟩
    rintro other ⟨hother, hname⟩
    exact List.inj_on_of_nodup_map (hlabels.nodup_iff.mpr dir.keys_nodup) hother hdbl
      (hname.trans hlabel.symm)
  · intro dbl hdbl
    rcases List.mem_map.mp (hviews.mem_iff.mp (List.mem_map_of_mem hdbl)) with ⟨key, hkey, hown⟩
    simp only [labelTarget, labelView, Prod.mk.injEq] at hown
    rw [← hown.1, ← hown.2.1, ← hown.2.2]
    exact ⟨hkey, rfl, by simp [hasMark]⟩

/-! ## Containers -/

def appScore (dkc : DockerContainer) (dbc : Container) : ℤ :=
  if dbc.schedID ≠ dkc.ID then -1 else 0

def appRule : Rule DockerContainer .container where
  score := appScore
  rewrite := fun dkc dbc =>
    { dbc with
      schedID := dkc.ID
      pid := dkc.pid
      image := dkc.image
      command := some (dkc.path :: dkc.args) }
  rewrite_id := fun _ _ => rfl

/-- The identifiers of the containers to tear down, and the database. -/
def runAppTransact (order : IterOrder Container) (dkcs : List DockerContainer)
    (view : Database) : Option (List String × Database) :=
  let rows := view.select .container order fun _ => true
  let tearDowns := (appRule.rowJoin rows dkcs).lonelyLefts.map Container.schedID
  (mirror appRule rows dkcs view).map fun after => (tearDowns, after)

/-- What docker knows of the container of a row. -/
def appView (dbc : Container) : String × ℤ × String × Option (List String) :=
  (dbc.schedID, dbc.pid, dbc.image, dbc.command)

def appTarget (dkc : DockerContainer) : String × ℤ × String × Option (List String) :=
  (dkc.ID, dkc.pid, dkc.image, some (dkc.path :: dkc.args))

theorem appScore_eq_zero (dkc : DockerContainer) (dbc : Container) :
    appScore dkc dbc = 0 ↔ dbc.schedID = dkc.ID := by
  unfold appScore
  split_ifs with hID
  · simp [hID]
  · simpa using hID

theorem schedID_of_appScore {dkc : DockerContainer} {dbc : Container}
    (hscore : 0 ≤ appScore dkc dbc) : dbc.schedID = dkc.ID := by
  unfold appScore at hscore
  split_ifs at hscore with hID
  · omega
  · simpa using hID

section Transact

variable {order : IterOrder Container} {dkcs : List DockerContainer} {db after : Database}

/-- A container table that shows what docker lists is left alone. -/
theorem runAppTransact_again
    (hviews : ((db.tables .container).rows.map appView).Perm (dkcs.map appTarget))
    (hdkcs : (dkcs.map fun dkc => dkc.ID).Nodup) (order : IterOrder Container) :
    runAppTransact order dkcs db = some ([], db) := by
  have hselect := select_all_perm db .container order
  have hkeys : ((db.select .container order fun _ => true).map Container.schedID).Perm
      (dkcs.map fun dkc => dkc.ID) := by
    have hnames := hviews.map Prod.fst
    rw [List.map_map, List.map_map] at hnames
    exact (hselect.symm.map Container.schedID).trans hnames
  have hzero : ∀ dkc dbc, appRule.score dkc dbc = 0 ↔ dbc.schedID = dkc.ID := appScore_eq_zero
  have hfixed : ∀ dkc ∈ dkcs, ∀ dbc ∈ db.select .container order fun _ => true,
      dbc.schedID = dkc.ID → appRule.rewrite dkc dbc = dbc := by
    intro dkc hdkc dbc hdbc hID
    have hmem : appView dbc ∈ dkcs.map appTarget :=
      hviews.mem_iff.mp (List.mem_map_of_mem (hselect.mem_iff.mpr hdbc))
    rcases List.mem_map.mp hmem with ⟨own, hmemOwn, hown⟩
    simp only [appTarget, appView, Prod.mk.injEq] at hown
    have hsame : dkc = own :=
      List.inj_on_of_nodup_map hdkcs hdkc hmemOwn (hID.symm.trans hown.1.symm)
    rw [hsame]
    change ({ dbc with
      schedID := own.ID
      pid := own.pid
      image := own.image
      command := some (own.path :: own.args) } : Container) = dbc
    rw [hown.1, hown.2.1, hown.2.2.1, hown.2.2.2]
  rcases mirror_settled hkeys hzero hfixed fun dbc hdbc => hselect.mem_iff.mpr hdbc with
    ⟨hlonely, hmirror⟩
  unfold runAppTransact
  simp only [hlonely, hmirror, Option.map_some, List.map_nil]

/-- A listed container with a row of its own is paired with such a row. -/
theorem exists_pair_of_schedID {rows : List Container}
    (hdkcs : (dkcs.map fun dkc => dkc.ID).Nodup) {dkc : DockerContainer} (hdkc : dkc ∈ dkcs)
    {dbc : Container} (hdbc : dbc ∈ rows) (hID : dbc.schedID = dkc.ID) :
    ∃ own, (own, dkc) ∈ (appRule.rowJoin rows dkcs).pairs := by
  have hrights := Join.join_rights_perm (fun row target => appRule.score target row) rows dkcs
  have hlefts := Join.join_lefts_perm (fun row target => appRule.score target row) rows dkcs
  have hscore : appRule.score dkc dbc = 0 := (appScore_eq_zero dkc dbc).mpr hID
  rcases List.mem_append.mp (hrights.mem_iff.mpr hdkc) with hpaired | hlonely
  · rcases List.mem_map.mp hpaired with ⟨pair, hpair, rfl⟩
    exact ⟨pair.1, hpair⟩
  · rcases List.mem_append.mp (hlefts.mem_iff.mpr hdbc) with hmatched | hrowLonely
    · rcases List.mem_map.mp hmatched with ⟨pair, hpair, rfl⟩
      have hother := schedID_of_appScore (Join.join_pairs_nonneg _ rows dkcs pair hpair)
      have hsame : pair.2 = dkc := List.inj_on_of_nodup_map hdkcs
        (Join.join_pair_right_mem _ hpair) hdkc (hother.symm.trans hID)
      exact ⟨pair.1, hsame ▸ hpair⟩
    · have hnegative := Join.join_lonely_incompatible _ hrowLonely hlonely
      simp only [hscore, lt_irrefl] at hnegative

section Rows

variable {rows : List Container} (hrows : (db.tables .container).rows.Perm rows)
  (hafter : mirror appRule rows dkcs db = some after)

include hrows hafter

theorem appViews_perm :
    ((after.tables .container).rows.map appView).Perm (dkcs.map appTarget) := by
  have hrewrite : ∀ dkc dbc, appView (appRule.rewrite dkc dbc) = appTarget dkc :=
    fun _ _ => rfl
  exact ((mirror_rows hrows hafter).map appView).trans
    (appRule.view_perm hrewrite (mirrored_map_fst_perm _ _ db))

/-- A row that survives had the identifier of a listed container, whose data are all
that is new in it. -/
theorem rewritten_of_kept {dbc kept : Container} (hdbc : dbc ∈ (db.tables .container).rows)
    (hkept : kept ∈ (after.tables .container).rows) (hid : kept.ID = dbc.ID) :
    ∃ dkc, dbc.schedID = dkc.ID ∧ kept = appRule.rewrite dkc dbc := by
  rcases exists_pair_of_kept hrows hafter hdbc hkept hid with ⟨dkc, hpair, hwritten⟩
  have hscore := Join.join_pairs_nonneg (fun row target => appRule.score target row)
    rows dkcs (dbc, dkc) hpair
  exact ⟨dkc, schedID_of_appScore hscore, hwritten⟩

theorem existsUnique_survivor (hdkcs : (dkcs.map fun dkc => dkc.ID).Nodup)
    {dkc : DockerContainer} (hdkc : dkc ∈ dkcs) {dbc : Container}
    (hdbc : dbc ∈ (db.tables .container).rows) (hID : dbc.schedID = dkc.ID) :
    ∃! own, (own ∈ (db.tables .container).rows ∧ own.schedID = dkc.ID) ∧
      own.ID ∈ (after.tables .container).ids := by
  rcases exists_pair_of_schedID hdkcs hdkc (hrows.mem_iff.mp hdbc) hID with ⟨own, hpair⟩
  have hown := hrows.mem_iff.mpr (Join.join_pair_left_mem _ hpair)
  have hscore := Join.join_pairs_nonneg (fun row target => appRule.score target row)
    rows dkcs (own, dkc) hpair
  have hwritten := mem_mirror_of_pair hrows hafter hpair
  have hids : own.ID ∈ (after.tables .container).ids :=
    List.mem_map.mpr ⟨_, hwritten, rfl⟩
  refine ⟨own, ⟨⟨hown, schedID_of_appScore hscore⟩, hids⟩, ?_⟩
  rintro other ⟨⟨hother, hotherID⟩, hids⟩
  rcases List.mem_map.mp hids with ⟨kept, hkept, hid⟩
  rcases rewritten_of_kept hrows hafter hother hkept hid with ⟨dkc', hdkc', rfl⟩
  -- the surviving rows have the distinct identifiers of the listed containers
  have hdistinct : ((after.tables .container).rows.map Container.schedID).Nodup := by
    have hnames := (appViews_perm hrows hafter).map Prod.fst
    rw [List.map_map, List.map_map] at hnames
    exact hnames.nodup_iff.mpr hdkcs
  have hequal : appRule.rewrite dkc' other = appRule.rewrite dkc own :=
    List.inj_on_of_nodup_map hdistinct hkept hwritten (hdkc'.symm.trans hotherID)
  have hsameID : other.ID = own.ID :=
    calc
      other.ID = (appRule.rewrite dkc' other).ID := rfl
      _ = (appRule.rewrite dkc own).ID := by rw [hequal]
      _ = own.ID := rfl
  exact Table.eq_of_id_eq hother hown hsameID

end Rows

/-- After `runAppTransact` the container table has one row for each container that
docker lists.  Of the rows with the identifier of a listed container exactly one
survives, with everything that docker does not know; the other rows are removed and
reported.  Repeating the call changes nothing, in any order. -/
theorem runAppTransact_mirrors (order : IterOrder Container) (dkcs : List DockerContainer)
    (db : Database) (hdkcs : (dkcs.map fun dkc => dkc.ID).Nodup) :
    ∃ tearDowns after, runAppTransact order dkcs db = some (tearDowns, after) ∧
      ((after.tables .container).rows.map appView).Perm (dkcs.map appTarget) ∧
      (∀ dkc ∈ dkcs, (∃ dbc ∈ (db.tables .container).rows, dbc.schedID = dkc.ID) →
        ∃! dbc, (dbc ∈ (db.tables .container).rows ∧ dbc.schedID = dkc.ID) ∧
          dbc.ID ∈ (after.tables .container).ids) ∧
      (∀ dbc ∈ (db.tables .container).rows, ∀ kept ∈ (after.tables .container).rows,
        kept.ID = dbc.ID →
          kept.schedID = dbc.schedID ∧ kept.ip = dbc.ip ∧ kept.mac = dbc.mac ∧
            kept.labels = dbc.labels ∧ kept.env = dbc.env ∧ kept.placement = dbc.placement) ∧
      tearDowns.Perm (((db.tables .container).rows.filter fun dbc =>
        dbc.ID ∉ (after.tables .container).ids).map Container.schedID) ∧
      SameElsewhere .container db after ∧
      ∀ again, runAppTransact again dkcs after = some ([], after) := by
  have hrows := select_all_perm db .container order
  rcases mirror_spec appRule dkcs db hrows with ⟨after, hafter, _, hsame⟩
  have hcall : runAppTransact order dkcs db =
      some ((appRule.rowJoin (db.select .container order fun _ => true)
        dkcs).lonelyLefts.map Container.schedID, after) := by
    unfold runAppTransact
    simp only [hafter, Option.map_some]
  have hviews := appViews_perm hrows hafter
  refine ⟨_, after, hcall, hviews, ?_, ?_, ?_, hsame, runAppTransact_again hviews hdkcs⟩
  · intro dkc hdkc hlisted
    rcases hlisted with ⟨dbc, hdbc, hID⟩
    exact existsUnique_survivor hrows hafter hdkcs hdkc hdbc hID
  · intro dbc hdbc kept hkept hid
    rcases rewritten_of_kept hrows hafter hdbc hkept hid with ⟨dkc, hdkc, rfl⟩
    exact ⟨hdkc.symm, rfl, rfl, rfl, rfl, rfl⟩
  · exact (lonely_perm_removed hrows hafter).map Container.schedID

/-- A row of a container that still runs, one of the same container and one of another. -/
def workerRows : Table Container where
  rows := [{ ID := 1, ip := "10.0.0.5", schedID := "c1" }, { ID := 2, schedID := "c1" },
    { ID := 3, schedID := "gone" }]
  seq := 3
  nodup := by decide

/-- What the worker runs: the container of the first row and one without row. -/
def workerDkcs : List DockerContainer :=
  [{ ID := "c1", image := "nginx", path := "sh", pid := 7 },
    { ID := "c2", image := "redis", path := "sh", pid := 8 }]

theorem runAppTransact_mirrors_workerRows :
    ∃ db : Database, db.tables .container = workerRows ∧
      ∃ tearDowns after, runAppTransact (.asStored _) workerDkcs db = some (tearDowns, after) ∧
        tearDowns.Perm (((db.tables .container).rows.filter fun dbc =>
          dbc.ID ∉ (after.tables .container).ids).map Container.schedID) := by
  refine ⟨Database.new.withTable .container workerRows 3 (by decide) (by decide), ?_, ?_⟩
  · simp [Database.withTable]
  · rcases runAppTransact_mirrors (.asStored _) workerDkcs
      (Database.new.withTable .container workerRows 3 (by decide) (by decide)) (by decide) with
      ⟨tearDowns, after, hcall, _, _, _, hremoved, _⟩
    exact ⟨tearDowns, after, hcall, hremoved⟩

end Transact

end MirroredTables
end Di
