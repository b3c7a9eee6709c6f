import Di.JoinOwners
import Di.Reconcile
import Di.Swarm

/-!
# The scheduler's view of the running containers

`syncDB` pairs the rows of the container table with the containers that docker
lists and writes the identifier of each container into its row.  A row that is left
over keeps its old identifier, although another row may have been paired with the
container of that name: `schedIDs_distinct_iff` says for which tables and lists this
happens in some order.
-/

namespace Di
namespace Scheduler

open Db Join Reconcile
open Swarm (userLabelPrefix)

/-! ## Labels -/

def isUserLabel (label : String) : Bool := userLabelPrefix.toList.isPrefixOf label.toList

def parseUserLabel (label : String) : String :=
  if isUserLabel label then String.ofList (label.toList.drop userLabelPrefix.length) else label

/-! ## Matching rows with containers -/

/-- What docker says of a container, as far as it is looked at. -/
structure ContainerInfo where
  ID : String := ""
  image : String := ""
  path : String := ""
  args : List String := []
  pid : ℤ := 0
  labels : AList (fun _ : String => String) := ∅

/-- `docker.Container`. -/
structure DockerContainer extends ContainerInfo where
  env : Finmap (fun _ : String => String) := ∅

/-- `dkcLabels`. -/
def DockerContainer.userLabels (dkc : DockerContainer) : List String :=
  (dkc.labels.entries.filter fun entry =>
    isUserLabel entry.1 ∧ entry.2 = Swarm.labelTrueValue).map fun entry => parseUserLabel entry.1

/-- The value of a variable, where a missing one reads as the empty string. -/
def valueOf (env : Finmap fun _ : String => String) (key : String) : String :=
  (env.lookup key).getD ""

def score (dbc : Container) (dkc : DockerContainer) : ℤ :=
  let cmd1 := dkc.args
  let cmd2 := dkc.path :: dkc.args
  let dbcCmd := dbc.command.getD []
  if ∃ key ∈ dbc.env.keys, valueOf dkc.env key ≠ valueOf dbc.env key then -1
  else if dkc.image ≠ dbc.image then -1
  else if dbcCmd ≠ [] ∧ dbcCmd ≠ cmd1 ∧ dbcCmd ≠ cmd2 then -1
  else if dkc.ID = dbc.schedID then 0
  else Minion.editDistance dbc.labels dkc.userLabels

instance : RightCommutative Minion.editStep where
  right_comm := by
    rintro ⟨amap, ed⟩ first second
    by_cases hsame : first = second
    · rw [hsame]
    · by_cases hfirst : first ∈ amap <;> by_cases hsecond : second ∈ amap <;>
        simp [Minion.editStep, hfirst, hsecond, hsame, Ne.symm hsame, Finset.erase_right_comm]

/-- The order in which the label map is traversed plays no role. -/
theorem score_relabelled (dbc : Container) (dkc : DockerContainer)
    {labels : AList fun _ : String => String} (hlabels : labels.entries.Perm dkc.labels.entries) :
    score dbc { dkc with labels := labels } = score dbc dkc := by
  have hperm : ({ dkc with labels := labels } : DockerContainer).userLabels.Perm
      dkc.userLabels := (hlabels.filter _).map _
  have hdistance := hperm.foldl_eq (f := Minion.editStep) (dbc.labels.toFinset, 0)
  unfold score Minion.editDistance
  rw [hdistance]

/-- What `syncDB` leaves in the database and returns. -/
structure Synced where
  db : Database
  term : List String
  boot : List Container

def scheduled (pair : Container × DockerContainer) : Container :=
  { pair.1 with schedID := pair.2.ID }

def syncDB (order : IterOrder Container) (dkcs : List DockerContainer) (db : Database) :
    Option Synced := do
  let joined := join score (db.select .container order fun _ => true) dkcs
  let db ← commitAll (t := .container) (joined.pairs.map scheduled) db
  some ⟨db, joined.lonelyRights.map (fun dkc => dkc.ID), joined.lonelyLefts⟩

/-- The pairs of `syncDB`, the other way round. -/
def scheduleRule : Rule DockerContainer .container where
  score := fun dkc dbc => score dbc dkc
  rewrite := fun dkc dbc => scheduled (dbc, dkc)
  rewrite_id := fun _ _ => rfl

theorem syncDB_spec (order : IterOrder Container) (dkcs : List DockerContainer) (db : Database) :
    ∃ after, syncDB order dkcs db = some after ∧
      (after.db.tables .container).rows.Perm
        ((join score (db.select .container order fun _ => true) dkcs).pairs.map scheduled ++
          (join score (db.select .container order fun _ => true) dkcs).lonelyLefts) := by
  set rows := db.select .container order fun _ => true with hrows
  have hselected : rows.Perm (db.tables .container).rows := by
    have hperm := (db.tables .container).select_perm order fun _ => true
    rwa [List.filter_true] at hperm
  set joined := join score rows dkcs with hjoined
  have hlefts := (join_lefts_perm score rows dkcs).trans hselected
  rw [← hjoined] at hlefts
  have hstored : (db.tables .container).rows.Perm
      ((joined.pairs.map Prod.swap).map Prod.snd ++ joined.lonelyLefts) := by
    rw [List.map_map]
    exact hlefts.symm
  rcases commitAll_spec scheduleRule _ _ _ hstored with ⟨after, hcommit, hafter, _⟩
  have hwritten : scheduleRule.rewritePairs (joined.pairs.map Prod.swap) =
      joined.pairs.map scheduled := by
    rw [Rule.rewritePairs, List.map_map]
    rfl
  rw [hwritten] at hcommit hafter
  refine ⟨⟨after, joined.lonelyRights.map (fun dkc => dkc.ID), joined.lonelyLefts⟩, ?_, hafter⟩
  simp only [syncDB, ← hrows, ← hjoined, hcommit]
  rfl

/-! ## Identifiers in the table -/

/-- No two rows have the same identifier, except that many may have none. -/
def DistinctSchedIDs (rows : List Container) : Prop :=
  rows.Pairwise fun a b => a.schedID ≠ "" → a.schedID ≠ b.schedID

theorem DistinctSchedIDs.perm {rows others : List Container} (hrows : DistinctSchedIDs rows)
    (hperm : rows.Perm others) : DistinctSchedIDs others := by
  apply hperm.pairwise hrows
  intro a b hab hb hsame
  exact hab (hsame ▸ hb) hsame.symm

/-- Other rows can take docker containers one after another, each one with a best
score among those that are left, until the container that some row names is taken
and none is left that this row could take. -/
def Displaced (rows : List Container) (dkcs : List DockerContainer) : Prop :=
  ∃ row ∈ rows, row.schedID ≠ "" ∧ ∃ plan rest, Picks score plan dkcs rest ∧
    (plan.map Prod.fst).Subperm (rows.filter fun other => other.ID ≠ row.ID) ∧
    (∃ pair ∈ plan, pair.2.ID = row.schedID) ∧ ∀ dkc ∈ rest, score row dkc < 0

section Matching

variable {rows selected : List Container} {dkcs listed : List DockerContainer}

theorem perm_cons_others (hnodup : (rows.map Container.ID).Nodup) {row : Container}
    (hrow : row ∈ rows) : rows.Perm (row :: rows.filter fun other => other.ID ≠ row.ID) := by
  have hothers : rows.filter (fun other => other.ID = row.ID) = [row] := by
    rcases List.append_of_mem hrow with ⟨before, after, rfl⟩
    rw [List.map_append, List.map_cons, List.nodup_middle, List.nodup_cons,
      ← List.map_append] at hnodup
    have hdifferent : ∀ other ∈ before ++ after, other.ID ≠ row.ID :=
      fun other hother heq => hnodup.1 (heq ▸ List.mem_map_of_mem hother)
    rw [List.filter_append, List.filter_cons_of_pos (by simp),
      List.filter_eq_nil_iff.mpr, List.filter_eq_nil_iff.mpr]
    · rfl
    · simpa using fun other hother => hdifferent other (List.mem_append_right _ hother)
    · simpa using fun other hother => hdifferent other (List.mem_append_left _ hother)
  have hsplit := List.filter_append_perm (fun other => decide (other.ID = row.ID)) rows
  rw [hothers] at hsplit
  simpa using hsplit.symm

theorem displaced_of_lonely (hnodup : (rows.map Container.ID).Nodup)
    (hselected : selected.Perm rows) (hlisted : listed.Perm dkcs) {row : Container}
    (hlonely : row ∈ (join score selected listed).lonelyLefts) (hsome : row.schedID ≠ "")
    {pair : Container × DockerContainer} (hpair : pair ∈ (join score selected listed).pairs)
    (hsame : pair.2.ID = row.schedID) : Displaced rows dkcs := by
  set joined := join score selected listed with hjoined
  have hlefts : (joined.pairs.map Prod.fst ++ joined.lonelyLefts).Perm rows :=
    (join_lefts_perm score selected listed).trans hselected
  have hrow : row ∈ rows := hlefts.mem_iff.mp (List.mem_append_right _ hlonely)
  refine ⟨row, hrow, hsome, joined.pairs, joined.lonelyRights,
    (join_picks score selected listed).of_perm hlisted.symm, ?_, ⟨pair, hpair, hsame⟩,
    fun dkc hdkc => join_lonely_incompatible score hlonely hdkc⟩
  have hids := (hlefts.map Container.ID).nodup_iff.mpr hnodup
  rw [List.map_append, List.nodup_append] at hids
  have hothers : (joined.pairs.map Prod.fst).filter (fun other => other.ID ≠ row.ID) =
      joined.pairs.map Prod.fst := by
    apply List.filter_eq_self.mpr
    intro other hother
    rw [decide_eq_true_eq]
    exact hids.2.2 _ (List.mem_map_of_mem hother) _ (List.mem_map_of_mem hlonely)
  have hfilter := hlefts.filter fun other => other.ID ≠ row.ID
  rw [List.filter_append, hothers] at hfilter
  exact (List.sublist_append_left _ _).subperm.trans hfilter.subperm

theorem distinct_scheduled (hrows : DistinctSchedIDs rows)
    (hdkcs : (dkcs.map fun dkc => dkc.ID).Nodup) (hnodup : (rows.map Container.ID).Nodup)
    (hdisplaced : ¬ Displaced rows dkcs) (hselected : selected.Perm rows)
    (hlisted : listed.Perm dkcs) :
    DistinctSchedIDs ((join score selected listed).pairs.map scheduled ++
      (join score selected listed).lonelyLefts) := by
  set joined := join score selected listed with hjoined
  refine List.pairwise_append.mpr ⟨?_, ?_, ?_⟩
  · -- the containers of the pairs are different
    have hrights := ((join_rights_perm score selected listed).trans hlisted).map
      fun dkc => dkc.ID
    have hids := hrights.nodup_iff.mpr hdkcs
    rw [List.map_append, List.map_map] at hids
    rw [List.pairwise_map]
    apply (List.pairwise_map.mp (List.nodup_append.mp hids).1).imp
    intro a b hne _
    exact hne
  · have hsublist := join_lonelyLefts_sublist score selected listed
    exact (hrows.perm hselected.symm).sublist hsublist
  · intro written hwritten row hlonely hsome hsame
    rcases List.mem_map.mp hwritten with ⟨pair, hpair, rfl⟩
    apply hdisplaced
    exact displaced_of_lonely hnodup hselected hlisted hlonely (hsame ▸ hsome) hpair hsame

theorem lonely_of_displaced (hnodup : (rows.map Container.ID).Nodup)
    (hdisplaced : Displaced rows dkcs) :
    ∃ selected listed, selected.Perm rows ∧ listed.Perm dkcs ∧
      ¬ DistinctSchedIDs ((join score selected listed).pairs.map scheduled ++
        (join score selected listed).lonelyLefts) := by
  rcases hdisplaced with ⟨row, hrow, hsome, plan, rest, hpicks, hothers, ⟨pair, hpair, hsame⟩, hneg⟩
  obtain ⟨later, hlater⟩ : ∃ later,
      (rows.filter fun other => other.ID ≠ row.ID).Perm (plan.map Prod.fst ++ later) := by
    rcases hothers with ⟨chosen, hperm, hsublist⟩
    rcases hsublist.exists_perm_append with ⟨later, hall⟩
    exact ⟨later, hall.trans (hperm.append_right later)⟩
  rcases hpicks.followed (row :: later) with ⟨listed, hlisted, hjoin⟩
  refine ⟨plan.map Prod.fst ++ row :: later, listed, ?_, hlisted, ?_⟩
  · exact List.perm_middle.trans ((hlater.symm.cons row).trans (perm_cons_others hnodup hrow).symm)
  · intro hdistinct
    have hnone := bestMatch_of_negative hneg
    have hlonely : row ∈ (join score (plan.map Prod.fst ++ row :: later) listed).lonelyLefts := by
      rw [hjoin, join_cons, hnone]
      exact List.mem_cons_self
    have hpaired : pair ∈ (join score (plan.map Prod.fst ++ row :: later) listed).pairs := by
      rw [hjoin]
      exact List.mem_append_left _ hpair
    exact (List.pairwise_append.mp hdistinct).2.2 _ (List.mem_map_of_mem hpaired) row hlonely
      (by rw [scheduled, hsame]; exact hsome) hsame

/-- Nothing is displaced if no other row can take the container that a row names. -/
theorem not_displaced_of_incompatible
    (hneg : ∀ row ∈ rows, row.schedID ≠ "" → ∀ other ∈ rows, other.ID ≠ row.ID →
      ∀ dkc ∈ dkcs, dkc.ID = row.schedID → score other dkc < 0) :
    ¬ Displaced rows dkcs := by
  rintro ⟨row, hrow, hsome, plan, rest, hpicks, hothers, ⟨pair, hpair, hsame⟩, _⟩
  have hother := List.mem_filter.mp (hothers.subset (List.mem_map_of_mem hpair))
  have hlisted : pair.2 ∈ dkcs :=
    hpicks.perm.mem_iff.mpr (List.mem_append_left _ (List.mem_map_of_mem hpair))
  have hscore := hneg row hrow hsome pair.1 hother.1 (by simpa using hother.2) pair.2 hlisted hsame
  have hnonneg := hpicks.nonneg pair hpair
  omega

end Matching

/-- In every order of the rows and of the containers the identifiers in the table
stay distinct, exactly if no row can be displaced from its container. -/
theorem schedIDs_distinct_iff (db : Database) (dkcs : List DockerContainer)
    (hrows : DistinctSchedIDs (db.tables .container).rows)
    (hdkcs : (dkcs.map fun dkc => dkc.ID).Nodup) :
    (∀ order listed, listed.Perm dkcs → ∃ after, syncDB order listed db = some after ∧
      DistinctSchedIDs (after.db.tables .container).rows) ↔
      ¬ Displaced (db.tables .container).rows dkcs := by
  have hnodup : ((db.tables .container).rows.map Container.ID).Nodup :=
    (db.tables .container).nodup
  constructor
  · intro hall hdisplaced
    rcases lonely_of_displaced hnodup hdisplaced with
      ⟨selected, listed, hselected, hlisted, hduplicate⟩
    rcases IterOrder.exists_visit_eq hselected with ⟨order, horder⟩
    rcases hall order listed hlisted with ⟨after, hsync, hdistinct⟩
    rcases syncDB_spec order listed db with ⟨result, hresult, hafter⟩
    obtain rfl : after = result := Option.some.inj (hsync.symm.trans hresult)
    apply hduplicate
    have hselect : db.select .container order (fun _ => true) = selected := by
      simp [Database.select, Table.select, horder]
    rw [hselect] at hafter
    exact hdistinct.perm hafter
  · intro hdisplaced order listed hlisted
    rcases syncDB_spec order listed db with ⟨after, hsync, hafter⟩
    refine ⟨after, hsync, ?_⟩
    have hselected : (db.select .container order fun _ => true).Perm
        (db.tables .container).rows := by
      have hperm := (db.tables .container).select_perm order fun _ => true
      rwa [List.filter_true] at hperm
    exact (distinct_scheduled hrows hdkcs hnodup hdisplaced hselected hlisted).perm hafter.symm

def twoRows (first second : Container) : Database :=
  (commitAll (t := .container) [first, second]
    ((Database.new.insertRow .container).2.insertRow .container).2).getD Database.new

def runningRow (image : String) : Container := { ID := 2, schedID := "c1", image := image }

def dockerized (image : String) : DockerContainer := { ID := "c1", image := image }

theorem schedIDs_distinct_otherImage :
    ∃ after, syncDB (.asStored _) [dockerized "redis"]
        (twoRows { ID := 1, image := "nginx" } (runningRow "redis")) = some after ∧
      DistinctSchedIDs (after.db.tables .container).rows := by
  have htable : ((twoRows { ID := 1, image := "nginx" } (runningRow "redis")).tables
      .container).rows = [{ ID := 1, image := "nginx" }, runningRow "redis"] := by
    decide
  have hrows : DistinctSchedIDs ((twoRows { ID := 1, image := "nginx" }
      (runningRow "redis")).tables .container).rows := by
    rw [htable]
    simp [DistinctSchedIDs]
  have hfree : ¬ Displaced ((twoRows { ID := 1, image := "nginx" }
      (runningRow "redis")).tables .container).rows [dockerized "redis"] := by
    apply not_displaced_of_incompatible
    rw [htable]
    decide
  exact (schedIDs_distinct_iff _ _ hrows (by simp)).mpr hfree _ _ .rfl

/-- A new row for the same image comes first and takes the container; the row that
named it keeps the name. -/
theorem newRow_duplicates :
    (syncDB (.asStored _) [dockerized "redis"]
      (twoRows { ID := 1, image := "redis" } (runningRow "redis"))).map
        (fun after => (after.db.tables .container).rows.map Container.schedID) =
      some ["c1", "c1"] := by
  decide

end Scheduler
end Di
