import Di.EnginePolicy

/-!
# The cloud sync of a cluster

An iteration of `sync` uses two transactions.  The first reads the machine rows
of the cluster; the rows are then matched with the machines the cloud providers
report, and the second transaction writes every matched row back with the cloud
side's fields filled in.  Policy updates may run in between, so the rows that
are written back may be stale.

A stale row may be gone: `sync_never_panics` shows that the controller survives
as long as every policy update in between keeps a demand for the matched rows.
A stale row may also carry old values of fields that the policy owns:
`sync_keeps_policy_iff` says exactly when the write loses an update.
-/

namespace Di
namespace ClusterSync

open Db Join Reconcile Engine

/-- `provider.Machine`. -/
structure CloudMachine where
  ID : String := ""
  publicIP : String := ""
  privateIP : String := ""
  size : String := ""
  diskSize : ℤ := 0
  sshKeys : List String := []
  provider : Provider
  region : String := ""
  deriving DecidableEq

/-- `scoreFun` of `syncDB`. -/
def syncScore (dbm : Machine) (m : CloudMachine) : ℤ :=
  if dbm.provider ≠ m.provider then -1
  else if m.region ≠ "" ∧ dbm.region ≠ m.region then -1
  else if m.size ≠ "" ∧ dbm.size ≠ m.size then -1
  else if m.diskSize ≠ 0 ∧ dbm.diskSize ≠ m.diskSize then -1
  else if dbm.cloudID = m.ID then 0
  else if dbm.publicIP = m.publicIP then 1
  else if dbm.privateIP = m.privateIP then 2
  else 3

/-- What `syncDB` returns. -/
structure Diff where
  pairs : List (Machine × CloudMachine)
  bootSet : List CloudMachine
  terminateSet : List CloudMachine

def syncDB (cloudMachines : List CloudMachine) (dbMachines : List Machine) : Diff :=
  let joined := join syncScore dbMachines cloudMachines
  { pairs := joined.pairs
    bootSet := joined.lonelyLefts.map fun m =>
      { size := m.size
        provider := m.provider
        region := m.region
        diskSize := m.diskSize
        sshKeys := m.sshKeys }
    terminateSet := joined.lonelyRights }

/-- The row that the second transaction commits for a pair. -/
def cloudWritten (dbm : Machine) (m : CloudMachine) : Machine :=
  { dbm with
    cloudID := m.ID
    publicIP := m.publicIP
    privateIP := m.privateIP
    size := if m.size ≠ "" then m.size else dbm.size
    diskSize := if m.diskSize ≠ 0 then m.diskSize else dbm.diskSize
    provider := m.provider }

def Diff.rows (diff : Diff) : List Machine :=
  diff.pairs.map fun pair => cloudWritten pair.1 pair.2

/-- The database, and the matches of an iteration that has read its rows but
not yet written them back. -/
structure State where
  db : Database
  pending : Option Diff

inductive Event
  /-- A transaction of `UpdatePolicy`. -/
  | policy (outside : Outside) (orders : Orders) (dsl : Lang.Dsl)
  /-- The first transaction of an iteration, and the matching. -/
  | read (cloudMachines : List CloudMachine) (order : IterOrder Machine)
  /-- The second transaction. -/
  | write

/-- `none` is a controller that has panicked. -/
def step (clusterID : ℕ) : Option State → Event → Option State
  | none, _ => none
  | some s, .policy outside orders dsl =>
      (updateTxn outside orders dsl s.db).map fun result => { s with db := result.2 }
  | some ⟨db, none⟩, .read cloudMachines order =>
      let dbMachines := db.select .machine order fun m => m.clusterID == clusterID
      some ⟨db, some (syncDB cloudMachines dbMachines)⟩
  | some ⟨db, some diff⟩, .write =>
      (commitAll (t := .machine) diff.rows db).map fun db => ⟨db, none⟩
  | state, _ => state

/-- What one step can do. -/
theorem step_cases {clusterID : ℕ} {s next : State} {event : Event}
    (hstep : step clusterID (some s) event = some next) :
    (∃ outside orders dsl reply, event = .policy outside orders dsl ∧
      updateTxn outside orders dsl s.db = some (reply, next.db) ∧
      next.pending = s.pending) ∨
    (∃ cloudMachines order, s.pending = none ∧ next.db = s.db ∧
      next.pending = some (syncDB cloudMachines
        (s.db.select .machine order fun m => m.clusterID == clusterID))) ∨
    (∃ diff, s.pending = some diff ∧ next.pending = none ∧
      commitAll (t := .machine) diff.rows s.db = some next.db) ∨
    next = s := by
  obtain ⟨db, pending⟩ := s
  cases event with
  | policy outside orders dsl =>
      obtain ⟨⟨reply, after⟩, htxn, rfl⟩ := Option.map_eq_some_iff.mp hstep
      exact .inl ⟨outside, orders, dsl, reply, rfl, htxn, rfl⟩
  | read cloudMachines order =>
      cases pending with
      | none =>
          obtain rfl := Option.some.inj hstep
          exact .inr (.inl ⟨cloudMachines, order, rfl, rfl, rfl⟩)
      | some diff => exact .inr (.inr (.inr (Option.some.inj hstep).symm))
  | write =>
      cases pending with
      | none => exact .inr (.inr (.inr (Option.some.inj hstep).symm))
      | some diff =>
          obtain ⟨after, hcommit, rfl⟩ := Option.map_eq_some_iff.mp hstep
          exact .inr (.inr (.inl ⟨diff, rfl, rfl, hcommit⟩))

/-- The rows of a pending iteration were rows of the cluster when read. -/
theorem mem_syncDB_pairs {cloudMachines : List CloudMachine} {db : Database}
    {order : IterOrder Machine} {clusterID : ℕ} {pair : Machine × CloudMachine}
    (hpair : pair ∈ (syncDB cloudMachines
      (db.select .machine order fun m => m.clusterID == clusterID)).pairs) :
    pair.1 ∈ (db.tables .machine).rows ∧ pair.1.clusterID = clusterID := by
  have hmem := join_pair_left_mem syncScore hpair
  obtain ⟨hrow, hcluster⟩ := (Table.mem_select _ _ _ _).mp hmem
  exact ⟨hrow, by simpa using hcluster⟩

theorem syncDB_pairs_distinct (cloudMachines : List CloudMachine) (db : Database)
    (order : IterOrder Machine) (check : Machine → Bool) :
    ((syncDB cloudMachines (db.select .machine order check)).pairs.map
      fun pair => pair.1.ID).Nodup := by
  have hselected : ((db.select .machine order check).map HasID.id).Nodup := by
    have hperm := ((db.tables .machine).select_perm order check).map HasID.id
    exact hperm.nodup_iff.mpr
      ((List.filter_sublist.map HasID.id).nodup (db.tables .machine).nodup)
  have hperm := (join_lefts_perm syncScore (db.select .machine order check)
    cloudMachines).map HasID.id
  have hall := hperm.nodup_iff.mpr hselected
  rw [List.map_append, List.map_map] at hall
  exact (List.nodup_append.mp hall).1

theorem Diff.rows_ids (diff : Diff) :
    diff.rows.map (HasID.id (ρ := Machine)) = diff.pairs.map fun pair => pair.1.ID := by
  unfold Diff.rows
  rw [List.map_map]
  rfl

theorem Diff.rows_stored {diff : Diff} {db : Database}
    (hexists : ∀ pair ∈ diff.pairs,
      ∃ row ∈ (db.tables .machine).rows, row.ID = pair.1.ID) :
    ∀ row ∈ diff.rows, row.ID ∈ (db.tables .machine).ids := by
  intro row hrow
  obtain ⟨pair, hpair, rfl⟩ := List.mem_map.mp hrow
  obtain ⟨stored, hmem, hid⟩ := hexists pair hpair
  have hids : stored.ID ∈ (db.tables .machine).ids := Table.mem_ids_of_mem hmem
  exact hid ▸ hids

/-! ## The controller does not panic -/

/-- Every pending row is still stored. -/
structure Intact (clusterID : ℕ) (s : State) : Prop where
  oneCluster : AtMostOneCluster s.db
  stored : ∀ diff, s.pending = some diff → ∀ pair ∈ diff.pairs,
    ∃ row ∈ (s.db.tables .machine).rows,
      row.ID = pair.1.ID ∧ row.clusterID = clusterID

/-- A policy update that runs between the two transactions of an iteration has
a demand for every row that the iteration has matched. -/
def Admits (clusterID : ℕ) : Option State → Event → Prop
  | some s, .policy outside _ dsl =>
      NamesCluster dsl → ∀ diff ∈ s.pending,
        ∀ row ∈ (s.db.tables .machine).rows,
          row.ID ∈ diff.pairs.map (fun pair => pair.1.ID) →
            InDemand machineScore (dslMachines outside dsl)
              ((s.db.tables .machine).rows.filter fun m => m.clusterID == clusterID)
              row
  | _, _ => True

instance (clusterID : ℕ) (state : Option State) (event : Event) :
    Decidable (Admits clusterID state event) :=
  match state, event with
  | some _, .policy .. => inferInstanceAs (Decidable (_ → _))
  | some _, .read .. => inferInstanceAs (Decidable True)
  | some _, .write => inferInstanceAs (Decidable True)
  | none, _ => inferInstanceAs (Decidable True)

theorem intact_policy {clusterID : ℕ} {s : State} {outside : Outside}
    {orders : Orders} {dsl : Lang.Dsl} (hintact : Intact clusterID s)
    (hadmits : Admits clusterID (some s) (.policy outside orders dsl)) :
    ∃ next, step clusterID (some s) (.policy outside orders dsl) = some next ∧
      Intact clusterID next := by
  obtain ⟨reply, after, htxn, hone⟩ :=
    updateTxn_total outside orders dsl hintact.oneCluster
  refine ⟨{ s with db := after }, by simp [step, htxn], hone, ?_⟩
  intro diff hpending pair hpair
  obtain ⟨row, hrow, hid, hcluster⟩ := hintact.stored diff hpending pair hpair
  have hmatched : row.ID ∈ diff.pairs.map (fun pair => pair.1.ID) :=
    hid ▸ List.mem_map_of_mem hpair
  obtain ⟨kept, hkept, hkeptID, hkeptCluster⟩ := updateTxn_keeps htxn hrow
    (fun hname => hcluster.symm ▸ hadmits hname diff hpending row hrow hmatched)
  exact ⟨kept, hkept, hkeptID.trans hid, hkeptCluster.trans hcluster⟩

theorem intact_read {clusterID : ℕ} {s : State} (hintact : Intact clusterID s)
    (cloudMachines : List CloudMachine) (order : IterOrder Machine) :
    ∃ next, step clusterID (some s) (.read cloudMachines order) = some next ∧
      Intact clusterID next := by
  obtain ⟨db, pending⟩ := s
  cases pending with
  | some diff => exact ⟨_, rfl, hintact⟩
  | none =>
      refine ⟨_, rfl, hintact.oneCluster, ?_⟩
      intro diff hpending pair hpair
      obtain rfl := Option.some.inj hpending
      obtain ⟨hrow, hcluster⟩ := mem_syncDB_pairs hpair
      exact ⟨pair.1, hrow, rfl, hcluster⟩

theorem intact_write {clusterID : ℕ} {s : State} (hintact : Intact clusterID s) :
    ∃ next, step clusterID (some s) .write = some next ∧ Intact clusterID next := by
  obtain ⟨db, pending⟩ := s
  cases pending with
  | none => exact ⟨_, rfl, hintact⟩
  | some diff =>
      have hexists : ∀ pair ∈ diff.pairs,
          ∃ row ∈ (db.tables .machine).rows, row.ID = pair.1.ID := by
        intro pair hpair
        obtain ⟨row, hrow, hid, _⟩ := hintact.stored diff rfl pair hpair
        exact ⟨row, hrow, hid⟩
      obtain ⟨after, hcommit⟩ :=
        exists_commitAll (t := .machine) (Diff.rows_stored hexists)
      refine ⟨⟨after, none⟩, by simp [step, hcommit], ?_, by simp⟩
      unfold AtMostOneCluster
      rw [(commitAll_frame hcommit).2.1 .cluster (by decide)]
      exact hintact.oneCluster

theorem intact_step {clusterID : ℕ} {s : State} (hintact : Intact clusterID s)
    (event : Event) (hadmits : Admits clusterID (some s) event) :
    ∃ next, step clusterID (some s) event = some next ∧ Intact clusterID next := by
  cases event with
  | policy outside orders dsl => exact intact_policy hintact hadmits
  | read cloudMachines order => exact intact_read hintact cloudMachines order
  | write => exact intact_write hintact

/-- If every policy update that runs between the two transactions of a sync
iteration keeps a demand for the matched rows, then no commit of the run meets
a row that is gone: the controller never panics. -/
theorem sync_never_panics (clusterID : ℕ) (db : Database) (events : List Event)
    (hone : AtMostOneCluster db)
    (hguard : GuardedRun.Guarded (step clusterID) (Admits clusterID)
      (some ⟨db, none⟩) events) :
    ∀ state ∈ GuardedRun.states (step clusterID) (some ⟨db, none⟩) events,
      state ≠ none := by
  have hstart : ∃ s, some (State.mk db none) = some s ∧ Intact clusterID s :=
    ⟨_, rfl, hone, by simp⟩
  have hintact : ∀ state ∈ GuardedRun.states (step clusterID) (some ⟨db, none⟩) events,
      ∃ s, state = some s ∧ Intact clusterID s := by
    refine GuardedRun.invariant_of_guarded ?_ hstart hguard
    rintro state event ⟨s, rfl, hs⟩ hadmits
    exact intact_step hs event hadmits
  intro state hstate
  obtain ⟨s, rfl, _⟩ := hintact state hstate
  exact Option.some_ne_none s

/-- A master with the given keys, and a worker. -/
def duo (masterKeys : List String) : Lang.Dsl where
  code :=
    "(define Namespace \"prod\")\n" ++
    "(machine (provider \"AmazonSpot\") (role \"Master\") (size \"m4.large\")" ++
    String.join (masterKeys.map fun key => " (plaintextKey \"" ++ key ++ "\")") ++
    ")\n" ++
    "(machine (provider \"AmazonSpot\") (role \"Worker\") (size \"m4.large\"))"
  binds := [("Namespace", .str "prod")]
  store :=
    { Lang.Store.empty with
      machines := [
        { provider := "AmazonSpot", role := "Master", size := "m4.large",
          sshKeys := masterKeys.map .plaintext },
        { provider := "AmazonSpot", role := "Worker", size := "m4.large" }] }

/-- The cluster of `duo` without its machines. -/
def bare : Lang.Dsl where
  code := "(define Namespace \"prod\")"
  binds := [("Namespace", .str "prod")]
  store := .empty

/-- A machine that the cloud reports and that fits every row of `duo`. -/
def runningMachine : CloudMachine where
  ID := "i-1"
  publicIP := "54.0.0.1"
  privateIP := "172.16.0.1"
  size := "m4.large"
  provider := .amazonSpot

/-- The state in which a sync iteration has read the rows of `duo` and a policy
update has run since. -/
def overtaken (dsl : Lang.Dsl) : List Event :=
  [.policy .quiet .asStored (duo []), .read [runningMachine] (.asStored _),
    .policy .quiet .asStored dsl]

/-- A policy that adds a key keeps its demand for the machines. -/
theorem sync_never_panics_addedKey :
    GuardedRun.Guarded (step 1) (Admits 1) (some ⟨Database.new, none⟩)
        (overtaken (duo ["carol"]) ++ [.write]) ∧
      GuardedRun.final (step 1) (some ⟨Database.new, none⟩)
        (overtaken (duo ["carol"]) ++ [.write]) ≠ none := by
  have hguard : GuardedRun.Guarded (step 1) (Admits 1) (some ⟨Database.new, none⟩)
      (overtaken (duo ["carol"]) ++ [.write]) := by
    decide +kernel
  exact ⟨hguard, sync_never_panics 1 Database.new _ (by decide) hguard _
    (GuardedRun.final_mem_states _ _ _)⟩

/-- The policy drops the machines after the rows were read and matched. -/
theorem droppedMachines_panic :
    GuardedRun.final (step 1) (some ⟨Database.new, none⟩)
      (overtaken bare ++ [.write]) = none := by
  rw [← Option.isNone_iff_eq_none]
  decide +kernel

/-! ## What the write does to the policy's fields -/

/-- The fields of a machine row that only the policy engine may change. -/
def ownedFields (m : Machine) : ℕ × Role × String × List String :=
  (m.clusterID, m.role, m.region, m.sshKeys)

/-- A pending row and its stored version agree on the cluster and the region. -/
structure Tracked (s : State) : Prop where
  distinct : ∀ diff, s.pending = some diff →
    (diff.pairs.map fun pair => pair.1.ID).Nodup
  known : ∀ diff, s.pending = some diff → ∀ pair ∈ diff.pairs,
    pair.1.ID ≤ s.db.idAlloc
  agrees : ∀ diff, s.pending = some diff → ∀ pair ∈ diff.pairs,
    ∀ row ∈ (s.db.tables .machine).rows, row.ID = pair.1.ID →
      row.clusterID = pair.1.clusterID ∧ row.region = pair.1.region

theorem tracked_of_idle {s : State} (hidle : s.pending = none) : Tracked s := by
  constructor <;> simp [hidle]

theorem tracked_step {clusterID : ℕ} {s next : State} {event : Event}
    (htracked : Tracked s) (hstep : step clusterID (some s) event = some next) :
    Tracked next := by
  rcases step_cases hstep with
    ⟨outside, orders, dsl, reply, _, htxn, hpending⟩ |
      ⟨cloudMachines, order, _, hdb, hpending⟩ | ⟨_, _, hidle, _⟩ | rfl
  · refine ⟨?_, ?_, ?_⟩
    · intro diff hdiff
      exact htracked.distinct diff (hpending ▸ hdiff)
    · intro diff hdiff pair hpair
      exact (htracked.known diff (hpending ▸ hdiff) pair hpair).trans
        (updateTxn_idAlloc_le htxn)
    · -- An identifier is never used again, so the row comes from the one read.
      intro diff hdiff pair hpair row hrow hid
      rw [hpending] at hdiff
      rcases updateTxn_origin htxn hrow with ⟨old, hold, holdID, hcluster, hregion⟩ | hnew
      · have hagrees := htracked.agrees diff hdiff pair hpair old hold
          (holdID.symm.trans hid)
        exact ⟨hcluster.trans hagrees.1, hregion.trans hagrees.2⟩
      · have hknown := htracked.known diff hdiff pair hpair
        omega
  · rw [hdb.symm] at hpending
    refine ⟨?_, ?_, ?_⟩
    · intro diff hdiff
      rw [hpending, Option.some.injEq] at hdiff
      exact hdiff ▸ syncDB_pairs_distinct _ _ _ _
    · intro diff hdiff pair hpair
      rw [hpending, Option.some.injEq] at hdiff
      subst hdiff
      exact next.db.allocated .machine pair.1 (mem_syncDB_pairs hpair).1
    · intro diff hdiff pair hpair row hrow hid
      rw [hpending, Option.some.injEq] at hdiff
      subst hdiff
      have hsame : row = pair.1 :=
        Table.eq_of_id_eq hrow (mem_syncDB_pairs hpair).1 hid
      exact ⟨congrArg Machine.clusterID hsame, congrArg Machine.region hsame⟩
  · exact tracked_of_idle hidle
  · exact htracked

theorem tracked_of_reached {clusterID : ℕ} {start : Database}
    {events : List Event} {s : State}
    (hreached : some s ∈
      GuardedRun.states (step clusterID) (some ⟨start, none⟩) events) :
    Tracked s := by
  have hall : ∀ state ∈
      GuardedRun.states (step clusterID) (some ⟨start, none⟩) events,
        ∀ s, state = some s → Tracked s := by
    apply GuardedRun.invariant_of_step
    · intro state event htracked next hnext
      cases state with
      | none => exact absurd hnext (by simp [step])
      | some current => exact tracked_step (htracked current rfl) hnext
    · rintro s hs
      obtain rfl := Option.some.inj hs
      exact tracked_of_idle rfl
  exact hall _ hreached s rfl

/-- The stored rows after the write: the matched ones as read with the cloud
side's fields filled in, the others untouched. -/
theorem mem_write {diff : Diff} {db after : Database}
    (hdistinct : (diff.pairs.map fun pair => pair.1.ID).Nodup)
    (hcommit : commitAll (t := .machine) diff.rows db = some after)
    (row : Machine) :
    row ∈ (after.tables .machine).rows ↔
      (∃ pair ∈ diff.pairs, row = cloudWritten pair.1 pair.2) ∨
        (row ∈ (db.tables .machine).rows ∧
          row.ID ∉ diff.pairs.map fun pair => pair.1.ID) := by
  rw [mem_commitAll (diff.rows_ids ▸ hdistinct) hcommit, diff.rows_ids, Diff.rows,
    List.mem_map]
  simp only [eq_comm (a := row)]
  rfl

/-- In every run, a write that finds all its rows keeps the policy's fields of
every machine row exactly if each matched row still has the role and the keys
that it had when the iteration read it. -/
theorem sync_keeps_policy_iff (clusterID : ℕ) (start : Database)
    (events : List Event) (s : State) (diff : Diff)
    (hreached : some s ∈
      GuardedRun.states (step clusterID) (some ⟨start, none⟩) events)
    (hpending : s.pending = some diff)
    (hexists : ∀ pair ∈ diff.pairs,
      ∃ row ∈ (s.db.tables .machine).rows, row.ID = pair.1.ID) :
    ∃ after, step clusterID (some s) .write = some ⟨after, none⟩ ∧
      (after.tables .machine).ids = (s.db.tables .machine).ids ∧
      ((∀ old ∈ (s.db.tables .machine).rows,
          ∃ new ∈ (after.tables .machine).rows,
            new.ID = old.ID ∧ ownedFields new = ownedFields old) ↔
        ∀ pair ∈ diff.pairs, ∀ row ∈ (s.db.tables .machine).rows,
          row.ID = pair.1.ID →
            row.role = pair.1.role ∧ row.sshKeys = pair.1.sshKeys) := by
  have htracked := tracked_of_reached hreached
  have hdistinct := htracked.distinct diff hpending
  obtain ⟨after, hcommit⟩ :=
    exists_commitAll (t := .machine) (Diff.rows_stored hexists)
  have hstep : step clusterID (some s) .write = some ⟨after, none⟩ := by
    obtain ⟨db, pending⟩ := s
    obtain rfl : pending = some diff := hpending
    simp [step, hcommit]
  refine ⟨after, hstep, (commitAll_frame hcommit).1, ?_⟩
  constructor
  · intro hkeeps pair hpair row hrow hid
    obtain ⟨new, hnew, hnewID, howned⟩ := hkeeps row hrow
    rcases (mem_write hdistinct hcommit new).mp hnew with
      ⟨writer, hwriter, rfl⟩ | ⟨_, hunmatched⟩
    · have hsame : writer = pair :=
        List.inj_on_of_nodup_map hdistinct hwriter hpair (hnewID.trans hid)
      subst hsame
      simp only [ownedFields, cloudWritten, Prod.mk.injEq] at howned
      exact ⟨howned.2.1.symm, howned.2.2.2.symm⟩
    · refine absurd ?_ hunmatched
      rw [hnewID, hid]
      exact List.mem_map.mpr ⟨pair, hpair, rfl⟩
  · intro hunchanged old hold
    by_cases hmatched : old.ID ∈ diff.pairs.map fun pair => pair.1.ID
    · obtain ⟨pair, hpair, hid⟩ := List.mem_map.mp hmatched
      refine ⟨cloudWritten pair.1 pair.2,
        (mem_write hdistinct hcommit _).mpr (.inl ⟨pair, hpair, rfl⟩), hid, ?_⟩
      obtain ⟨hcluster, hregion⟩ :=
        htracked.agrees diff hpending pair hpair old hold hid.symm
      obtain ⟨hrole, hkeys⟩ := hunchanged pair hpair old hold hid.symm
      simp [ownedFields, cloudWritten, hcluster, hregion, hrole, hkeys]
    · exact ⟨old, (mem_write hdistinct hcommit old).mpr (.inr ⟨hold, hmatched⟩),
        rfl, rfl⟩

theorem sync_keeps_policy_unchanged :
    ∃ s diff, some s ∈ GuardedRun.states (step 1) (some ⟨Database.new, none⟩)
        (overtaken (duo [])) ∧
      s.pending = some diff ∧ diff.pairs ≠ [] ∧
      ∃ after, step 1 (some s) .write = some ⟨after, none⟩ := by
  have hvisited := GuardedRun.final_mem_states (step 1)
    (some ⟨Database.new, none⟩) (overtaken (duo []))
  have hstate : ∀ s ∈ GuardedRun.final (step 1) (some ⟨Database.new, none⟩)
      (overtaken (duo [])), s.pending.isSome ∧ ∀ diff ∈ s.pending,
        diff.pairs ≠ [] ∧ ∀ pair ∈ diff.pairs,
          ∃ row ∈ (s.db.tables .machine).rows, row.ID = pair.1.ID := by
    decide +kernel
  obtain ⟨s, hs⟩ : ∃ s, GuardedRun.final (step 1) (some ⟨Database.new, none⟩)
      (overtaken (duo [])) = some s := Option.isSome_iff_exists.mp (by decide +kernel)
  obtain ⟨hsome, hdiff⟩ := hstate s hs
  obtain ⟨diff, hpending⟩ := Option.isSome_iff_exists.mp hsome
  obtain ⟨hpairs, hexists⟩ := hdiff diff hpending
  rw [hs] at hvisited
  obtain ⟨after, hstep, _⟩ :=
    sync_keeps_policy_iff 1 _ _ s diff hvisited hpending hexists
  exact ⟨s, diff, hvisited, hpending, hpairs, after, hstep⟩

/-- The machine rows with the keys they carry, unless the controller crashed. -/
def keysIn (state : Option State) : Option (List (ℕ × List String)) :=
  state.map fun s => (s.db.tables .machine).rows.map fun m => (m.ID, m.sshKeys)

/-- The key that the policy adds after the rows were read is lost again. -/
theorem addedKey_lost :
    keysIn (GuardedRun.final (step 1) (some ⟨Database.new, none⟩)
      (overtaken (duo ["carol"]))) = some [(2, ["carol"]), (3, [])] ∧
    keysIn (GuardedRun.final (step 1) (some ⟨Database.new, none⟩)
      (overtaken (duo ["carol"]) ++ [.write])) = some [(2, []), (3, [])] := by
  decide +kernel

end ClusterSync
end Di
