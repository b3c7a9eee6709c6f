import Di.Engine
import Di.GuardedRun

/-!
# The database reflects the policy

The controller calls `UpdatePolicy` again and again, with specifications that
change, on a database that the cloud side also writes to.  Along every such
run there is at most one cluster row, no call panics, a call that fails leaves
the database alone, and a call that succeeds leaves the machine rows of the
cluster, its access list and its specification as the policy says.
-/

namespace Di
namespace Engine

open Db Join Reconcile

/-- `Namespace` is bound to a string that is not empty. -/
def NamesCluster (dsl : Lang.Dsl) : Prop :=
  ∃ name, name ≠ "" ∧ dsl.binds.lookup "Namespace" = some (.str name)

theorem namesCluster_iff (dsl : Lang.Dsl) :
    NamesCluster dsl ↔ dsl.queryString "Namespace" ≠ "" := by
  unfold NamesCluster Lang.Dsl.queryString
  constructor
  · rintro ⟨name, hname, hlookup⟩
    simpa [hlookup] using hname
  · intro hquery
    split at hquery
    next name hlookup => exact ⟨name, hquery, hlookup⟩
    next => exact absurd rfl hquery

instance (dsl : Lang.Dsl) : Decidable (NamesCluster dsl) :=
  decidable_of_iff _ (namesCluster_iff dsl).symm

/-- What a successful `updateTxn` leaves behind. -/
structure Reflects (outside : Outside) (dsl : Lang.Dsl) (before after : Database)
    (cluster : Cluster) : Prop where
  clusterRow : (after.tables .cluster).rows = [cluster]
  namespaceName : cluster.namespaceName = dsl.queryString "Namespace"
  spec : cluster.spec = dsl.code
  /-- The cluster's rows show the machines of the policy, each once. -/
  machines : (((after.tables .machine).rows.filter
      fun m => m.clusterID == cluster.ID).map policyFields).Perm
    ((dslMachines outside dsl).map policyFields)
  /-- Rows of other clusters are untouched. -/
  others : ∀ row : Machine, row.clusterID ≠ cluster.ID →
    (row ∈ (after.tables .machine).rows ↔ row ∈ (before.tables .machine).rows)
  /-- A row that is retained keeps what the cloud provider wrote. -/
  retained : ∀ old ∈ (before.tables .machine).rows,
    ∀ new ∈ (after.tables .machine).rows, new.ID = old.ID →
      new.cloudID = old.cloudID ∧ new.publicIP = old.publicIP ∧
        new.privateIP = old.privateIP
  acls : cluster.acls = accessList outside dsl
    ((after.tables .machine).rows.filter fun m =>
      m.clusterID == cluster.ID && m.publicIP != "")

theorem updateTxn_error {outside : Outside} {orders : Orders} {dsl : Lang.Dsl}
    {db : Database} (hname : ¬ NamesCluster dsl) :
    updateTxn outside orders dsl db = some (.error noNamespace, db) := by
  rw [namesCluster_iff, not_not] at hname
  simp [updateTxn, clusterTxn_error hname]

/-- With a namespace and at most one cluster, the three parts of the
transaction all succeed. -/
theorem updateTxn_parts (outside : Outside) (orders : Orders) {dsl : Lang.Dsl}
    {db : Database} (hone : AtMostOneCluster db) (hname : NamesCluster dsl) :
    ∃ cluster named booted after,
      updateTxn outside orders dsl db = some (.ok (), after) ∧
      machineTxn outside orders dsl cluster.ID named = some booted ∧
      named.tables .machine = db.tables .machine ∧
      after.tables .machine = booted.tables .machine ∧
      db.idAlloc ≤ named.idAlloc ∧ named.idAlloc ≤ after.idAlloc ∧
      (after.tables .cluster).rows = [cluster] ∧
      cluster.namespaceName = dsl.queryString "Namespace" ∧
      cluster.spec = dsl.code ∧
      cluster.acls = accessList outside dsl
        (booted.select .machine orders.aclMachine fun m =>
          m.clusterID == cluster.ID && m.publicIP != "") := by
  obtain ⟨cluster, named, hcluster, hrow, hnamespace, hspec, _, hsameNamed,
    hallocNamed⟩ := clusterTxn_ok orders hone ((namesCluster_iff dsl).mp hname)
  obtain ⟨booted, hmachines, _, hsameBooted, hallocBooted⟩ :=
    machineTxn_spec outside orders dsl cluster.ID named
  have hrowBooted : (booted.tables .cluster).rows = [cluster] := by
    rw [hsameBooted .cluster (by decide), hrow]
  obtain ⟨after, hacl, hafter, hsameAfter, hallocAfter⟩ :=
    aclTxn_ok outside orders dsl hrowBooted
  let stored : Cluster :=
    { cluster with
      acls := accessList outside dsl
        (booted.select .machine orders.aclMachine fun m =>
          m.clusterID == cluster.ID && m.publicIP != "") }
  refine ⟨stored, named, booted, after, ?_, hmachines,
    hsameNamed .machine (by decide), hsameAfter .machine (by decide),
    hallocNamed, hallocAfter ▸ hallocBooted, hafter, hnamespace, hspec, rfl⟩
  simp only [updateTxn, hcluster, Option.bind_some, hmachines, hacl]

theorem updateTxn_ok (outside : Outside) (orders : Orders) {dsl : Lang.Dsl}
    {db : Database} (hone : AtMostOneCluster db) (hname : NamesCluster dsl) :
    ∃ cluster after, updateTxn outside orders dsl db = some (.ok (), after) ∧
      Reflects outside dsl db after cluster := by
  obtain ⟨cluster, named, booted, after, htxn, hmachines, hnamed, hafter, _, _,
    hrow, hnamespace, hspec, hacls⟩ :=
    updateTxn_parts outside orders hone hname
  refine ⟨cluster, after, htxn, ⟨hrow, hnamespace, hspec, ?_, ?_, ?_, ?_⟩⟩
  · rw [hafter]
    exact machineTxn_policyFields hmachines
  · intro row hother
    rw [hafter, machineTxn_others hmachines hother, hnamed]
  · intro old hold new hnew hid
    rw [hafter] at hnew
    rw [← hnamed] at hold
    rcases machineTxn_retained hmachines hold hnew hid with rfl | ⟨_, _, _, rfl⟩
    · exact ⟨rfl, rfl, rfl⟩
    · exact ⟨rfl, rfl, rfl⟩
  · rw [hacls, hafter]
    apply accessList_eq_of_perm
    exact (booted.tables .machine).select_perm orders.aclMachine _

/-- With at most one cluster an update does not panic and leaves at most one. -/
theorem updateTxn_total (outside : Outside) (orders : Orders) (dsl : Lang.Dsl)
    {db : Database} (hone : AtMostOneCluster db) :
    ∃ reply after, updateTxn outside orders dsl db = some (reply, after) ∧
      AtMostOneCluster after := by
  by_cases hname : NamesCluster dsl
  · obtain ⟨cluster, after, htxn, hreflects⟩ := updateTxn_ok outside orders hone hname
    exact ⟨.ok (), after, htxn, by simp [AtMostOneCluster, hreflects.clusterRow]⟩
  · exact ⟨_, db, updateTxn_error hname, hone⟩

/-- With two cluster rows the transaction panics. -/
theorem atMostOneCluster_of_updateTxn {outside : Outside} {orders : Orders}
    {dsl : Lang.Dsl} {db after : Database} {reply : Reply}
    (hname : NamesCluster dsl)
    (htxn : updateTxn outside orders dsl db = some (reply, after)) :
    AtMostOneCluster db := by
  have hlength : (db.select .cluster orders.cluster (fun _ => true)).length =
      (db.tables .cluster).rows.length := by
    have hperm := (db.tables .cluster).select_perm orders.cluster (fun _ => true)
    rw [List.filter_true] at hperm
    exact hperm.length_eq
  unfold AtMostOneCluster
  rw [← hlength]
  unfold updateTxn clusterTxn at htxn
  rw [if_neg ((namesCluster_iff dsl).mp hname)] at htxn
  match hselect : db.select .cluster orders.cluster (fun _ => true) with
  | [] => simp
  | [_] => simp
  | _ :: _ :: _ => simp [hselect] at htxn

/-! ## The machine rows of one update -/

section Rows

variable {outside : Outside} {orders : Orders} {dsl : Lang.Dsl}
  {db after : Database} {reply : Reply}

/-- An update that does not panic either changes nothing or runs `machineTxn`
on the machine table as it finds it. -/
theorem updateTxn_machine
    (htxn : updateTxn outside orders dsl db = some (reply, after)) :
    after = db ∨ (NamesCluster dsl ∧ ∃ clusterID named booted,
      machineTxn outside orders dsl clusterID named = some booted ∧
      named.tables .machine = db.tables .machine ∧
      after.tables .machine = booted.tables .machine ∧
      db.idAlloc ≤ named.idAlloc ∧ named.idAlloc ≤ after.idAlloc) := by
  by_cases hname : NamesCluster dsl
  · obtain ⟨cluster, named, booted, found, hfound, hmachines, hnamed, hafter,
      hallocNamed, hallocAfter, _⟩ := updateTxn_parts outside orders
        (atMostOneCluster_of_updateTxn hname htxn) hname
    rw [htxn, Option.some.injEq, Prod.mk.injEq] at hfound
    obtain ⟨_, rfl⟩ := hfound
    exact .inr ⟨hname, cluster.ID, named, booted, hmachines, hnamed, hafter,
      hallocNamed, hallocAfter⟩
  · rw [updateTxn_error hname] at htxn
    exact .inl (Prod.mk.inj (Option.some.inj htxn)).2.symm

theorem updateTxn_idAlloc_le
    (htxn : updateTxn outside orders dsl db = some (reply, after)) :
    db.idAlloc ≤ after.idAlloc := by
  rcases updateTxn_machine htxn with rfl | ⟨_, _, _, _, _, _, _, hnamed, hafter⟩
  · exact le_rfl
  · exact hnamed.trans hafter

/-- A row after an update is new, or comes from a row of the same cluster and
region. -/
theorem updateTxn_origin {new : Machine}
    (htxn : updateTxn outside orders dsl db = some (reply, after))
    (hnew : new ∈ (after.tables .machine).rows) :
    (∃ old ∈ (db.tables .machine).rows, new.ID = old.ID ∧
      new.clusterID = old.clusterID ∧ new.region = old.region) ∨
      db.idAlloc < new.ID := by
  rcases updateTxn_machine htxn with
    rfl | ⟨_, clusterID, named, booted, hmachines, hnamed, hafter, halloc, _⟩
  · exact .inl ⟨new, hnew, rfl, rfl, rfl⟩
  · rw [hafter] at hnew
    rcases machineTxn_origin hmachines hnew with ⟨old, hold, horigin⟩ | hfresh
    · refine .inl ⟨old, hnamed ▸ hold, ?_⟩
      rcases horigin with rfl | ⟨hcluster, target, hscore, rfl⟩
      · exact ⟨rfl, rfl, rfl⟩
      · exact ⟨rfl, hcluster.symm, (region_of_machineScore hscore).symm⟩
    · exact .inr (halloc.trans_lt hfresh)

/-- An update keeps a row that its policy has a demand for. -/
theorem updateTxn_keeps {row : Machine}
    (htxn : updateTxn outside orders dsl db = some (reply, after))
    (hrow : row ∈ (db.tables .machine).rows)
    (hdemand : NamesCluster dsl → InDemand machineScore (dslMachines outside dsl)
      ((db.tables .machine).rows.filter fun m => m.clusterID == row.clusterID) row) :
    ∃ kept ∈ (after.tables .machine).rows,
      kept.ID = row.ID ∧ kept.clusterID = row.clusterID := by
  rcases updateTxn_machine htxn with
    rfl | ⟨hname, clusterID, named, booted, hmachines, hnamed, hafter, _⟩
  · exact ⟨row, hrow, rfl, rfl⟩
  · rw [hafter]
    rw [← hnamed] at hrow hdemand
    refine machineTxn_kept hmachines hrow ?_
    rintro rfl
    apply not_lonely_of_inDemand
    exact (hdemand hname).of_perm
      ((named.tables .machine).select_perm orders.machine _).symm

end Rows

/-! ## Runs -/

inductive Event
  /-- A call of `updateTxn`. -/
  | update (outside : Outside) (orders : Orders) (dsl : Lang.Dsl)
  /-- The cloud side writes its three fields of a machine row. -/
  | cloudWrite (id : ℕ) (cloudID publicIP privateIP : String)

/-- The cloud side's write; nothing happens if the row is gone. -/
def cloudWrite (db : Database) (id : ℕ) (cloudID publicIP privateIP : String) :
    Database :=
  match (db.tables .machine).find id with
  | none => db
  | some row =>
      (db.commit .machine { (row : Machine) with
        cloudID := cloudID
        publicIP := publicIP
        privateIP := privateIP }).getD db

/-- The database after an event; `none` once a transaction has panicked. -/
def step : Option Database → Event → Option Database
  | none, _ => none
  | some db, .update outside orders dsl =>
      (updateTxn outside orders dsl db).map Prod.snd
  | some db, .cloudWrite id cloudID publicIP privateIP =>
      some (cloudWrite db id cloudID publicIP privateIP)

theorem cloudWrite_cluster (db : Database) (id : ℕ)
    (cloudID publicIP privateIP : String) :
    (cloudWrite db id cloudID publicIP privateIP).tables .cluster =
      db.tables .cluster := by
  unfold cloudWrite
  split
  next => rfl
  next row _ =>
    cases hcommit : db.commit .machine { (row : Machine) with
        cloudID := cloudID, publicIP := publicIP, privateIP := privateIP } with
    | none => rfl
    | some next =>
        exact (Database.commit_eq_some hcommit).2.2 .cluster (by decide)

/-- The controller is alive and has at most one cluster. -/
def Alive (state : Option Database) : Prop :=
  ∃ db, state = some db ∧ AtMostOneCluster db

theorem alive_step {state : Option Database} (halive : Alive state)
    (event : Event) : Alive (step state event) := by
  obtain ⟨db, rfl, hone⟩ := halive
  cases event with
  | cloudWrite id cloudID publicIP privateIP =>
      refine ⟨_, rfl, ?_⟩
      rw [AtMostOneCluster, cloudWrite_cluster]
      exact hone
  | update outside orders dsl =>
      obtain ⟨reply, after, htxn, hafter⟩ := updateTxn_total outside orders dsl hone
      exact ⟨after, by simp [step, htxn], hafter⟩

/-- Along every run of policy updates and cloud writes from a new database the
controller never panics and has at most one cluster row.  Every update fails
without effect if the namespace is missing, and otherwise leaves the database
as the policy says. -/
theorem updatePolicy_reflects (events : List Event) :
    ∀ state ∈ GuardedRun.states step (some Database.new) events,
      ∃ db, state = some db ∧ AtMostOneCluster db ∧
        ∀ outside orders dsl,
          (¬ NamesCluster dsl ∧
              updateTxn outside orders dsl db = some (.error noNamespace, db)) ∨
            (NamesCluster dsl ∧ ∃ cluster after,
              updateTxn outside orders dsl db = some (.ok (), after) ∧
                Reflects outside dsl db after cluster) := by
  have hstart : Alive (some Database.new) :=
    ⟨_, rfl, by simp [AtMostOneCluster, Database.new, Table.empty]⟩
  have halive : ∀ state ∈ GuardedRun.states step (some Database.new) events,
      Alive state :=
    GuardedRun.invariant_of_step (fun _ event h => alive_step h event) events hstart
  intro state hstate
  obtain ⟨db, rfl, hone⟩ := halive state hstate
  refine ⟨db, rfl, hone, ?_⟩
  intro outside orders dsl
  by_cases hname : NamesCluster dsl
  · obtain ⟨cluster, after, htxn, hreflects⟩ := updateTxn_ok outside orders hone hname
    exact .inr ⟨hname, cluster, after, htxn, hreflects⟩
  · exact .inl ⟨hname, updateTxn_error hname⟩

/-- A world without GitHub users, prices or a known own address. -/
def Outside.quiet : Outside := ⟨fun _ => none, none, [], []⟩

/-- Two workers that differ in their keys only. -/
def twoKeys : Lang.Dsl where
  code :=
    "(define Namespace \"prod\")\n" ++
    "(machine (provider \"AmazonSpot\") (role \"Master\") (size \"m4.large\"))\n" ++
    "(machine (provider \"AmazonSpot\") (role \"Worker\") (size \"m4.large\")" ++
    " (plaintextKey \"alice\"))\n" ++
    "(machine (provider \"AmazonSpot\") (role \"Worker\") (size \"m4.large\")" ++
    " (plaintextKey \"bob\"))"
  binds := [("Namespace", .str "prod")]
  store :=
    { Lang.Store.empty with
      machines := [
        { provider := "AmazonSpot", role := "Master", size := "m4.large" },
        { provider := "AmazonSpot", role := "Worker", size := "m4.large",
          sshKeys := [.plaintext "alice"] },
        { provider := "AmazonSpot", role := "Worker", size := "m4.large",
          sshKeys := [.plaintext "bob"] }] }

/-- After a first update with `twoKeys`, a second one succeeds again. -/
theorem updatePolicy_reflects_twoKeys :
    ∃ db, step (some Database.new) (.update .quiet .asStored twoKeys) = some db ∧
      AtMostOneCluster db ∧ ∃ cluster after,
        updateTxn .quiet .asStored twoKeys db = some (.ok (), after) ∧
          Reflects .quiet twoKeys db after cluster := by
  have hvisited := GuardedRun.final_mem_states step (some Database.new)
    [.update .quiet .asStored twoKeys]
  obtain ⟨db, hdb, hone, hupdate⟩ := updatePolicy_reflects _ _ hvisited
  rcases hupdate .quiet .asStored twoKeys with ⟨hmissing, _⟩ | ⟨_, hreflects⟩
  · exact absurd ⟨"prod", by decide, rfl⟩ hmissing
  · exact ⟨db, hdb, hone, hreflects⟩

end Engine
end Di
