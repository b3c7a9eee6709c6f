import Di.Reconcile
import Di.DslQuery
import Di.GoStrings

/-!
# The policy engine of the controller

`UpdatePolicy` runs one transaction that makes the database reflect a
specification: `clusterTxn` finds or creates the cluster row, `machineTxn`
reconciles the cluster's machine rows with the machines of the specification,
and `aclTxn` recomputes the access list from the machines that remain.

A transaction maps a database to a reply and the database it leaves behind;
`none` is a panic.  What the engine learns from outside the repository (GitHub
keys, the controller's address, the providers' price lists) is a parameter.
-/

namespace Di
namespace Engine

open Db Join Reconcile

/-! ## Sizes -/

/-- A machine size a provider offers. -/
structure Description where
  size : String := ""
  price : GoFloat := .zero
  ram : GoFloat := .zero
  cpu : ℤ := 0

/-- The first cheapest description in both ranges, if it is affordable. -/
def pickBestSize (descriptions : List Description) (ram cpu : Lang.Range)
    (maxPrice : GoFloat) : String :=
  let best := descriptions.foldl (fun best d =>
    if ram.accepts d.ram && cpu.accepts (GoFloat.ofInt d.cpu) &&
        (best.size == "" || d.price.lt best.price) then d else best) {}
  if maxPrice == .zero || best.price.le maxPrice then best.size else ""

/-- What the engine asks from outside the repository. -/
structure Outside where
  githubKeys : Lang.GithubKeys
  myIP : Option String
  awsDescriptions : List Description
  googleDescriptions : List Description

/-- `provider.New(p).PickBestSize`. -/
def Outside.pickBestSize (outside : Outside) (p : Provider)
    (ram cpu : Lang.Range) (maxPrice : GoFloat) : String :=
  match p with
  | .amazonSpot => Engine.pickBestSize outside.awsDescriptions ram cpu maxPrice
  | .google => Engine.pickBestSize outside.googleDescriptions ram cpu maxPrice
  | .vagrant => String.ofList (ram.min.formatG ++ ',' :: cpu.min.formatG)
  | .azure => ""
  | .unset => ""

/-! ## The machines a specification asks for -/

/-- One iteration of `toDBMachine`; `none` skips the machine. -/
def toDBMachine1 (outside : Outside) (maxPrice : GoFloat)
    (dslm : Lang.Machine) : Option Machine := do
  let role ← parseRole dslm.role
  let provider ← parseProvider dslm.provider
  let size := if dslm.size ≠ "" then dslm.size
    else outside.pickBestSize provider dslm.ram dslm.cpu maxPrice
  if size = "" then none
  else some {
    ID := 0
    role := role
    provider := provider
    size := size
    sshKeys := dslm.sshKeys
    region := dslm.region
    diskSize := dslm.diskSize }

def toDBMachine (outside : Outside) (machines : List Lang.Machine)
    (maxPrice : GoFloat) : List Machine :=
  machines.filterMap (toDBMachine1 outside maxPrice)

/-- There is at least one master and one worker. -/
def canBoot (machines : List Machine) : Bool :=
  machines.any (·.role == .master) && machines.any (·.role == .worker)

/-- The machines `machineTxn` joins with the table. -/
def dslMachines (outside : Outside) (dsl : Lang.Dsl) : List Machine :=
  let machines := toDBMachine outside (dsl.queryMachines outside.githubKeys)
    (dsl.queryFloat "MaxPrice")
  if canBoot machines then machines else []

/-- `scoreFun` of `machineTxn`. -/
def machineScore (dslMachine dbMachine : Machine) : ℤ :=
  if dbMachine.provider ≠ dslMachine.provider then -1
  else if dbMachine.region ≠ dslMachine.region then -1
  else if dbMachine.size ≠ "" ∧ dslMachine.size ≠ dbMachine.size then -1
  else if dbMachine.role ≠ .none ∧ dbMachine.role ≠ dslMachine.role then -1
  else if dbMachine.diskSize ≠ dslMachine.diskSize then -1
  else if dbMachine.privateIP = "" then 2
  else if dbMachine.publicIP = "" then 1
  else 0

def machineRule (clusterID : ℕ) : Rule Machine .machine where
  score := machineScore
  rewrite := fun dslMachine dbMachine =>
    { dbMachine with
      role := dslMachine.role
      size := dslMachine.size
      diskSize := dslMachine.diskSize
      provider := dslMachine.provider
      region := dslMachine.region
      sshKeys := dslMachine.sshKeys
      clusterID := clusterID }
  rewrite_id := fun _ _ => rfl

/-! ## The transaction -/

/-- The orders in which the four selects of one transaction visit the rows. -/
structure Orders where
  cluster : IterOrder Cluster
  machine : IterOrder Machine
  aclCluster : IterOrder Cluster
  aclMachine : IterOrder Machine

/-- Every select visits the rows in their stored order. -/
def Orders.asStored : Orders := ⟨.asStored _, .asStored _, .asStored _, .asStored _⟩

abbrev Reply := Except String Unit

def noNamespace : String := "policy must specify a 'Namespace'"

def clusterTxn (orders : Orders) (dsl : Lang.Dsl) (db : Database) :
    Option (Except String ℕ × Database) :=
  let namespaceName := dsl.queryString "Namespace"
  if namespaceName = "" then some (.error noNamespace, db)
  else
    let found : Option (Cluster × Database) :=
      match db.select .cluster orders.cluster (fun _ => true) with
      | [cluster] => some (cluster, db)
      | [] => some (db.insertRow .cluster)
      | _ => none
    found.bind fun (cluster, db) =>
      let cluster :=
        { cluster with namespaceName := namespaceName, spec := dsl.code }
      (db.commit .cluster cluster).map fun db => (.ok cluster.ID, db)

def machineTxn (outside : Outside) (orders : Orders) (dsl : Lang.Dsl)
    (clusterID : ℕ) (db : Database) : Option Database :=
  reconcile (machineRule clusterID) (dslMachines outside dsl)
    (db.select .machine orders.machine fun m => m.clusterID == clusterID) db

/-- `resolveACLs`: `local` is the controller's own address, or nothing if that
is not known. -/
def resolveACLs (outside : Outside) (acls : List String) : List String :=
  acls.filterMap fun acl =>
    if acl = "local" then outside.myIP.map (· ++ "/32") else some acl

/-- The access list of a cluster with the given machines. -/
def accessList (outside : Outside) (dsl : Lang.Dsl) (machines : List Machine) :
    List String :=
  sortStrings (resolveACLs outside (dsl.queryStrSlice "AdminACL") ++
    machines.map fun m => m.publicIP ++ "/32")

def aclTxn (outside : Outside) (orders : Orders) (dsl : Lang.Dsl)
    (clusterID : ℕ) (db : Database) : Option (Reply × Database) :=
  match db.select .cluster orders.aclCluster fun c => c.ID == clusterID with
  | [] => some (.error s!"could not find cluster with ID {clusterID}", db)
  | cluster :: _ =>
      let machines := db.select .machine orders.aclMachine fun m =>
        m.clusterID == cluster.ID && m.publicIP != ""
      let acls := accessList outside dsl machines
      if cluster.acls = acls then some (.ok (), db)
      else (db.commit .cluster { cluster with acls := acls }).map fun db => (.ok (), db)

def updateTxn (outside : Outside) (orders : Orders) (dsl : Lang.Dsl)
    (db : Database) : Option (Reply × Database) :=
  (clusterTxn orders dsl db).bind fun (reply, db) =>
    match reply with
    | .error message => some (.error message, db)
    | .ok clusterID =>
        (machineTxn outside orders dsl clusterID db).bind fun db =>
          aclTxn outside orders dsl clusterID db

/-! ## What each part of the transaction does -/

/-- The access list does not depend on the order of the machines. -/
theorem accessList_eq_of_perm (outside : Outside) (dsl : Lang.Dsl)
    {left right : List Machine} (hperm : left.Perm right) :
    accessList outside dsl left = accessList outside dsl right := by
  apply sortStrings_eq_of_perm
  exact (hperm.map _).append_left _

def AtMostOneCluster (db : Database) : Prop :=
  (db.tables .cluster).rows.length ≤ 1

instance (db : Database) : Decidable (AtMostOneCluster db) :=
  inferInstanceAs (Decidable (_ ≤ _))

theorem clusterTxn_error {orders : Orders} {dsl : Lang.Dsl} {db : Database}
    (hname : dsl.queryString "Namespace" = "") :
    clusterTxn orders dsl db = some (.error noNamespace, db) := by
  simp [clusterTxn, hname]

/-- With a namespace and at most one cluster, `clusterTxn` leaves exactly one
cluster row, with the identifier it had before if there was one. -/
theorem clusterTxn_ok (orders : Orders) {dsl : Lang.Dsl} {db : Database}
    (hone : AtMostOneCluster db) (hname : dsl.queryString "Namespace" ≠ "") :
    ∃ cluster next, clusterTxn orders dsl db = some (.ok cluster.ID, next) ∧
      (next.tables .cluster).rows = [cluster] ∧
      cluster.namespaceName = dsl.queryString "Namespace" ∧
      cluster.spec = dsl.code ∧
      (∀ old ∈ (db.tables .cluster).rows,
        cluster.ID = old.ID ∧ cluster.acls = old.acls) ∧
      SameElsewhere .cluster db next ∧ db.idAlloc ≤ next.idAlloc := by
  unfold clusterTxn
  rw [if_neg hname]
  rcases hrows : (db.tables .cluster).rows with _ | ⟨old, rest⟩
  · -- An empty table: the row is inserted first.
    have hselect : db.select .cluster orders.cluster (fun _ => true) = [] := by
      have hperm := (db.tables .cluster).select_perm orders.cluster (fun _ => true)
      rw [hrows] at hperm
      exact List.perm_nil.mp hperm
    have hinserted : ((db.insertRow .cluster).2.tables .cluster).rows =
        [blank .cluster (db.idAlloc + 1)] := by
      rw [Database.insertRow_table,
        Table.insert_rows_of_fresh (db.blank_fresh .cluster), hrows]
      rfl
    obtain ⟨next, hcommit, hnext, hsame, halloc⟩ := commit_singleton (t := .cluster)
      { (blank .cluster (db.idAlloc + 1) : Cluster) with
        namespaceName := dsl.queryString "Namespace", spec := dsl.code }
      hinserted rfl
    refine ⟨_, next, ?_, hnext, rfl, rfl, by simp, ?_, ?_⟩
    · simp only [hselect, Option.bind_some, Database.insertRow_fst, hcommit,
        Option.map_some]
    · exact SameElsewhere.trans
        (fun other hne => db.insertRow_other hne) hsame
    · rw [halloc, Database.insertRow_idAlloc]
      omega
  · have hrest : rest = [] := by
      unfold AtMostOneCluster at hone
      rw [hrows, List.length_cons] at hone
      exact List.length_eq_zero_iff.mp (by omega)
    subst hrest
    have hselect : db.select .cluster orders.cluster (fun _ => true) = [old] :=
      Table.select_singleton hrows _ _
    obtain ⟨next, hcommit, hnext, hsame, halloc⟩ := commit_singleton (t := .cluster)
      { (old : Cluster) with
        namespaceName := dsl.queryString "Namespace", spec := dsl.code }
      hrows rfl
    refine ⟨_, next, ?_, hnext, rfl, rfl, ?_, hsame, halloc.ge⟩
    · simp only [hselect, Option.bind_some, hcommit, Option.map_some]
    · intro stored hstored
      rw [List.mem_singleton] at hstored
      subst hstored
      exact ⟨rfl, rfl⟩

theorem region_of_machineScore {dslMachine dbMachine : Machine}
    (hscore : 0 ≤ machineScore dslMachine dbMachine) :
    dbMachine.region = dslMachine.region := by
  by_contra hregion
  unfold machineScore at hscore
  simp only [if_pos hregion] at hscore
  split_ifs at hscore <;> omega

/-- The fields of a machine row that the policy decides. -/
def policyFields (m : Machine) :
    Role × Provider × String × String × ℤ × List String :=
  (m.role, m.provider, m.region, m.size, m.diskSize, m.sshKeys)

theorem policyFields_rewrite (clusterID : ℕ) (dslMachine dbMachine : Machine) :
    policyFields ((machineRule clusterID).rewrite dslMachine dbMachine) =
      policyFields dslMachine := rfl

section MachineTxn

variable (outside : Outside) (orders : Orders) (dsl : Lang.Dsl)
  (clusterID : ℕ) (db : Database)

/-- The machine rows of the cluster, in the order of the select. -/
def dbMachines : List Machine :=
  db.select .machine orders.machine fun m => m.clusterID == clusterID

/-- The target/row pairs `machineTxn` commits. -/
def machinePairs : List (Machine × Machine) :=
  written (machineRule clusterID) (dslMachines outside dsl)
    (dbMachines orders clusterID db) db

/-- The machine rows of other clusters. -/
def otherMachines : List Machine :=
  (db.tables .machine).rows.filter fun m => !(m.clusterID == clusterID)

theorem machineTxn_spec :
    ∃ next, machineTxn outside orders dsl clusterID db = some next ∧
      (next.tables .machine).rows.Perm
        ((machineRule clusterID).rewritePairs
          (machinePairs outside orders dsl clusterID db) ++
            otherMachines clusterID db) ∧
      SameElsewhere .machine db next ∧ db.idAlloc ≤ next.idAlloc := by
  obtain ⟨next, hnext, hperm, hsame, halloc⟩ :=
    reconcile_spec (machineRule clusterID) (dslMachines outside dsl)
      (dbMachines orders clusterID db) (otherMachines clusterID db) db
      ((db.tables .machine).rows_perm_select orders.machine _)
  exact ⟨next, hnext, hperm, hsame, halloc ▸ Nat.le_add_right _ _⟩

variable {outside orders dsl clusterID db}

/-- A row after `machineTxn` is a row from before, a row of the cluster into
which a compatible target was written, or a row with a new identifier. -/
theorem machineTxn_origin {next : Database} {after : Machine}
    (htxn : machineTxn outside orders dsl clusterID db = some next)
    (hafter : after ∈ (next.tables .machine).rows) :
    (∃ before ∈ (db.tables .machine).rows, after = before ∨
      (before.clusterID = clusterID ∧ ∃ dslMachine,
        0 ≤ machineScore dslMachine before ∧
          after = (machineRule clusterID).rewrite dslMachine before)) ∨
      db.idAlloc < after.ID := by
  obtain ⟨found, hfound, hperm, _⟩ :=
    machineTxn_spec outside orders dsl clusterID db
  rw [htxn, Option.some.injEq] at hfound
  subst hfound
  rcases List.mem_append.mp (hperm.mem_iff.mp hafter) with hwritten | hother
  · obtain ⟨pair, hpair, rfl⟩ := List.mem_map.mp hwritten
    rcases mem_written _ _ _ _ hpair with ⟨hmem, hscore⟩ | hnew
    · obtain ⟨hstored, hcluster⟩ := (Table.mem_select _ _ _ _).mp hmem
      exact .inl ⟨pair.2, hstored,
        .inr ⟨by simpa using hcluster, pair.1, hscore, rfl⟩⟩
    · exact .inr hnew
  · exact .inl ⟨after, (List.mem_filter.mp hother).1, .inl rfl⟩

/-- A row after `machineTxn` that has the identifier of a row before it is that
row, or a row of the cluster into which a compatible target was written. -/
theorem machineTxn_retained {next : Database} {before after : Machine}
    (htxn : machineTxn outside orders dsl clusterID db = some next)
    (hbefore : before ∈ (db.tables .machine).rows)
    (hafter : after ∈ (next.tables .machine).rows)
    (hid : after.ID = before.ID) :
    after = before ∨
      (before.clusterID = clusterID ∧ ∃ dslMachine,
        0 ≤ machineScore dslMachine before ∧
          after = (machineRule clusterID).rewrite dslMachine before) := by
  rcases machineTxn_origin htxn hafter with ⟨row, hrow, horigin⟩ | hnew
  · have hrowID : after.ID = row.ID := by
      rcases horigin with rfl | ⟨_, _, _, rfl⟩
      · rfl
      · rfl
    have hsame : row = before :=
      Table.eq_of_id_eq hrow hbefore (hrowID.symm.trans hid)
    exact hsame ▸ horigin
  · have hle : before.ID ≤ db.idAlloc := db.allocated .machine before hbefore
    omega

/-- The rows of the cluster show exactly the machines of the policy. -/
theorem machineTxn_policyFields {next : Database}
    (htxn : machineTxn outside orders dsl clusterID db = some next) :
    (((next.tables .machine).rows.filter
        fun m => m.clusterID == clusterID).map policyFields).Perm
      ((dslMachines outside dsl).map policyFields) := by
  obtain ⟨found, hfound, hperm, _⟩ :=
    machineTxn_spec outside orders dsl clusterID db
  rw [htxn, Option.some.injEq] at hfound
  subst hfound
  have hfilter := hperm.filter fun m => m.clusterID == clusterID
  have hall : ((machineRule clusterID).rewritePairs
      (machinePairs outside orders dsl clusterID db)).filter
        (fun m => m.clusterID == clusterID) =
      (machineRule clusterID).rewritePairs
        (machinePairs outside orders dsl clusterID db) := by
    rw [List.filter_eq_self]
    intro row hrow
    obtain ⟨pair, _, rfl⟩ := List.mem_map.mp hrow
    simp [machineRule]
  have hnone : (otherMachines clusterID db).filter
      (fun m => m.clusterID == clusterID) = [] := by
    simp [otherMachines, List.filter_filter]
  rw [List.filter_append, hall, hnone, List.append_nil] at hfilter
  exact (hfilter.map policyFields).trans
    ((machineRule clusterID).view_perm (policyFields_rewrite clusterID)
      (written_map_fst_perm _ _ _ db))

/-- Rows of other clusters are untouched. -/
theorem machineTxn_others {next : Database}
    (htxn : machineTxn outside orders dsl clusterID db = some next)
    {row : Machine} (hother : row.clusterID ≠ clusterID) :
    row ∈ (next.tables .machine).rows ↔ row ∈ (db.tables .machine).rows := by
  obtain ⟨found, hfound, hperm, _⟩ :=
    machineTxn_spec outside orders dsl clusterID db
  rw [htxn, Option.some.injEq] at hfound
  subst hfound
  rw [hperm.mem_iff, List.mem_append]
  constructor
  · rintro (hwritten | hrow)
    · obtain ⟨pair, _, rfl⟩ := List.mem_map.mp hwritten
      exact absurd rfl hother
    · exact (List.mem_filter.mp hrow).1
  · intro hrow
    exact .inr (List.mem_filter.mpr ⟨hrow, by simpa using hother⟩)

/-- A row that the join does not leave over is kept, in the same cluster. -/
theorem machineTxn_kept {next : Database} {row : Machine}
    (htxn : machineTxn outside orders dsl clusterID db = some next)
    (hrow : row ∈ (db.tables .machine).rows)
    (hmatched : row.clusterID = clusterID → row ∉ (join machineScore
      (dslMachines outside dsl) (dbMachines orders clusterID db)).lonelyRights) :
    ∃ kept ∈ (next.tables .machine).rows,
      kept.ID = row.ID ∧ kept.clusterID = row.clusterID := by
  by_cases hcluster : row.clusterID = clusterID
  · have hselected : row ∈ dbMachines orders clusterID db :=
      (Table.mem_select _ _ _ _).mpr ⟨hrow, by simpa using hcluster⟩
    have hjoined := (join_rights_perm machineScore (dslMachines outside dsl)
      (dbMachines orders clusterID db)).mem_iff.mpr hselected
    rcases List.mem_append.mp hjoined with hpaired | hlonely
    · obtain ⟨pair, hpair, rfl⟩ := List.mem_map.mp hpaired
      obtain ⟨found, hfound, hperm, _⟩ :=
        machineTxn_spec outside orders dsl clusterID db
      rw [htxn, Option.some.injEq] at hfound
      subst hfound
      refine ⟨(machineRule clusterID).rewrite pair.1 pair.2, ?_, rfl, hcluster.symm⟩
      rw [hperm.mem_iff, List.mem_append]
      left
      exact List.mem_map_of_mem (List.mem_append_left _ hpair)
    · exact absurd hlonely (hmatched hcluster)
  · exact ⟨row, (machineTxn_others htxn hcluster).mpr hrow, rfl, rfl⟩

end MachineTxn

/-- `aclTxn` on the only cluster row stores the access list of the cluster's
addressed machines and touches nothing else. -/
theorem aclTxn_ok (outside : Outside) (orders : Orders) (dsl : Lang.Dsl)
    {db : Database} {cluster : Cluster}
    (hrows : (db.tables .cluster).rows = [cluster]) :
    ∃ next, aclTxn outside orders dsl cluster.ID db = some (.ok (), next) ∧
      (next.tables .cluster).rows =
        [{ cluster with
            acls := accessList outside dsl
              (db.select .machine orders.aclMachine fun m =>
                m.clusterID == cluster.ID && m.publicIP != "") }] ∧
      SameElsewhere .cluster db next ∧ next.idAlloc = db.idAlloc := by
  have hselect : db.select .cluster orders.aclCluster
      (fun c => c.ID == cluster.ID) = [cluster] := by
    have hsingle := Table.select_singleton hrows orders.aclCluster
      (fun c => c.ID == cluster.ID)
    rw [List.filter_cons_of_pos (by simp), List.filter_nil] at hsingle
    exact hsingle
  unfold aclTxn
  simp only [hselect]
  set acls := accessList outside dsl
    (db.select .machine orders.aclMachine fun m =>
      m.clusterID == cluster.ID && m.publicIP != "") with hacls
  by_cases hsame : cluster.acls = acls
  · rw [if_pos hsame]
    exact ⟨db, rfl, by rw [← hsame, hrows], fun _ _ => rfl, rfl⟩
  · rw [if_neg hsame]
    obtain ⟨next, hcommit, hnext, helsewhere⟩ :=
      commit_singleton (t := .cluster) { cluster with acls := acls } hrows rfl
    exact ⟨next, by rw [hcommit, Option.map_some], hnext, helsewhere⟩

end Engine
end Di
