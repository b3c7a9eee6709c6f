import Di.KeyedTable
import Mathlib.Data.Finmap

/-!
# The central database

One table for each row type, a shared allocator of row identifiers, and the
writes of `db.go`: insertion of a blank row, `Commit` and `Remove`.  Row
identifiers never exceed the allocator, which is carried by the database
itself, so a newly inserted row cannot collide with a stored one.

`commit` returns `none` exactly where the program panics with "Type Error":
the row it is given is not in its table.
-/

namespace Di
namespace Db

inductive Role
  | none
  | worker
  | master
  deriving DecidableEq, Repr

/-- A cloud provider; `unset` is the empty string of a blank row. -/
inductive Provider
  | unset
  | amazonSpot
  | google
  | vagrant
  | azure
  deriving DecidableEq, Repr

def parseProvider : String → Option Provider
  | "AmazonSpot" => some .amazonSpot
  | "Google" => some .google
  | "Vagrant" => some .vagrant
  | "Azure" => some .azure
  | _ => Option.none

def parseRole : String → Option Role
  | "Master" => some .master
  | "Worker" => some .worker
  | "" => some .none
  | _ => Option.none

structure Cluster where
  ID : ℕ
  namespaceName : String := ""
  spec : String := ""
  acls : List String := []
  deriving DecidableEq, Repr

structure Machine where
  ID : ℕ
  /-- Populated by the policy engine. -/
  clusterID : ℕ := 0
  role : Role := .none
  provider : Provider := .unset
  region : String := ""
  size : String := ""
  diskSize : ℤ := 0
  sshKeys : List String := []
  /-- Populated by the cloud provider. -/
  cloudID : String := ""
  publicIP : String := ""
  privateIP : String := ""
  deriving DecidableEq, Repr

/-- Scheduler placement constraints: pairs of labels that exclude each other. -/
structure Placement where
  exclusive : Finset (String × String) := ∅
  deriving DecidableEq

structure Container where
  ID : ℕ
  pid : ℤ := 0
  ip : String := ""
  mac : String := ""
  schedID : String := ""
  image : String := ""
  /-- Commands are compared by `reflect.DeepEqual`, for which `nil` is not empty. -/
  command : Option (List String) := none
  labels : List String := []
  env : Finmap (fun _ : String => String) := ∅
  placement : Placement := {}
  deriving DecidableEq

structure Connection where
  ID : ℕ
  fromLabel : String := ""
  toLabel : String := ""
  minPort : ℤ := 0
  maxPort : ℤ := 0
  deriving DecidableEq, Repr

structure Label where
  ID : ℕ
  label : String := ""
  ip : String := ""
  multiHost : Bool := false
  deriving DecidableEq, Repr

structure Minion where
  ID : ℕ
  minionID : String := ""
  role : Role := .none
  privateIP : String := ""
  deriving DecidableEq, Repr

structure Etcd where
  ID : ℕ
  /-- Compared by `reflect.DeepEqual` as well. -/
  etcdIPs : Option (List String) := none
  leader : Bool := false
  leaderIP : String := ""
  deriving DecidableEq, Repr

inductive TableType
  | cluster
  | machine
  | container
  | minion
  | connection
  | label
  | etcd
  deriving DecidableEq, Repr

/-- The row type of a table; a table holds rows of exactly one type. -/
@[reducible] def RowOf : TableType → Type
  | .cluster => Cluster
  | .machine => Machine
  | .container => Container
  | .minion => Minion
  | .connection => Connection
  | .label => Label
  | .etcd => Etcd

instance : HasID Cluster := ⟨Cluster.ID⟩
instance : HasID Machine := ⟨Machine.ID⟩
instance : HasID Container := ⟨Container.ID⟩
instance : HasID Minion := ⟨Minion.ID⟩
instance : HasID Connection := ⟨Connection.ID⟩
instance : HasID Label := ⟨Label.ID⟩
instance : HasID Etcd := ⟨Etcd.ID⟩

instance (t : TableType) : HasID (RowOf t) :=
  match t with
  | .cluster => inferInstanceAs (HasID Cluster)
  | .machine => inferInstanceAs (HasID Machine)
  | .container => inferInstanceAs (HasID Container)
  | .minion => inferInstanceAs (HasID Minion)
  | .connection => inferInstanceAs (HasID Connection)
  | .label => inferInstanceAs (HasID Label)
  | .etcd => inferInstanceAs (HasID Etcd)

instance (t : TableType) : DecidableEq (RowOf t) :=
  match t with
  | .cluster => inferInstanceAs (DecidableEq Cluster)
  | .machine => inferInstanceAs (DecidableEq Machine)
  | .container => inferInstanceAs (DecidableEq Container)
  | .minion => inferInstanceAs (DecidableEq Minion)
  | .connection => inferInstanceAs (DecidableEq Connection)
  | .label => inferInstanceAs (DecidableEq Label)
  | .etcd => inferInstanceAs (DecidableEq Etcd)

/-- The row an `Insert` function creates: every field but the identifier is
zero. -/
def blank : (t : TableType) → ℕ → RowOf t
  | .cluster, i => ({ ID := i } : Cluster)
  | .machine, i => ({ ID := i } : Machine)
  | .container, i => ({ ID := i } : Container)
  | .minion, i => ({ ID := i } : Minion)
  | .connection, i => ({ ID := i } : Connection)
  | .label, i => ({ ID := i } : Label)
  | .etcd, i => ({ ID := i } : Etcd)

@[simp] theorem id_blank (t : TableType) (i : ℕ) : HasID.id (blank t i) = i := by
  cases t <;> rfl

structure Database where
  tables : (t : TableType) → Table (RowOf t)
  idAlloc : ℕ
  allocated : ∀ t, ∀ row ∈ (tables t).rows, HasID.id row ≤ idAlloc

namespace Database

@[ext] theorem ext {left right : Database}
    (htables : ∀ t, left.tables t = right.tables t)
    (halloc : left.idAlloc = right.idAlloc) : left = right := by
  cases left
  cases right
  simp only [mk.injEq]
  exact ⟨funext htables, halloc⟩

/-- The database of a new connection. -/
def new : Database where
  tables := fun _ => Table.empty
  idAlloc := 0
  allocated := by simp

/-- Replaces one table; the allocator may only grow. -/
def withTable (db : Database) (t : TableType) (table : Table (RowOf t))
    (alloc : ℕ) (hgrow : db.idAlloc ≤ alloc)
    (hrows : ∀ row ∈ table.rows, HasID.id row ≤ alloc) : Database where
  tables := Function.update db.tables t table
  idAlloc := alloc
  allocated := by
    intro other row hrow
    by_cases heq : other = t
    · subst heq
      rw [Function.update_self] at hrow
      exact hrows row hrow
    · rw [Function.update_of_ne heq] at hrow
      exact (db.allocated other row hrow).trans hgrow

theorem id_le_of_mem_ids {db : Database} {t : TableType} {i : ℕ}
    (hi : i ∈ (db.tables t).ids) : i ≤ db.idAlloc := by
  obtain ⟨row, hrow, rfl⟩ := List.mem_map.mp hi
  exact db.allocated t row hrow

theorem nextID_fresh (db : Database) (t : TableType) :
    db.idAlloc + 1 ∉ (db.tables t).ids := by
  intro hmem
  have hle := id_le_of_mem_ids hmem
  omega

theorem blank_fresh (db : Database) (t : TableType) :
    HasID.id (blank t (db.idAlloc + 1)) ∉ (db.tables t).ids := by
  rw [id_blank]
  exact db.nextID_fresh t

/-- `InsertCluster`, `InsertMachine` and their siblings: the new row and the
database that holds it. -/
def insertRow (db : Database) (t : TableType) : RowOf t × Database :=
  let row := blank t (db.idAlloc + 1)
  (row, db.withTable t ((db.tables t).insert row) (db.idAlloc + 1) (by omega) (by
    intro stored hstored
    have hperm := Table.insert_perm (db.blank_fresh t) .rfl
    rcases List.mem_cons.mp (hperm.mem_iff.mp hstored) with rfl | hold
    · simp
    · exact (db.allocated t stored hold).trans (by omega)))

def remove (db : Database) (t : TableType) (row : RowOf t) : Database :=
  db.withTable t ((db.tables t).remove row) db.idAlloc le_rfl (by
    intro stored hstored
    exact db.allocated t stored (List.mem_filter.mp hstored).1)

/-- `Commit`; `none` is the panic on a row that is not in its table. -/
def commit (db : Database) (t : TableType) (row : RowOf t) : Option Database :=
  match hcommit : (db.tables t).commit row with
  | none => none
  | some table => some (db.withTable t table db.idAlloc le_rfl (by
      intro stored hstored
      have hids := Table.mem_ids_of_mem hstored
      rw [Table.ids_commit hcommit] at hids
      exact id_le_of_mem_ids hids))

/-- `SelectFromCluster`, `SelectFromMachine` and their siblings. -/
def select (db : Database) (t : TableType) (order : IterOrder (RowOf t))
    (check : RowOf t → Bool) : List (RowOf t) :=
  (db.tables t).select order check

/-! ## Each write touches one table -/

@[simp] theorem insertRow_fst (db : Database) (t : TableType) :
    (db.insertRow t).1 = blank t (db.idAlloc + 1) := rfl

@[simp] theorem insertRow_idAlloc (db : Database) (t : TableType) :
    (db.insertRow t).2.idAlloc = db.idAlloc + 1 := rfl

@[simp] theorem insertRow_table (db : Database) (t : TableType) :
    (db.insertRow t).2.tables t =
      (db.tables t).insert (blank t (db.idAlloc + 1)) := by
  simp [insertRow, withTable]

theorem insertRow_other (db : Database) {t other : TableType}
    (hne : other ≠ t) : (db.insertRow t).2.tables other = db.tables other := by
  simp [insertRow, withTable, hne]

@[simp] theorem remove_table (db : Database) (t : TableType) (row : RowOf t) :
    (db.remove t row).tables t = (db.tables t).remove row := by
  simp [remove, withTable]

theorem remove_other (db : Database) {t other : TableType} (row : RowOf t)
    (hne : other ≠ t) : (db.remove t row).tables other = db.tables other := by
  simp [remove, withTable, hne]

/-- What a commit that does not panic did. -/
theorem commit_eq_some {db next : Database} {t : TableType} {row : RowOf t}
    (hcommit : db.commit t row = some next) :
    (db.tables t).commit row = some (next.tables t) ∧
      next.idAlloc = db.idAlloc ∧
      ∀ other, other ≠ t → next.tables other = db.tables other := by
  unfold commit at hcommit
  split at hcommit
  next => contradiction
  next table htable =>
    rw [Option.some.injEq] at hcommit
    subst hcommit
    refine ⟨by simp [withTable, htable], rfl, ?_⟩
    intro other hne
    simp [withTable, hne]

theorem commit_eq_none_iff (db : Database) (t : TableType) (row : RowOf t) :
    db.commit t row = none ↔ HasID.id row ∉ (db.tables t).ids := by
  rw [← Table.commit_eq_none_iff]
  unfold commit
  split
  next htable => simp [htable]
  next table htable => simp [htable]

theorem exists_commit {db : Database} {t : TableType} {row : RowOf t}
    (hmem : HasID.id row ∈ (db.tables t).ids) :
    ∃ next, db.commit t row = some next := by
  cases hcommit : db.commit t row with
  | none => exact absurd hmem ((commit_eq_none_iff db t row).mp hcommit)
  | some next => exact ⟨next, rfl⟩

/-- Committing a stored row as it stands leaves the whole database alone. -/
theorem commit_self {db : Database} {t : TableType} {row : RowOf t}
    (hmem : row ∈ (db.tables t).rows) : db.commit t row = some db := by
  obtain ⟨next, hcommit⟩ := exists_commit (Table.mem_ids_of_mem hmem)
  obtain ⟨htable, halloc, hother⟩ := commit_eq_some hcommit
  rw [Table.commit_self hmem, Option.some.injEq] at htable
  rw [hcommit, Option.some.injEq]
  apply Database.ext _ halloc
  intro other
  by_cases heq : other = t
  · exact heq ▸ htable.symm
  · exact hother other heq

end Database
end Db
end Di
