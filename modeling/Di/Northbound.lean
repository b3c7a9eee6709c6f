import Di.LogicalPorts
import Di.NetworkAcl
import Di.OvsdbClient

/-!
# The northbound database of OVN

The leader keeps the logical ports and the firewall rules of its switch through transactions of
OVSDB.  `Serves` says what these transactions are assumed to do to a database that has no switch
but that of the leader: rows are found by their columns, rows are added to and removed from the
switch, and nothing else changes in between.  From this follows what each call of the client does
to the ports and the rules.
-/

namespace Di
namespace Northbound

open Db Ovsdb
open LogicalPorts (LPort Request labelRequests containerRequests addressed attached isLeader)
open NetworkAcl (Acl aclScore targetACLs)
open Procedure (Returns Leaves returns_of_and leaves_of_and)

inductive Table
  | logicalSwitch
  | logicalPort
  | acl
  deriving DecidableEq, Repr

inductive Column
  | name
  | ports
  | acls
  | addresses
  | direction
  | matchText
  | priority
  | action
  | log
  deriving DecidableEq, Repr

def lSwitch : String := "di"

/-! ## Transactions -/

def insertSwitch (lswitch : String) : List (Operation Table Column) :=
  [.insert .logicalSwitch [(.name, .set [.text lswitch])] ""]

def insertPort (lswitch name mac ip : String) : List (Operation Table Column) :=
  [.insert .logicalPort
      [(.name, .set [.text name]), (.addresses, .set [.text (mac ++ " " ++ ip)])] "dilportadd",
    .mutate .logicalSwitch [textIs .name lswitch] [mutateUUID .ports .insert "dilportadd"]]

def removePort (lswitch uuid : String) : List (Operation Table Column) :=
  [.delete .logicalPort [uuidIs uuid],
    .mutate .logicalSwitch [textIs .name lswitch] [mutateUUID .ports .delete uuid]]

/-- A column that is wildcarded is not set. -/
def aclColumns (acl : Acl) : List (Column × Datum) :=
  (if acl.direction = "*" then [] else [(.direction, .set [.text acl.direction])]) ++
    (if acl.matchText = "*" then [] else [(.matchText, .set [.text acl.matchText])]) ++
    [(.priority, .set [.number (max 0 acl.priority)]), (.action, .set [.text acl.action]),
      (.log, .set [.flag acl.log])]

def insertACL (lswitch : String) (acl : Acl) : List (Operation Table Column) :=
  [.insert .acl (aclColumns acl) "diacladd",
    .mutate .logicalSwitch [textIs .name lswitch] [mutateUUID .acls .insert "diacladd"]]

def removeACL (lswitch uuid : String) : List (Operation Table Column) :=
  [.delete .acl [uuidIs uuid],
    .mutate .logicalSwitch [textIs .name lswitch] [mutateUUID .acls .delete uuid]]

/-! ## The calls of the client -/

section Calls

variable {σ : Type} (server : Server Table Column σ)

def createSwitch (lswitch : String) : Call σ Unit := do
  let check ← server.selectRows .logicalSwitch [textIs .name lswitch]
  if 0 < check.length then
    Procedure.throw (.exist ("logical switch " ++ lswitch ++ " already exists"))
  else server.change transactionError (insertSwitch lswitch) 1 2

def readPort (row : JsonRow Column) : Outcome Failure LPort := do
  let name ← (row.columns .name).asText
  let addresses ← ovsStringSetToSlice (row.columns .addresses)
  pure ⟨name, addresses⟩

/-- An identifier without a row is skipped. -/
def portOf (uuid : String) : Call σ (Option LPort) := do
  let rows ← server.selectRows .logicalPort [uuidIs uuid]
  match rows with
  | [] => pure none
  | row :: _ => do
      let port ← lift (readPort row)
      pure (some port)

def listPorts (lswitch : String) : Call σ (List LPort) := do
  let rows ← server.selectRows .logicalSwitch [textIs .name lswitch]
  match rows with
  | [] => pure []
  | row :: _ => do
      let uuids ← lift (ovsUUIDSetToSlice (row.columns .ports))
      let ports ← Procedure.collect (portOf server) uuids
      pure (ports.filterMap id)

def createPort (lswitch name mac ip : String) : Call σ Unit := do
  let rows ← server.selectRows .logicalPort [textIs .name name]
  if 0 < rows.length then Procedure.throw (.exist ("port " ++ name ++ " already exists"))
  else server.change transactionError (insertPort lswitch name mac ip) 2 1

def deletePort (lswitch name : String) : Call σ Unit := do
  let rows ← server.selectRows .logicalPort [textIs .name name]
  match rows with
  | [] => pure ()
  | row :: _ => do
      let uuid ← lift row.uuid.asUUID
      server.change transactionError (removePort lswitch uuid) 2 2

def readAcl (row : JsonRow Column) : Outcome Failure (String × Acl) := do
  let uuid ← row.uuid.asUUID
  let priority ← (row.columns .priority).asInt
  let direction ← (row.columns .direction).asText
  let matchText ← (row.columns .matchText).asText
  let action ← (row.columns .action).asText
  let log ← (row.columns .log).asBool
  pure (uuid, ⟨priority, direction, matchText, action, log⟩)

def aclsOf (uuid : String) : Call σ (List (String × Acl)) := do
  let rows ← server.selectRows .acl [uuidIs uuid]
  lift (Outcome.collect readAcl rows)

def listACLs (lswitch : String) : Call σ (List (String × Acl)) := do
  let rows ← server.selectRows .logicalSwitch [textIs .name lswitch]
  match rows with
  | [] => pure []
  | row :: _ => do
      let uuids ← lift (ovsUUIDSetToSlice (row.columns .acls))
      let acls ← Procedure.collect (aclsOf server) uuids
      pure acls.flatten

def createACL (lswitch : String) (acl : Acl) : Call σ Unit :=
  server.change transactionError (insertACL lswitch acl) 2 1

/-- An iteration of the loop of `DeleteACL`, which ends at the first error. -/
def deleteCovered (lswitch : String) (acl : Acl) (row : String × Acl) : Call σ Unit :=
  if acl.covers row.2 then server.change transactionError (removeACL lswitch row.1) 2 2
  else pure ()

def deleteACL (lswitch : String) (acl : Acl) : Call σ Unit := do
  let acls ← listACLs server lswitch
  Procedure.forEach (deleteCovered server lswitch acl) acls

/-! ## The pass of the leader -/

/-- The loops over labels and containers, which return the garbage. -/
def claims (garbage : List String) : List Request → Call σ (List String)
  | [] => pure garbage
  | request :: rest =>
      if request.1 ∈ garbage then claims (garbage.filter (· ≠ request.1)) rest
      else do
        logged (createPort server lSwitch request.1 request.2.1 request.2.2)
        claims garbage rest

def updateACLs (targets : List Acl) : Call σ Unit := logged do
  server.dial
  let acls ← listACLs server lSwitch
  let joined := Join.join (fun acl ovsc => aclScore acl ovsc.2) targets acls
  Procedure.forEach (fun acl => logged (createACL server lSwitch acl)) joined.lonelyLefts
  Procedure.forEach (fun acl => logged (deleteACL server lSwitch acl))
    (joined.lonelyRights.map Prod.snd)

def runMaster (orders : LogicalPorts.Orders) (connOrder : IterOrder Connection)
    (matchOrder : IterOrder String) (view : Database) : Call σ Unit :=
  let labels := view.select .label orders.label addressed
  let containers := view.select .container orders.container attached
  let connections := view.select .connection connOrder fun _ => true
  if isLeader (view.select .etcd orders.etcd fun _ => true) then logged do
    server.dial
    ignored (createSwitch server lSwitch)
    let lports ← listPorts server lSwitch
    let garbage ← claims server (lports.map LPort.name).dedup
      (labelRequests labels ++ containerRequests containers)
    Procedure.forEach (fun lport => logged (deletePort server lSwitch lport))
      (orders.garbage.visit garbage)
    updateACLs server (targetACLs matchOrder connections labels containers)
  else pure ()

end Calls

/-! ## The rows of the switch -/

/-- A database whose only switch is that of the leader: the ports and the rules of it. -/
structure Rows where
  ports : Members LPort
  acls : Members Acl
  names_nodup : (ports.list.map fun port => port.2.name).Nodup

namespace Rows

variable (rows : Rows)

def empty : Rows := ⟨.empty, .empty, List.nodup_nil⟩

def addPort (uuid : String) (port : LPort) (hvalid : validUUID uuid = true)
    (hnew : uuid ∉ rows.ports.ids)
    (hname : port.name ∉ rows.ports.list.map fun port => port.2.name) : Rows :=
  { rows with
    ports := rows.ports.add uuid port hvalid hnew
    names_nodup := nodup_map_concat rows.names_nodup hname }

def addAcl (uuid : String) (acl : Acl) (hvalid : validUUID uuid = true)
    (hnew : uuid ∉ rows.acls.ids) : Rows :=
  { rows with acls := rows.acls.add uuid acl hvalid hnew }

def deletePort (uuid : String) : Rows :=
  { rows with
    ports := rows.ports.delete uuid
    names_nodup := (List.filter_sublist.map _).nodup rows.names_nodup }

def deleteAcl (uuid : String) : Rows := { rows with acls := rows.acls.delete uuid }

/-- The row of the switch as it is written in a reply. -/
structure Shown (row : JsonRow Column) : Prop where
  ports : ∃ wire : Wire, row.columns .ports = wire.datum rows.ports.refs
  acls : ∃ wire : Wire, row.columns .acls = wire.datum rows.acls.refs

end Rows

structure PortShown (port : String × LPort) (row : JsonRow Column) : Prop where
  uuid : row.uuid = .ofAtom (.uuid port.1)
  name : row.columns .name = .ofAtom (.text port.2.name)
  addresses : ∃ wire : Wire, row.columns .addresses = wire.datum (.set (port.2.addresses.map .text))

structure AclShown (acl : String × Acl) (row : JsonRow Column) : Prop where
  uuid : row.uuid = .ofAtom (.uuid acl.1)
  priority : row.columns .priority = .ofAtom (.number acl.2.priority)
  direction : row.columns .direction = .ofAtom (.text acl.2.direction)
  matchText : row.columns .matchText = .ofAtom (.text acl.2.matchText)
  action : row.columns .action = .ofAtom (.text acl.2.action)
  log : row.columns .log = .ofAtom (.flag acl.2.log)

/-- What a pass of the leader for these rules relies on.  A state of the server has either no
switch or the rows of that of the leader, and a number of identifiers that can be given out. -/
structure Serves {σ : Type} (server : Server Table Column σ) (holds : Option Rows → ℕ → σ → Prop)
    (targets : List Acl) : Prop where
  fewer : ∀ {db room s}, holds db (room + 1) s → holds db room s
  connect : ∀ db room, Returns (holds db room) server.dial fun _ => holds db room
  selectSwitch : ∀ db room, server.Shows (holds db room) .logicalSwitch [textIs .name lSwitch]
    Rows.Shown db.toList
  selectPort : ∀ rows room name, server.Shows (holds (some rows) room) .logicalPort
    [textIs .name name] PortShown (rows.ports.list.filter fun port => port.2.name = name)
  selectPortId : ∀ rows room, ∀ port ∈ rows.ports.list,
    server.Shows (holds (some rows) room) .logicalPort [uuidIs port.1] PortShown [port]
  selectAclId : ∀ rows room, ∀ acl ∈ rows.acls.list,
    server.Shows (holds (some rows) room) .acl [uuidIs acl.1] AclShown [acl]
  /-- No row is counted when one is inserted. -/
  insertSwitch : ∀ room, Returns (holds none (room + 1)) (server.request (insertSwitch lSwitch))
    fun results s => results = [{}] ∧ holds (some .empty) room s
  insertPort : ∀ (rows : Rows) room name mac ip
    (hname : name ∉ rows.ports.list.map fun port => port.2.name),
    Returns (holds (some rows) (room + 1)) (server.request (insertPort lSwitch name mac ip))
      fun results s => results = [{}, { count := 1 }] ∧ ∃ uuid hvalid hnew,
        holds (some (rows.addPort uuid ⟨name, [mac ++ " " ++ ip]⟩ hvalid hnew hname)) room s
  removePort : ∀ rows room, ∀ port ∈ rows.ports.list, Returns (holds (some rows) room)
    (server.request (removePort lSwitch port.1)) fun results s =>
      results = [{ count := 1 }, { count := 1 }] ∧ holds (some (rows.deletePort port.1)) room s
  insertACL : ∀ (rows : Rows) room, ∀ acl ∈ targets,
    Returns (holds (some rows) (room + 1)) (server.request (insertACL lSwitch acl))
      fun results s => results = [{}, { count := 1 }] ∧ ∃ uuid hvalid hnew,
        holds (some (rows.addAcl uuid acl.stored hvalid hnew)) room s
  removeACL : ∀ rows room, ∀ acl ∈ rows.acls.list, Returns (holds (some rows) room)
    (server.request (removeACL lSwitch acl.1)) fun results s =>
      results = [{ count := 1 }, { count := 1 }] ∧ holds (some (rows.deleteAcl acl.1)) room s

/-! ## Replies -/

theorem PortShown.readPort {port : String × LPort} {row : JsonRow Column}
    (hshown : PortShown port row) :
    ∃ addresses, readPort row = .ok ⟨port.2.name, addresses⟩ := by
  obtain ⟨wire, haddresses⟩ := hshown.addresses
  obtain ⟨visited, hvisited, -⟩ := ovsStringSetToSlice_datum wire port.2.addresses
  refine ⟨visited, ?_⟩
  unfold Northbound.readPort
  rw [hshown.name, haddresses, hvisited]
  rfl

theorem AclShown.readAcl {acl : String × Acl} {row : JsonRow Column} (hshown : AclShown acl row) :
    readAcl row = .ok acl := by
  unfold Northbound.readAcl
  rw [hshown.uuid, hshown.priority, hshown.direction, hshown.matchText, hshown.action, hshown.log]
  rfl

/-! ## What the calls do -/

section Serves

variable {σ : Type} {server : Server Table Column σ} {holds : Option Rows → ℕ → σ → Prop}
  {targets : List Acl} (hserves : Serves server holds targets) (rows : Rows) (room : ℕ)
include hserves

/-- The switch is there afterwards, whatever is reported. -/
theorem Serves.createSwitch (db : Option Rows) :
    Leaves (holds db (room + 1)) (createSwitch server lSwitch)
      (holds (some (db.getD .empty)) room) := by
  refine (hserves.selectSwitch db (room + 1)).selectRows.bind_leaves fun found =>
    leaves_of_and fun hfound => ?_
  cases db with
  | none =>
      obtain rfl := List.forall₂_nil_left_iff.mp hfound
      refine Returns.bind_leaves ((hserves.insertSwitch room).mapError _) fun results =>
        leaves_of_and ?_
      rintro rfl s hs
      -- two rows are expected to be altered
      exact ⟨.inr ⟨_, rfl⟩, hs⟩
  | some rows =>
      rw [if_pos (by rw [← hfound.length_eq]; exact Nat.one_pos)]
      exact Leaves.throw fun _ hs => hserves.fewer hs

theorem Serves.portOf {port : String × LPort} (hport : port ∈ rows.ports.list) :
    Returns (holds (some rows) room) (portOf server port.1) fun found s =>
      (∃ addresses, found = some ⟨port.2.name, addresses⟩) ∧ holds (some rows) room s := by
  refine (hserves.selectPortId rows room port hport).selectOne.bind fun found =>
    returns_of_and ?_
  rintro ⟨row, rfl, hrow⟩
  obtain ⟨addresses, hread⟩ := hrow.readPort
  exact returns_lift_bind hread (.pure fun _ hs => ⟨⟨addresses, rfl⟩, hs⟩)

omit hserves in
theorem names_of_forall₂ {ports : List (String × LPort)} {found : List (Option LPort)}
    (hfound : List.Forall₂ (fun (port : String × LPort) lport =>
      ∃ addresses, lport = some ⟨port.2.name, addresses⟩) ports found) :
    (found.filterMap id).map LPort.name = ports.map fun port => port.2.name := by
  induction hfound with
  | nil => rfl
  | cons hhead _ ih =>
      obtain ⟨addresses, rfl⟩ := hhead
      rw [List.map_cons, ← ih]
      rfl

/-- The ports are listed in the order of the server. -/
theorem Serves.listPorts :
    Returns (holds (some rows) room) (listPorts server lSwitch) fun lports s =>
      (∃ ports : List (String × LPort), ports.Perm rows.ports.list ∧
        lports.map LPort.name = ports.map fun port => port.2.name) ∧
      holds (some rows) room s := by
  refine (hserves.selectSwitch (some rows) room).selectOne.bind fun found => returns_of_and ?_
  rintro ⟨row, rfl, hrow⟩
  obtain ⟨wire, hports⟩ := hrow.ports
  obtain ⟨ports, hread, hperm⟩ := rows.ports.ovsUUIDSetToSlice_refs wire
  rw [← hports] at hread
  refine returns_lift_bind hread ?_
  have hcollect := Returns.collect_map fun port hport =>
    hserves.portOf rows room (hperm.mem_iff.mp hport)
  refine hcollect.bind fun found => returns_of_and fun hfound => .pure fun s hs => ?_
  exact ⟨⟨ports, hperm, names_of_forall₂ hfound⟩, hs⟩

theorem Serves.createPort (name mac ip : String) :
    Leaves (holds (some rows) (room + 1)) (createPort server lSwitch name mac ip) fun s =>
      ∃ rows' : Rows, holds (some rows') room s ∧ rows'.acls = rows.acls ∧
        rows'.ports.list.map Prod.snd =
          LogicalPorts.createPort (rows.ports.list.map Prod.snd) name mac ip := by
  have hnames : (rows.ports.list.map Prod.snd).map LPort.name =
      rows.ports.list.map fun port => port.2.name := List.map_map
  refine (hserves.selectPort rows (room + 1) name).selectRows.bind_leaves fun found =>
    leaves_of_and fun hfound => ?_
  by_cases hname : name ∈ rows.ports.list.map fun port => port.2.name
  · obtain ⟨port, hport, rfl⟩ := List.mem_map.mp hname
    rw [filter_key_eq_singleton rows.names_nodup hport] at hfound
    rw [if_pos (by rw [← hfound.length_eq]; exact Nat.one_pos)]
    refine Leaves.throw fun s hs => ⟨rows, hserves.fewer hs, rfl, ?_⟩
    rw [LogicalPorts.createPort, if_pos (by rwa [hnames])]
  · rw [filter_key_eq_nil hname, List.forall₂_nil_left_iff] at hfound
    rw [hfound, if_neg (by simp)]
    refine Returns.leaves ((returns_change rfl
      (hserves.insertPort rows room name mac ip hname)).imp ?_)
    rintro - s ⟨uuid, hvalid, hnew, hs⟩
    refine ⟨_, hs, rfl, ?_⟩
    rw [LogicalPorts.createPort, if_neg (by rwa [hnames])]
    exact List.map_append

theorem Serves.deletePort (name : String) :
    Returns (holds (some rows) room) (deletePort server lSwitch name) fun _ s =>
      ∃ rows' : Rows, holds (some rows') room s ∧ rows'.acls = rows.acls ∧
        rows'.ports.list.map Prod.snd =
          (rows.ports.list.map Prod.snd).filter fun port => port.name ≠ name := by
  by_cases hname : name ∈ rows.ports.list.map fun port => port.2.name
  · obtain ⟨port, hport, rfl⟩ := List.mem_map.mp hname
    have hselect := hserves.selectPort rows room port.2.name
    rw [filter_key_eq_singleton rows.names_nodup hport] at hselect
    refine hselect.selectOne.bind fun found => returns_of_and ?_
    rintro ⟨row, rfl, hrow⟩
    refine returns_lift_bind (by rw [hrow.uuid]; rfl) ?_
    refine (returns_change rfl (hserves.removePort rows room port hport)).imp fun _ s hs => ?_
    refine ⟨_, hs, rfl, ?_⟩
    -- one port has the identifier, and the same port has the name
    rw [List.filter_map]
    refine congrArg _ (List.filter_congr fun other hother => ?_)
    have hkeys : other.1 = port.1 ↔ other.2.name = port.2.name := by
      constructor
      · intro heq
        rw [List.inj_on_of_nodup_map rows.ports.nodup hother hport heq]
      · intro heq
        rw [List.inj_on_of_nodup_map rows.names_nodup hother hport heq]
    simp [hkeys]
  · have hselect := hserves.selectPort rows room name
    rw [filter_key_eq_nil hname] at hselect
    refine hselect.selectRows.bind fun found => returns_of_and fun hfound => ?_
    rw [List.forall₂_nil_left_iff.mp hfound]
    refine .pure fun s hs => ⟨rows, hs, rfl, ?_⟩
    rw [eq_comm, List.filter_eq_self]
    intro port hport
    obtain ⟨row, hrow, rfl⟩ := List.mem_map.mp hport
    exact decide_eq_true fun heq => hname (List.mem_map.mpr ⟨row, hrow, heq⟩)

theorem Serves.aclsOf {acl : String × Acl} (hacl : acl ∈ rows.acls.list) :
    Returns (holds (some rows) room) (aclsOf server acl.1) fun found s =>
      found = [acl] ∧ holds (some rows) room s := by
  refine (hserves.selectAclId rows room acl hacl).selectOne.bind fun found => returns_of_and ?_
  rintro ⟨row, rfl, hrow⟩
  exact returns_lift (Outcome.collect_cons_eq_ok.mpr ⟨acl, [], hrow.readAcl, rfl, rfl⟩)
    fun s hs => ⟨rfl, hs⟩

theorem Serves.listACLs :
    Returns (holds (some rows) room) (listACLs server lSwitch) fun acls s =>
      acls.Perm rows.acls.list ∧ holds (some rows) room s := by
  refine (hserves.selectSwitch (some rows) room).selectOne.bind fun found => returns_of_and ?_
  rintro ⟨row, rfl, hrow⟩
  obtain ⟨wire, hacls⟩ := hrow.acls
  obtain ⟨acls, hread, hperm⟩ := rows.acls.ovsUUIDSetToSlice_refs wire
  rw [← hacls] at hread
  refine returns_lift_bind hread ?_
  have hcollect := Returns.collect_map fun acl hacl =>
    hserves.aclsOf rows room (hperm.mem_iff.mp hacl)
  refine hcollect.bind fun found => returns_of_and fun hfound => .pure fun s hs => ⟨?_, hs⟩
  have hflatten : found = acls.map fun acl => [acl] := by
    rw [← List.forall₂_eq_eq_eq, List.forall₂_map_right_iff]
    exact hfound.flip
  rw [hflatten, ← List.flatMap_def, List.flatMap_singleton']
  exact hperm

theorem Serves.createACL {acl : Acl} (hacl : acl ∈ targets) :
    Returns (holds (some rows) (room + 1)) (createACL server lSwitch acl) fun _ s =>
      ∃ rows' : Rows, holds (some rows') room s ∧ rows'.ports = rows.ports ∧
        rows'.acls.list.map Prod.snd = NetworkAcl.createACL (rows.acls.list.map Prod.snd) acl := by
  refine (returns_change rfl (hserves.insertACL rows room acl hacl)).imp ?_
  rintro - s ⟨uuid, hvalid, hnew, hs⟩
  exact ⟨_, hs, rfl, List.map_append⟩

/-- What is left to delete of the rules. -/
theorem Serves.deleteEach (acl : Acl) {todo : List (String × Acl)}
    (htodo : ∀ row ∈ todo, row ∈ rows.acls.list) (hnodup : (todo.map Prod.fst).Nodup) :
    Returns (holds (some rows) room) (Procedure.forEach (deleteCovered server lSwitch acl) todo)
      fun _ s => ∃ rows' : Rows, holds (some rows') room s ∧ rows'.ports = rows.ports ∧
        rows'.acls.list = rows.acls.list.filter fun row =>
          row.1 ∉ (todo.filter fun other => acl.covers other.2).map Prod.fst := by
  induction todo generalizing rows with
  | nil => exact .pure fun s hs => ⟨rows, hs, rfl, by simp⟩
  | cons first rest ih =>
      rw [List.forall_mem_cons] at htodo
      rw [List.map_cons, List.nodup_cons] at hnodup
      by_cases hcovers : acl.covers first.2 = true
      · have hrest : ∀ row ∈ rest, row ∈ (rows.deleteAcl first.1).acls.list := by
          intro row hrow
          refine List.mem_filter.mpr ⟨htodo.2 row hrow, decide_eq_true ?_⟩
          exact fun heq => hnodup.1 (heq ▸ List.mem_map_of_mem hrow)
        have hfirst : Returns (holds (some rows) room) (deleteCovered server lSwitch acl first)
            fun _ => holds (some (rows.deleteAcl first.1)) room := by
          rw [deleteCovered, if_pos hcovers]
          exact returns_change rfl (hserves.removeACL rows room first htodo.1)
        refine hfirst.bind fun _ => (ih (rows.deleteAcl first.1) hrest hnodup.2).imp ?_
        rintro - s ⟨rows', hs, hports, hacls⟩
        refine ⟨rows', hs, hports, ?_⟩
        rw [hacls, Rows.deleteAcl, Members.delete, List.filter_filter,
          List.filter_cons_of_pos (by exact hcovers)]
        apply List.filter_congr
        intro row _
        rw [List.map_cons, Bool.eq_iff_iff]
        simp [and_comm]
      · have hfirst : Returns (holds (some rows) room) (deleteCovered server lSwitch acl first)
            fun _ => holds (some rows) room := by
          rw [deleteCovered, if_neg hcovers]
          exact .pure fun _ hs => hs
        refine hfirst.bind fun _ => (ih rows htodo.2 hnodup.2).imp ?_
        rintro - s ⟨rows', hs, hports, hacls⟩
        refine ⟨rows', hs, hports, ?_⟩
        rw [hacls, List.filter_cons_of_neg (by exact hcovers)]

theorem Serves.deleteACL (acl : Acl) :
    Returns (holds (some rows) room) (deleteACL server lSwitch acl) fun _ s =>
      ∃ rows' : Rows, holds (some rows') room s ∧ rows'.ports = rows.ports ∧
        rows'.acls.list.map Prod.snd = NetworkAcl.deleteACL (rows.acls.list.map Prod.snd) acl := by
  refine (hserves.listACLs rows room).bind fun listing => returns_of_and fun hperm => ?_
  have hmem : ∀ row ∈ listing, row ∈ rows.acls.list := fun row hrow => hperm.mem_iff.mp hrow
  have hnodup : (listing.map Prod.fst).Nodup :=
    (hperm.map Prod.fst).nodup_iff.mpr rows.acls.nodup
  refine (hserves.deleteEach rows room acl hmem hnodup).imp ?_
  rintro - s ⟨rows', hs, hports, hacls⟩
  refine ⟨rows', hs, hports, ?_⟩
  rw [hacls, NetworkAcl.deleteACL, List.filter_map]
  refine congrArg _ (List.filter_congr fun row hrow => ?_)
  rw [Bool.eq_iff_iff]
  simp only [decide_eq_true_eq, Function.comp_apply, Bool.not_eq_true', List.mem_map,
    List.mem_filter, not_exists, not_and]
  constructor
  · intro hnone
    by_contra hcovers
    exact hnone row ⟨hperm.mem_iff.mpr hrow, by simpa using hcovers⟩ rfl
  · rintro hcovers other ⟨hother, hcovered⟩ heq
    obtain rfl := List.inj_on_of_nodup_map rows.acls.nodup (hmem other hother) hrow heq
    exact Bool.false_ne_true (hcovers.symm.trans hcovered)

end Serves

end Northbound
end Di
