import Di.Northbound
import Di.OvsdbStore

/-!
# A store of the northbound database

A store of tables with the columns that the client uses serves the leader: it does what `Serves`
asks for.
-/

namespace Di
namespace Northbound

open Ovsdb
open LogicalPorts (LPort)
open NetworkAcl (Acl)
open Procedure (Returns)

def schema : Schema Table Column where
  root := fun table => table = .logicalSwitch
  references := [(.logicalSwitch, .ports, .logicalPort), (.logicalSwitch, .acls, .acl)]
  indexes := [(.logicalPort, .name)]
  initial := fun _ column =>
    match column with
    | .name | .direction | .matchText | .action => .set [.text ""]
    | .ports | .acls | .addresses => .set []
    | .priority => .set [.number 0]
    | .log => .set [.flag false]
  depth := 1

def portRow (port : String × LPort) : Row Column :=
  ⟨port.1, fun column =>
    match column with
    | .name => .set [.text port.2.name]
    | .addresses => .set (port.2.addresses.map .text)
    | column => schema.initial .logicalPort column⟩

def aclRow (acl : String × Acl) : Row Column :=
  ⟨acl.1, fun column =>
    match column with
    | .direction => .set [.text acl.2.direction]
    | .matchText => .set [.text acl.2.matchText]
    | .priority => .set [.number acl.2.priority]
    | .action => .set [.text acl.2.action]
    | .log => .set [.flag acl.2.log]
    | column => schema.initial .acl column⟩

namespace Rows

variable (rows : Rows) (id : String)

def switchRow : Row Column :=
  ⟨id, fun column =>
    match column with
    | .name => .set [.text lSwitch]
    | .ports => rows.ports.refs
    | .acls => rows.acls.refs
    | column => schema.initial .logicalSwitch column⟩

def store : Store Table Column
  | .logicalSwitch => [rows.switchRow id]
  | .logicalPort => rows.ports.list.map portRow
  | .acl => rows.acls.list.map aclRow

theorem committed : Committed schema (rows.store id) := by
  refine ⟨sweep_eq_self_iff.mpr ?_, ?_, ?_⟩
  · rintro (_ | _ | _) hroot row hrow
    · simp [schema] at hroot
    · obtain ⟨port, hport, rfl⟩ := List.mem_map.mp hrow
      exact refers_iff.mpr ⟨(.logicalSwitch, .ports, .logicalPort), by simp [schema], rfl, _,
        List.mem_singleton_self _, rows.ports.mem_refs hport⟩
    · obtain ⟨acl, hacl, rfl⟩ := List.mem_map.mp hrow
      exact refers_iff.mpr ⟨(.logicalSwitch, .acls, .acl), by simp [schema], rfl, _,
        List.mem_singleton_self _, rows.acls.mem_refs hacl⟩
  · intro reference hreference row hrow atom hatom
    simp only [schema, List.mem_cons, List.not_mem_nil, or_false] at hreference
    rcases hreference with rfl | rfl
    · obtain rfl := List.mem_singleton.mp hrow
      obtain ⟨port, hport, rfl⟩ := rows.ports.exists_of_mem_refs hatom
      exact ⟨portRow port, List.mem_map_of_mem hport, rfl⟩
    · obtain rfl := List.mem_singleton.mp hrow
      obtain ⟨acl, hacl, rfl⟩ := rows.acls.exists_of_mem_refs hatom
      exact ⟨aclRow acl, List.mem_map_of_mem hacl, rfl⟩
  · intro index hindex
    obtain rfl := List.mem_singleton.mp hindex
    have hnames : ((rows.ports.list.map fun port => port.2.name).map fun name =>
        Datum.set [.text name]).Nodup :=
      rows.names_nodup.map fun _ _ heq => by simpa using heq
    simpa [store, List.map_map, Function.comp_def, portRow] using hnames

/-! ## Transactions -/

theorem count_switch :
    ((rows.store id .logicalSwitch).countP fun row =>
      row.columns .name = .set [.text lSwitch]) = 1 := by
  simp [store, switchRow]

/-- The switch is the only row that is mutated. -/
theorem relinked_store (rows' : Rows) {child : Table} {column : Column} {mutator : Mutator}
    {uuid : String}
    (hother : ∀ table, table ≠ .logicalSwitch → table ≠ child →
      rows.store id table = rows'.store id table)
    (hcolumns : ∀ other, Function.update (rows.switchRow id).columns column
      (mutator.apply ((rows.switchRow id).columns column) (.set [.uuid uuid])) other =
        (rows'.switchRow id).columns other) :
    relinked (rows.store id) child (rows'.store id child) .logicalSwitch .name lSwitch column
      mutator uuid = rows'.store id := by
  have hname : (rows.switchRow id).columns .name = .set [.text lSwitch] := rfl
  funext table
  by_cases hswitch : table = .logicalSwitch
  · subst hswitch
    rw [relinked, Function.update_self, store, List.map_singleton, if_pos hname, funext hcolumns]
    rfl
  · rw [relinked, Function.update_of_ne hswitch]
    by_cases hchild : table = child
    · subst hchild
      exact Function.update_self ..
    · rw [Function.update_of_ne hchild, hother table hswitch hchild]

theorem relinked_ports (rows' : Rows) (hacls : rows'.acls = rows.acls) {mutator : Mutator}
    {uuid : String} (hrefs : mutator.apply rows.ports.refs (.set [.uuid uuid]) = rows'.ports.refs) :
    relinked (rows.store id) .logicalPort (rows'.store id .logicalPort) .logicalSwitch .name
      lSwitch .ports mutator uuid = rows'.store id := by
  apply rows.relinked_store id rows'
  · rintro (_ | _ | _) hswitch hport
    · exact absurd rfl hswitch
    · exact absurd rfl hport
    · rw [store, store, hacls]
  · rintro (_ | _) <;> simp [switchRow, hrefs, hacls, Function.update]

theorem relinked_acls (rows' : Rows) (hports : rows'.ports = rows.ports) {mutator : Mutator}
    {uuid : String} (hrefs : mutator.apply rows.acls.refs (.set [.uuid uuid]) = rows'.acls.refs) :
    relinked (rows.store id) .acl (rows'.store id .acl) .logicalSwitch .name lSwitch .acls
      mutator uuid = rows'.store id := by
  apply rows.relinked_store id rows'
  · rintro (_ | _ | _) hswitch hacl
    · exact absurd rfl hswitch
    · rw [store, store, hports]
    · exact absurd rfl hacl
  · rintro (_ | _) <;> simp [switchRow, hrefs, hports, Function.update]

def ids : List String := rows.ports.ids ++ rows.acls.ids

end Rows

/-! ## The server -/

/-- Contents that have the rows and enough identifiers. -/
inductive Stored : Option Rows → ℕ → Contents Table Column → Prop
  | none {room : ℕ} {supply : List String} (hroom : room ≤ supply.length)
      (hsupplies : Supplies supply []) : Stored none room ⟨fun _ => [], supply⟩
  | some {rows : Rows} {room : ℕ} (id : String) {supply : List String}
      (hroom : room ≤ supply.length) (hsupplies : Supplies supply rows.ids) :
      Stored (some rows) room ⟨rows.store id, supply⟩

namespace Stored

variable {wire : Wire} {rows : Rows} {room : ℕ}

theorem fewer {db : Option Rows} {s : Contents Table Column} (hs : Stored db (room + 1) s) :
    Stored db room s := by
  cases hs with
  | none hroom hsupplies => exact .none (by omega) hsupplies
  | some id hroom hsupplies => exact .some id (by omega) hsupplies

theorem committed {db : Option Rows} {s : Contents Table Column} (hs : Stored db room s) :
    Committed schema s.store := by
  cases hs with
  | none _ _ => exact committed_empty schema
  | some id _ _ => exact Rows.committed _ id

/-- The identifier that the next row gets. -/
theorem exists_uuid {s : Contents Table Column} (hs : Stored (.some rows) (room + 1) s) :
    ∃ id uuid supply, s = ⟨rows.store id, uuid :: supply⟩ ∧ room ≤ supply.length ∧
      Supplies (uuid :: supply) rows.ids ∧ validUUID uuid = true ∧ uuid ∉ rows.ports.ids ∧
      uuid ∉ rows.acls.ids := by
  cases hs with
  | @some _ _ id supply hroom hsupplies =>
      obtain ⟨uuid, rest, rfl⟩ := List.exists_cons_of_length_pos (by omega : 0 < supply.length)
      rw [List.length_cons] at hroom
      have hnew := hsupplies.new uuid List.mem_cons_self
      rw [Rows.ids, List.mem_append, not_or] at hnew
      exact ⟨id, uuid, rest, rfl, by omega, hsupplies, hsupplies.valid uuid List.mem_cons_self,
        hnew.1, hnew.2⟩

theorem selectSwitch (db : Option Rows) : (schema.server wire).Shows (Stored db room)
    .logicalSwitch [textIs .name lSwitch] Rows.Shown db.toList := by
  refine shows_of_filter fun s hs => ⟨hs.committed, ?_⟩
  cases hs with
  | none _ _ => exact ⟨fun rows => rows.switchRow "", rfl, fun rows => ⟨⟨wire, rfl⟩, ⟨wire, rfl⟩⟩⟩
  | some id _ _ =>
      refine ⟨fun rows => rows.switchRow id, ?_, fun rows => ⟨⟨wire, rfl⟩, ⟨wire, rfl⟩⟩⟩
      simp [Rows.store, Rows.switchRow]

theorem portShown (port : String × LPort) : PortShown port (wire.row (portRow port)) :=
  ⟨rfl, wire.datum_singleton _, wire, rfl⟩

theorem aclShown (acl : String × Acl) : AclShown acl (wire.row (aclRow acl)) :=
  ⟨rfl, wire.datum_singleton _, wire.datum_singleton _, wire.datum_singleton _,
    wire.datum_singleton _, wire.datum_singleton _⟩

theorem selectPort (name : String) : (schema.server wire).Shows (Stored (.some rows) room)
    .logicalPort [textIs .name name] PortShown
    (rows.ports.list.filter fun port => port.2.name = name) := by
  refine shows_of_filter fun s hs => ⟨hs.committed, portRow, ?_, portShown⟩
  cases hs with
  | some id _ _ => exact filter_text (fun _ => rfl) _ rows.ports.list name

theorem selectPortId {port : String × LPort} (hport : port ∈ rows.ports.list) :
    (schema.server wire).Shows (Stored (.some rows) room) .logicalPort [uuidIs port.1] PortShown
      [port] := by
  refine shows_of_filter fun s hs => ⟨hs.committed, portRow, ?_, portShown⟩
  cases hs with
  | some id _ _ =>
      exact @filter_uuid _ _ _ portRow _ rows.ports.nodup port hport
        (rows.ports.valid port.1 (List.mem_map_of_mem hport))

theorem selectAclId {acl : String × Acl} (hacl : acl ∈ rows.acls.list) :
    (schema.server wire).Shows (Stored (.some rows) room) .acl [uuidIs acl.1] AclShown [acl] := by
  refine shows_of_filter fun s hs => ⟨hs.committed, aclRow, ?_, aclShown⟩
  cases hs with
  | some id _ _ =>
      exact @filter_uuid _ _ _ aclRow _ rows.acls.nodup acl hacl
        (rows.acls.valid acl.1 (List.mem_map_of_mem hacl))

theorem insertSwitch : Returns (Stored .none (room + 1))
    ((schema.server wire).request (insertSwitch lSwitch)) fun results s =>
      results = [{}] ∧ Stored (.some .empty) room s := by
  intro s hs
  cases hs with
  | @none _ supply hroom hsupplies =>
      obtain ⟨uuid, rest, rfl⟩ := List.exists_cons_of_length_pos (by omega : 0 < supply.length)
      rw [List.length_cons] at hroom
      have hstore : ∀ names : Names, Function.update (fun _ => []) Table.logicalSwitch
          [(⟨uuid, assign names (schema.initial .logicalSwitch) [(.name, .set [.text lSwitch])]⟩ :
            Row Column)] = Rows.empty.store uuid := by
        intro names
        funext table
        cases table with
        | logicalSwitch =>
            refine congrArg (fun columns => [Row.mk uuid columns]) (funext fun column => ?_)
            cases column <;> rfl
        | logicalPort => rfl
        | acl => rfl
      have htransact : transact schema wire (Northbound.insertSwitch lSwitch)
          ⟨fun _ => [], uuid :: rest⟩ = ([{}], ⟨Rows.empty.store uuid, rest⟩) := by
        refine transact_of_run ?_ (by simp) (Rows.empty.committed uuid).commit
        simp [Northbound.insertSwitch, Operation.perform, hstore]
      refine ⟨_, _, [], request_eq htransact, rfl, .some uuid (by omega) ?_⟩
      exact hsupplies.tail (by simp [Rows.ids, Rows.empty, Members.ids, Members.empty])

theorem insertPort (name mac ip : String)
    (hname : name ∉ rows.ports.list.map fun port => port.2.name) :
    Returns (Stored (.some rows) (room + 1))
      ((schema.server wire).request (insertPort lSwitch name mac ip)) fun results s =>
        results = [{}, { count := 1 }] ∧ ∃ uuid hvalid hnew, Stored
          (.some (rows.addPort uuid ⟨name, [mac ++ " " ++ ip]⟩ hvalid hnew hname)) room s := by
  intro s hs
  obtain ⟨id, uuid, supply, rfl, hroom, hsupplies, hvalid, hnew, -⟩ := hs.exists_uuid
  have hrow : ∀ names : Names, (⟨uuid, assign names (schema.initial .logicalPort)
      [(.name, .set [.text name]), (.addresses, .set [.text (mac ++ " " ++ ip)])]⟩ : Row Column) =
        portRow (uuid, ⟨name, [mac ++ " " ++ ip]⟩) := by
    intro names
    refine congrArg (Row.mk uuid) (funext fun column => ?_)
    cases column <;> rfl
  have htransact := transact_attach wire (by decide) Column.name lSwitch Column.ports
    supply (show validUUID "dilportadd" = false by decide) hrow
    (@List.map_append _ _ portRow rows.ports.list [_]).symm
    (rows.relinked_ports id (rows.addPort uuid _ hvalid hnew hname) rfl
      (rows.ports.insert_refs uuid _ hvalid hnew)) (Rows.committed _ id)
  rw [rows.count_switch] at htransact
  refine ⟨_, _, [], request_eq htransact, rfl, uuid, hvalid, hnew, .some id hroom ?_⟩
  apply hsupplies.tail
  intro id hid
  simp only [Rows.ids, Rows.addPort, Members.ids_add, List.mem_append, List.mem_singleton]
    at hid ⊢
  tauto

theorem removePort {port : String × LPort} (hport : port ∈ rows.ports.list) :
    Returns (Stored (.some rows) room) ((schema.server wire).request (removePort lSwitch port.1))
      fun results s => results = [{ count := 1 }, { count := 1 }] ∧
        Stored (.some (rows.deletePort port.1)) room s := by
  intro s hs
  cases hs with
  | @some _ _ id supply hroom hsupplies =>
      have hcount : (rows.store id .logicalPort).countP (fun row => row.uuid = port.1) = 1 :=
        @countP_uuid _ _ portRow _ rows.ports.nodup port hport
      have htransact := transact_detach wire (by decide) Column.name lSwitch Column.ports
        supply (rows.ports.valid port.1 (List.mem_map_of_mem hport)) List.filter_map
        (rows.relinked_ports id (rows.deletePort port.1) rfl (rows.ports.delete_refs port.1))
        (Rows.committed _ id)
      rw [rows.count_switch, hcount] at htransact
      refine ⟨_, _, [], request_eq htransact, rfl, .some id hroom (hsupplies.mono fun other => ?_)⟩
      simp only [Rows.ids, List.mem_append]
      exact Or.imp_left rows.ports.ids_delete

theorem insertACL (acl : Acl) :
    Returns (Stored (.some rows) (room + 1)) ((schema.server wire).request (insertACL lSwitch acl))
      fun results s => results = [{}, { count := 1 }] ∧ ∃ uuid hvalid hnew,
        Stored (.some (rows.addAcl uuid acl.stored hvalid hnew)) room s := by
  intro s hs
  obtain ⟨id, uuid, supply, rfl, hroom, hsupplies, hvalid, -, hnew⟩ := hs.exists_uuid
  have hrow : ∀ names : Names,
      (⟨uuid, assign names (schema.initial .acl) (aclColumns acl)⟩ : Row Column) =
        aclRow (uuid, acl.stored) := by
    intro names
    unfold aclRow aclColumns Acl.stored
    refine congrArg (Row.mk uuid) (funext fun column => ?_)
    split <;> split <;> cases column <;> rfl
  have htransact := transact_attach wire (by decide) Column.name lSwitch Column.acls
    supply (show validUUID "diacladd" = false by decide) hrow
    (@List.map_append _ _ aclRow rows.acls.list [_]).symm
    (rows.relinked_acls id (rows.addAcl uuid _ hvalid hnew) rfl
      (rows.acls.insert_refs uuid _ hvalid hnew)) (Rows.committed _ id)
  rw [rows.count_switch] at htransact
  refine ⟨_, _, [], request_eq htransact, rfl, uuid, hvalid, hnew, .some id hroom ?_⟩
  apply hsupplies.tail
  intro id hid
  simp only [Rows.ids, Rows.addAcl, Members.ids_add, List.mem_append, List.mem_singleton] at hid ⊢
  tauto

theorem removeACL {acl : String × Acl} (hacl : acl ∈ rows.acls.list) :
    Returns (Stored (.some rows) room) ((schema.server wire).request (removeACL lSwitch acl.1))
      fun results s => results = [{ count := 1 }, { count := 1 }] ∧
        Stored (.some (rows.deleteAcl acl.1)) room s := by
  intro s hs
  cases hs with
  | @some _ _ id supply hroom hsupplies =>
      have hcount : (rows.store id .acl).countP (fun row => row.uuid = acl.1) = 1 :=
        @countP_uuid _ _ aclRow _ rows.acls.nodup acl hacl
      have htransact := transact_detach wire (by decide) Column.name lSwitch Column.acls
        supply (rows.acls.valid acl.1 (List.mem_map_of_mem hacl)) List.filter_map
        (rows.relinked_acls id (rows.deleteAcl acl.1) rfl (rows.acls.delete_refs acl.1))
        (Rows.committed _ id)
      rw [rows.count_switch, hcount] at htransact
      refine ⟨_, _, [], request_eq htransact, rfl, .some id hroom (hsupplies.mono fun other => ?_)⟩
      simp only [Rows.ids, List.mem_append]
      exact Or.imp_right rows.acls.ids_delete

end Stored

/-- A store of tables serves the leader. -/
theorem stored_serves (wire : Wire) (targets : List Acl) :
    Serves (schema.server wire) Stored targets where
  fewer := Stored.fewer
  connect := fun _ _ s hs => ⟨(), s, [], rfl, hs⟩
  selectSwitch := fun db _ => Stored.selectSwitch db
  selectPort := fun _ _ name => Stored.selectPort name
  selectPortId := fun _ _ _ hport => Stored.selectPortId hport
  selectAclId := fun _ _ _ hacl => Stored.selectAclId hacl
  insertSwitch := fun _ => Stored.insertSwitch
  insertPort := fun _ _ name mac ip hname => Stored.insertPort name mac ip hname
  removePort := fun _ _ _ hport => Stored.removePort hport
  insertACL := fun _ _ acl _ => Stored.insertACL acl
  removeACL := fun _ _ _ hacl => Stored.removeACL hacl

end Northbound
end Di
