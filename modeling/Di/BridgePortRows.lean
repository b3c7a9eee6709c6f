import Di.BridgePorts

/-!
# The rows of the bridges

A database with bridges and their ports, each with its interface.  `Serves` says what the
transactions of the client are assumed to do to it: rows are found by their columns, a port is
added together with its interface, the interface goes with its port, and an entry of a map that is
there already is not replaced.  From this follows what each call of the client does.
-/

namespace Di
namespace BridgePorts

open Db Ovsdb
open Procedure (Returns returns_of_and)

/-- The bridges that a worker looks after. -/
def ownBridges : List String := [diBridge, ovnBridge]

/-- What a port and its interface hold. -/
structure Attrs where
  name : String
  bridge : String
  type : String
  options : Entries
  externalIds : Entries

structure Port extends Attrs where
  uuid : String
  iface : String

@[ext]
structure Rows where
  bridges : List String
  ports : List Port
  bridges_nodup : bridges.Nodup
  homes : ∀ port ∈ ports, port.bridge ∈ bridges
  ports_nodup : (ports.map Port.uuid).Nodup
  ifaces_nodup : (ports.map Port.iface).Nodup
  names_nodup : (ports.map fun port => port.name).Nodup
  valid : ∀ port ∈ ports, validUUID port.uuid = true ∧ validUUID port.iface = true

/-- A port as it is created. -/
def Attrs.plain (bridge name : String) : Attrs := ⟨name, bridge, "", .empty, .empty⟩

/-- A change of an interface that leaves the port what it is. -/
structure Keeps (f : Attrs → Attrs) : Prop where
  name : ∀ attrs, (f attrs).name = attrs.name
  bridge : ∀ attrs, (f attrs).bridge = attrs.bridge

def Attrs.at (name : String) (f : Attrs → Attrs) (attrs : Attrs) : Attrs :=
  if attrs.name = name then f attrs else attrs

theorem Keeps.at {f : Attrs → Attrs} (hkeeps : Keeps f) (name : String) :
    Keeps (Attrs.at name f) where
  name := by
    intro attrs
    unfold Attrs.at
    split
    · exact hkeeps.name attrs
    · rfl
  bridge := by
    intro attrs
    unfold Attrs.at
    split
    · exact hkeeps.bridge attrs
    · rfl

theorem Keeps.id : Keeps id := ⟨fun _ => rfl, fun _ => rfl⟩

theorem keeps_ite {f : Attrs → Attrs} (hf : Keeps f) (c : Prop) [Decidable c] :
    Keeps (if c then f else id) := by
  split
  · exact hf
  · exact .id

theorem Keeps.comp {f g : Attrs → Attrs} (hg : Keeps g) (hf : Keeps f) : Keeps (g ∘ f) :=
  ⟨fun attrs => (hg.name _).trans (hf.name attrs),
    fun attrs => (hg.bridge _).trans (hf.bridge attrs)⟩

def Port.map (f : Attrs → Attrs) (port : Port) : Port := ⟨f port.toAttrs, port.uuid, port.iface⟩

namespace Rows

variable (rows : Rows)

def idsOn (bridge : String) : List String :=
  (rows.ports.filter fun port => port.bridge = bridge).map Port.uuid

/-! ## Changes of the rows -/

structure Fresh (port : Port) : Prop where
  bridge : port.bridge ∈ rows.bridges
  uuid : port.uuid ∉ rows.ports.map Port.uuid
  iface : port.iface ∉ rows.ports.map Port.iface
  name : port.name ∉ rows.ports.map fun port => port.name
  valid : validUUID port.uuid = true ∧ validUUID port.iface = true

def addPort (port : Port) (hfresh : rows.Fresh port) : Rows where
  bridges := rows.bridges
  ports := rows.ports ++ [port]
  bridges_nodup := rows.bridges_nodup
  homes := List.forall_mem_append.mpr ⟨rows.homes, by simpa using hfresh.bridge⟩
  ports_nodup := nodup_map_concat rows.ports_nodup hfresh.uuid
  ifaces_nodup := nodup_map_concat rows.ifaces_nodup hfresh.iface
  names_nodup := nodup_map_concat rows.names_nodup hfresh.name
  valid := List.forall_mem_append.mpr ⟨rows.valid, by simpa using hfresh.valid⟩

def deletePort (port : Port) : Rows where
  bridges := rows.bridges
  ports := rows.ports.filter fun other => other.uuid ≠ port.uuid
  bridges_nodup := rows.bridges_nodup
  homes := fun other hother => rows.homes other (List.mem_of_mem_filter hother)
  ports_nodup := (List.filter_sublist.map _).nodup rows.ports_nodup
  ifaces_nodup := (List.filter_sublist.map _).nodup rows.ifaces_nodup
  names_nodup := (List.filter_sublist.map _).nodup rows.names_nodup
  valid := fun other hother => rows.valid other (List.mem_of_mem_filter hother)

/-- The interface with a name is changed. -/
def change (name : String) {f : Attrs → Attrs} (hkeeps : Keeps f) : Rows where
  bridges := rows.bridges
  ports := rows.ports.map (Port.map (Attrs.at name f))
  bridges_nodup := rows.bridges_nodup
  homes := by
    intro port hport
    obtain ⟨old, hold, rfl⟩ := List.mem_map.mp hport
    rw [Port.map, (hkeeps.at name).bridge]
    exact rows.homes old hold
  ports_nodup := by simpa [Function.comp_def, Port.map] using rows.ports_nodup
  ifaces_nodup := by simpa [Function.comp_def, Port.map] using rows.ifaces_nodup
  names_nodup := by
    simpa [Function.comp_def, Port.map, (hkeeps.at name).name] using rows.names_nodup
  valid := by
    intro port hport
    obtain ⟨old, hold, rfl⟩ := List.mem_map.mp hport
    exact rows.valid old hold

@[simp] theorem change_ports (name : String) {f : Attrs → Attrs} (hkeeps : Keeps f) :
    (rows.change name hkeeps).ports = rows.ports.map (Port.map (Attrs.at name f)) := rfl

theorem name_eq_iff {port other : Port} (hport : port ∈ rows.ports) (hother : other ∈ rows.ports) :
    other.name = port.name ↔ other.uuid = port.uuid := by
  constructor
  · intro heq
    rw [List.inj_on_of_nodup_map rows.names_nodup hother hport heq]
  · intro heq
    rw [List.inj_on_of_nodup_map rows.ports_nodup hother hport heq]

end Rows

def Attrs.setType (type : String) (attrs : Attrs) : Attrs := { attrs with type := type }

def Attrs.addOption (key value : String) (attrs : Attrs) : Attrs :=
  { attrs with options := attrs.options.insert key value }

def Attrs.addExternalId (key value : String) (attrs : Attrs) : Attrs :=
  { attrs with externalIds := attrs.externalIds.insert key value }

theorem Attrs.setType_keeps (type : String) : Keeps (Attrs.setType type) :=
  ⟨fun _ => rfl, fun _ => rfl⟩

theorem Attrs.addOption_keeps (key value : String) : Keeps (Attrs.addOption key value) :=
  ⟨fun _ => rfl, fun _ => rfl⟩

theorem Attrs.addExternalId_keeps (key value : String) : Keeps (Attrs.addExternalId key value) :=
  ⟨fun _ => rfl, fun _ => rfl⟩

/-! ## The server -/

/-- A row of a bridge as it is written in a reply. -/
def BridgeShown (ids : List String) (row : JsonRow Column) : Prop :=
  ∃ wire : Wire, row.columns .ports = wire.datum (.set (ids.map .uuid))

structure PortShown (port : Port) (row : JsonRow Column) : Prop where
  uuid : row.uuid = .ofAtom (.uuid port.uuid)
  name : row.columns .name = .ofAtom (.text port.name)
  interfaces : row.columns .interfaces = .ofAtom (.uuid port.iface)

structure InterfaceShown (attrs : Attrs) (row : JsonRow Column) : Prop where
  name : row.columns .name = .ofAtom (.text attrs.name)
  type : row.columns .type = .ofAtom (.text attrs.type)
  options : ∃ wire : Wire, row.columns .options = wire.datum attrs.options.datum
  externalIds : ∃ wire : Wire, row.columns .externalIds = wire.datum attrs.externalIds.datum

/-- What a pass over the ports relies on.  A state of the server has rows and a number of
identifiers that can be given out. -/
structure Serves {σ : Type} (server : Server Table Column σ) (holds : Rows → ℕ → σ → Prop) :
    Prop where
  fewer : ∀ {rows room s}, holds rows (room + 1) s → holds rows room s
  connect : ∀ rows room, Returns (holds rows room) server.dial fun _ => holds rows room
  selectBridge : ∀ rows room, ∀ bridge ∈ rows.bridges,
    server.Shows (holds rows room) .bridge [textIs .name bridge] BridgeShown [rows.idsOn bridge]
  selectPort : ∀ rows room name, server.Shows (holds rows room) .port [textIs .name name] PortShown
    (rows.ports.filter fun port => port.name = name)
  selectPortId : ∀ rows room, ∀ port ∈ rows.ports,
    server.Shows (holds rows room) .port [uuidIs port.uuid] PortShown [port]
  selectInterface : ∀ rows room, ∀ port ∈ rows.ports,
    server.Shows (holds rows room) .interface [uuidIs port.iface] InterfaceShown [port.toAttrs]
  insertPort : ∀ (rows : Rows) room, ∀ bridge ∈ rows.bridges,
    ∀ name ∉ rows.ports.map fun port => port.name,
    Returns (holds rows (room + 2)) (server.request (insertPort bridge name)) fun results s =>
      results = [{}, {}, { count := 1 }] ∧ ∃ (uuid iface : String)
        (hfresh : rows.Fresh ⟨.plain bridge name, uuid, iface⟩),
        holds (rows.addPort _ hfresh) room s
  /-- The interface is collected with its port. -/
  removePort : ∀ rows room, ∀ port ∈ rows.ports, Returns (holds rows room)
    (server.request (removePort port.bridge port.name port.uuid)) fun results s =>
      results = [{ count := 1 }, { count := 1 }] ∧ holds (rows.deletePort port) room s
  updateType : ∀ (rows : Rows) room type, ∀ name ∈ rows.ports.map fun port => port.name,
    Returns (holds rows room) (server.request (updateType name type)) fun results s =>
      results = [{ count := 1 }] ∧ holds (rows.change name (Attrs.setType_keeps type)) room s
  /-- An entry is added only if its key is not there already. -/
  insertOption : ∀ (rows : Rows) room key value, ∀ name ∈ rows.ports.map fun port => port.name,
    Returns (holds rows room) (server.request (insertEntry name .options key value))
      fun results s => results = [{ count := 1 }] ∧
        holds (rows.change name (Attrs.addOption_keeps key value)) room s
  insertExternalId : ∀ (rows : Rows) room key value,
    ∀ name ∈ rows.ports.map fun port => port.name,
    Returns (holds rows room) (server.request (insertEntry name .externalIds key value))
      fun results s => results = [{ count := 1 }] ∧
        holds (rows.change name (Attrs.addExternalId_keeps key value)) room s

/-! ## Changes of an interface -/

/-- A call that changes the interface with a name. -/
structure Changes {σ : Type} (holds : Rows → ℕ → σ → Prop) (name : String) (call : Call σ Unit)
    (f : Attrs → Attrs) : Prop where
  keeps : Keeps f
  returns : ∀ (rows : Rows) room, name ∈ rows.ports.map (fun port => port.name) →
    Returns (holds rows room) call fun _ => holds (rows.change name keeps) room

namespace Changes

variable {σ : Type} {holds : Rows → ℕ → σ → Prop} {name : String} {call next : Call σ Unit}
  {f g : Attrs → Attrs}

theorem skip (name : String) : Changes holds name (pure ()) id where
  keeps := .id
  returns := by
    intro rows room _
    have hmap : Port.map (Attrs.at name id) = id := by
      funext port
      simp [Port.map, Attrs.at]
    have hrows : rows.change name Keeps.id = rows := by
      refine Rows.ext rfl ?_
      rw [Rows.change_ports, hmap, List.map_id]
    rw [hrows]
    exact .pure fun _ hs => hs

theorem bind (hcall : Changes holds name call f) (hnext : Changes holds name next g) :
    Changes holds name (call >>= fun _ => next) (g ∘ f) where
  keeps := hnext.keeps.comp hcall.keeps
  returns := by
    intro rows room hname
    have hmap : Port.map (Attrs.at name g) ∘ Port.map (Attrs.at name f) =
        Port.map (Attrs.at name (g ∘ f)) := by
      funext port
      by_cases heq : port.name = name
      · simp [Port.map, Attrs.at, heq, hcall.keeps.name]
      · simp [Port.map, Attrs.at, heq]
    have hname' : name ∈ (rows.change name hcall.keeps).ports.map
        fun port => port.name := by
      simpa [Function.comp_def, Port.map, (hcall.keeps.at name).name] using hname
    have hrows : (rows.change name hcall.keeps).change name hnext.keeps =
        rows.change name (hnext.keeps.comp hcall.keeps) := by
      refine Rows.ext rfl ?_
      rw [Rows.change_ports, Rows.change_ports, Rows.change_ports, List.map_map, hmap]
    rw [← hrows]
    exact (hcall.returns rows room hname).bind fun _ => hnext.returns _ room hname'

theorem onlyIf (hcall : Changes holds name call f) (c : Prop) [Decidable c] :
    Changes holds name (onlyIf c call) (if c then f else id) := by
  unfold BridgePorts.onlyIf
  split
  · exact hcall
  · exact skip name

theorem mapError (hcall : Changes holds name call f) (msg : Failure → Failure) :
    Changes holds name (Procedure.mapError msg call) f :=
  ⟨hcall.keeps, fun rows room hname => (hcall.returns rows room hname).mapError msg⟩

end Changes

/-- What becomes of an interface that is read as `current`. -/
def Attrs.become (current target : OvsPort) : Attrs → Attrs :=
  (if current.ifaceID ≠ target.ifaceID ∧ target.ifaceID ≠ "" then
    Attrs.addExternalId "iface-id" target.ifaceID else id) ∘
  (if current.attachedMAC ≠ target.attachedMAC ∧ target.attachedMAC ≠ "" then
    Attrs.addExternalId "attached-mac" target.attachedMAC else id) ∘
  (if current.peer ≠ target.peer ∧ target.peer ≠ "" then
    Attrs.addOption "peer" target.peer else id) ∘
  (if current.patch ≠ target.patch ∧ target.patch then
    Attrs.setType ifaceTypePatch else id)

theorem become_keeps (current target : OvsPort) : Keeps (Attrs.become current target) :=
  (keeps_ite (Attrs.addExternalId_keeps _ _) _).comp <|
    (keeps_ite (Attrs.addExternalId_keeps _ _) _).comp <|
      (keeps_ite (Attrs.addOption_keeps _ _) _).comp (keeps_ite (Attrs.setType_keeps _) _)

/-! ## What is read back -/

def Attrs.config (attrs : Attrs) : OvsPort :=
  ⟨attrs.name, attrs.bridge, attrs.type = ifaceTypePatch, (attrs.options.get "peer").getD "",
    (attrs.externalIds.get "attached-mac").getD "", (attrs.externalIds.get "iface-id").getD ""⟩

theorem getFromMapInRow_datum (wire : Wire) (entries : Entries) (columnName key : String) :
    orZero (getFromMapInRow (wire.datum entries.datum) columnName key) =
      .ok ((entries.get key).getD "") := by
  obtain ⟨visited, hvisited, hperm⟩ := Entries.ovsStringMapToMap_datum wire entries
  have hget := entries.lookup_of_perm (visited.reverse_perm.trans hperm) key
  unfold getFromMapInRow
  rw [hvisited]
  dsimp only [bind, Outcome.bind]
  rw [hget]
  cases entries.get key with
  | none => rfl -- the key is reported to be missing
  | some value => rfl

theorem InterfaceShown.configOf {attrs : Attrs} {row : JsonRow Column}
    (hshown : InterfaceShown attrs row) :
    configOf attrs.bridge attrs.name row = .ok attrs.config := by
  obtain ⟨wire, hoptions⟩ := hshown.options
  obtain ⟨wire', hexternalIds⟩ := hshown.externalIds
  have htype : orZero (getOFInterfaceType row) = .ok attrs.type := by
    rw [getOFInterfaceType, hshown.type]
    rfl
  unfold BridgePorts.configOf getOFInterfacePeer getOFInterfaceAttachedMAC getOFInterfaceIfaceID
  rw [hoptions, hexternalIds]
  refine Outcome.bind_eq_ok.mpr ⟨_, htype, ?_⟩
  refine Outcome.bind_eq_ok.mpr ⟨_, getFromMapInRow_datum wire attrs.options _ _, ?_⟩
  refine Outcome.bind_eq_ok.mpr ⟨_, getFromMapInRow_datum wire' attrs.externalIds _ _, ?_⟩
  exact Outcome.bind_eq_ok.mpr ⟨_, getFromMapInRow_datum wire' attrs.externalIds _ _, rfl⟩

/-! ## What the calls do -/

section Serves

variable {σ : Type} {server : Server Table Column σ} {holds : Rows → ℕ → σ → Prop}
  (hserves : Serves server holds)
include hserves

theorem Serves.modPort (current target : OvsPort) :
    Changes holds target.name (modPort server current target) (Attrs.become current target) := by
  have htype : Changes holds target.name (setOFInterfaceType server target.name ifaceTypePatch)
      (Attrs.setType ifaceTypePatch) :=
    Changes.mapError ⟨Attrs.setType_keeps _, fun rows room hname =>
      returns_change rfl (hserves.updateType rows room _ _ hname)⟩ _
  have hpeer : Changes holds target.name (setOFInterfacePeer server target.name target.peer)
      (Attrs.addOption "peer" target.peer) :=
    Changes.mapError ⟨Attrs.addOption_keeps _ _, fun rows room hname =>
      returns_change rfl (hserves.insertOption rows room _ _ _ hname)⟩ _
  have hexternal : ∀ key value, Changes holds target.name
      (addToOFInterface server target.name .externalIds key value)
      (Attrs.addExternalId key value) := fun key value =>
    ⟨Attrs.addExternalId_keeps key value, fun rows room hname =>
      returns_change rfl (hserves.insertExternalId rows room key value _ hname)⟩
  exact ((htype.mapError _).onlyIf _).bind <| ((hpeer.mapError _).onlyIf _).bind <|
    ((((hexternal "attached-mac" target.attachedMAC).mapError _).mapError _).onlyIf _).bind <|
      (((hexternal "iface-id" target.ifaceID).mapError _).mapError _).onlyIf _

variable (rows : Rows) (room : ℕ)

theorem Serves.createOFPort {bridge name : String} (hbridge : bridge ∈ rows.bridges)
    (hname : name ∉ rows.ports.map fun port => port.name) :
    Returns (holds rows (room + 2)) (createOFPort server bridge name) fun _ s =>
      ∃ (uuid iface : String) (hfresh : rows.Fresh ⟨.plain bridge name, uuid, iface⟩),
        holds (rows.addPort _ hfresh) room s := by
  refine ((hserves.insertPort rows room bridge hbridge name hname).mapError _).bind fun results =>
    returns_of_and ?_
  rintro rfl
  apply Returns.mapError
  exact returns_lift rfl fun _ hs => hs

theorem Serves.deleteOFPort {port : Port} (hport : port ∈ rows.ports) :
    Returns (holds rows room) (deleteOFPort server port.bridge port.name) fun _ =>
      holds (rows.deletePort port) room := by
  have hselect := hserves.selectPort rows room port.name
  rw [filter_key_eq_singleton rows.names_nodup hport] at hselect
  refine hselect.selectOne.bind fun found => returns_of_and ?_
  rintro ⟨row, rfl, hrow⟩
  refine returns_lift_bind (by rw [hrow.uuid]; rfl) ?_
  exact returns_change rfl (hserves.removePort rows room port hport)

theorem Serves.deleteOFPort_none (bridge : String) {name : String}
    (hname : name ∉ rows.ports.map fun port => port.name) :
    Returns (holds rows room) (BridgePorts.deleteOFPort server bridge name) fun _ =>
      holds rows room := by
  have hselect := hserves.selectPort rows room name
  rw [filter_key_eq_nil hname] at hselect
  refine hselect.selectRows.bind fun found => returns_of_and fun hfound => ?_
  rw [List.forall₂_nil_left_iff.mp hfound]
  exact .pure fun _ hs => hs

theorem Serves.getDefaultOFInterface {port : Port} (hport : port ∈ rows.ports) :
    Returns (holds rows room) (getDefaultOFInterface server port.name) fun row s =>
      InterfaceShown port.toAttrs row ∧ holds rows room s := by
  have hselect := hserves.selectPort rows room port.name
  rw [filter_key_eq_singleton rows.names_nodup hport] at hselect
  refine hselect.selectOne.bind fun found => returns_of_and ?_
  rintro ⟨row, rfl, hrow⟩
  refine returns_lift_bind (by rw [hrow.interfaces]; rfl) ?_
  refine (hserves.selectInterface rows room port hport).selectOne.bind fun found =>
    returns_of_and ?_
  rintro ⟨iface, rfl, hiface⟩
  refine returns_lift_bind (by rw [hiface.name]; rfl) ?_
  rw [if_pos rfl]
  exact .pure fun _ hs => ⟨hiface, hs⟩

theorem Serves.populatePortConfig {port : Port} (hport : port ∈ rows.ports) :
    Returns (holds rows room) (populatePortConfig server port.bridge port.name) fun config s =>
      config = port.config ∧ holds rows room s := by
  refine (hserves.getDefaultOFInterface rows room hport).bind fun row =>
    returns_of_and fun hrow => ?_
  exact returns_lift hrow.configOf fun _ hs => ⟨rfl, hs⟩

theorem Serves.portName {port : Port} (hport : port ∈ rows.ports) :
    Returns (holds rows room) (portName server port.uuid) fun name s =>
      name = port.name ∧ holds rows room s := by
  refine (hserves.selectPortId rows room port hport).selectOne.bind fun found => returns_of_and ?_
  rintro ⟨row, rfl, hrow⟩
  exact returns_lift (by rw [hrow.name]; rfl) fun _ hs => ⟨rfl, hs⟩

theorem Serves.listOFPorts {bridge : String} (hbridge : bridge ∈ rows.bridges) :
    Returns (holds rows room) (listOFPorts server bridge) fun names s =>
      (∃ ports : List Port, names = (ports.map fun port => port.name) ∧
        ports.Perm (rows.ports.filter fun port => port.bridge = bridge)) ∧ holds rows room s := by
  refine (hserves.selectBridge rows room bridge hbridge).selectOne.bind fun found =>
    returns_of_and ?_
  rintro ⟨row, rfl, wire, hrow⟩
  obtain ⟨visited, hvisited, hperm⟩ := ovsUUIDSetToSlice_datum wire (rows.idsOn bridge)
  obtain ⟨ports, rfl, hports⟩ := exists_map_eq_of_perm hperm
  rw [← hrow] at hvisited
  refine returns_lift_bind hvisited ?_
  refine (Returns.collect_map fun port hport => hserves.portName rows room
    (List.mem_of_mem_filter (hports.mem_iff.mp hport))).imp ?_
  rintro names s ⟨hnames, hs⟩
  refine ⟨⟨ports, ?_, hports⟩, hs⟩
  rw [← List.forall₂_eq_eq_eq, List.forall₂_map_right_iff]
  exact hnames.flip

theorem Serves.portsOn {bridge : String} (hbridge : bridge ∈ rows.bridges) :
    Returns (holds rows room) (portsOn server bridge) fun configs s =>
      configs.Perm ((rows.ports.filter fun port => port.bridge = bridge).map fun port =>
        port.config) ∧ holds rows room s := by
  refine ((hserves.listOFPorts rows room hbridge).mapError _).bind fun names => returns_of_and ?_
  rintro ⟨ports, rfl, hports⟩
  have hconfig : ∀ port ∈ ports, Returns (holds rows room)
      (BridgePorts.populatePortConfig server bridge port.name) fun config s =>
        config = port.config ∧ holds rows room s := by
    intro port hport
    obtain ⟨hmem, hhome⟩ := List.mem_filter.mp (hports.mem_iff.mp hport)
    rw [← of_decide_eq_true hhome]
    exact hserves.populatePortConfig rows room hmem
  refine ((Returns.collect_map hconfig).mapError _).imp ?_
  rintro configs s ⟨hconfigs, hs⟩
  have hsame : configs = ports.map fun port => port.config := by
    rw [← List.forall₂_eq_eq_eq, List.forall₂_map_right_iff]
    exact hconfigs.flip
  exact ⟨hsame ▸ hports.map _, hs⟩

omit hserves in
theorem filter_ownBridges (ports : List Port) :
    ((ports.filter fun port => port.bridge = diBridge) ++
      ports.filter fun port => port.bridge = ovnBridge).Perm
      (ports.filter fun port => port.bridge ∈ ownBridges) := by
  have hinner : ((ports.filter fun port => port.bridge ∈ ownBridges).filter fun port =>
      port.bridge = diBridge) = ports.filter fun port => port.bridge = diBridge := by
    rw [List.filter_filter]
    refine List.filter_congr fun port _ => ?_
    by_cases hbridge : port.bridge = diBridge <;> simp [ownBridges, hbridge]
  have houter : ((ports.filter fun port => port.bridge ∈ ownBridges).filter fun port =>
      !decide (port.bridge = diBridge)) = ports.filter fun port => port.bridge = ovnBridge := by
    rw [List.filter_filter]
    refine List.filter_congr fun port _ => ?_
    have hne : ovnBridge ≠ diBridge := by decide
    by_cases hbridge : port.bridge = ovnBridge <;> simp [ownBridges, hbridge, hne]
  rw [← hinner, ← houter]
  exact List.filter_append_perm _ _

/-- The ports of the two bridges, in some order. -/
theorem Serves.generateCurrentPorts (hbridges : ∀ bridge ∈ ownBridges, bridge ∈ rows.bridges) :
    Returns (holds rows room) (generateCurrentPorts server) fun configs s =>
      configs.Perm ((rows.ports.filter fun port => port.bridge ∈ ownBridges).map
        fun port => port.config) ∧ holds rows room s := by
  have hcollect := Returns.collect_map (g := id) fun bridge hbridge =>
    hserves.portsOn rows room (hbridges bridge hbridge)
  rw [List.map_id] at hcollect
  refine hcollect.bind fun configs => returns_of_and fun hconfigs => .pure fun s hs => ⟨?_, hs⟩
  obtain ⟨inner, rest, hinner, hrest, rfl⟩ := List.forall₂_cons_left_iff.mp hconfigs
  obtain ⟨outer, last, houter, hlast, rfl⟩ := List.forall₂_cons_left_iff.mp hrest
  obtain rfl := List.forall₂_nil_left_iff.mp hlast
  have hflatten : [inner, outer].flatten = inner ++ outer := by simp
  rw [hflatten]
  refine (hinner.append houter).trans ?_
  rw [← List.map_append]
  exact (filter_ownBridges rows.ports).map _

end Serves

end BridgePorts
end Di
