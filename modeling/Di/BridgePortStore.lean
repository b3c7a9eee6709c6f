import Di.BridgePortRows
import Di.OvsdbStore

/-!
# A store of the bridges

A store of tables with the columns that the client uses serves a worker: it does what `Serves`
asks for.  An interface is collected when its port is deleted.
-/

namespace Di
namespace BridgePorts

open Ovsdb
open Procedure (Returns)

/-- The row of the switch, which refers to the bridges, is not touched. -/
def schema : Schema Table Column where
  root := fun table => table = .bridge
  references := [(.bridge, .ports, .port), (.port, .interfaces, .interface)]
  indexes := [(.bridge, .name), (.port, .name), (.interface, .name)]
  initial := fun _ column =>
    match column with
    | .name | .type => .set [.text ""]
    | .ports | .interfaces => .set []
    | .options | .externalIds => .map []
  depth := 2

/-- Nothing reads the identifier of a bridge. -/
def bridgeRow (ids : String → List String) (bridge : String) : Row Column :=
  ⟨"", fun column =>
    match column with
    | .name => .set [.text bridge]
    | .ports => .set ((ids bridge).map .uuid)
    | column => schema.initial .bridge column⟩

def Port.row (port : Port) : Row Column :=
  ⟨port.uuid, fun column =>
    match column with
    | .name => .set [.text port.name]
    | .interfaces => .set [.uuid port.iface]
    | column => schema.initial .port column⟩

def Port.ifaceRow (port : Port) : Row Column :=
  ⟨port.iface, fun column =>
    match column with
    | .name => .set [.text port.name]
    | .type => .set [.text port.type]
    | .options => port.options.datum
    | .externalIds => port.externalIds.datum
    | column => schema.initial .interface column⟩

namespace Rows

variable (rows : Rows)

def store : Store Table Column
  | .bridge => rows.bridges.map (bridgeRow rows.idsOn)
  | .port => rows.ports.map Port.row
  | .interface => rows.ports.map Port.ifaceRow

theorem uuid_mem {bridge uuid : String} :
    uuid ∈ rows.idsOn bridge ↔ ∃ port ∈ rows.ports, port.bridge = bridge ∧ port.uuid = uuid := by
  simp [idsOn, and_assoc]

theorem committed : Committed schema rows.store := by
  have hnames : ∀ {names : List String}, names.Nodup →
      (names.map fun name => Datum.set [.text name]).Nodup :=
    fun hnodup => hnodup.map fun _ _ heq => by simpa using heq
  refine ⟨sweep_eq_self_iff.mpr ?_, ?_, ?_⟩
  · rintro (_ | _ | _) hroot row hrow
    · simp [schema] at hroot
    · obtain ⟨port, hport, rfl⟩ := List.mem_map.mp hrow
      refine refers_iff.mpr ⟨(.bridge, .ports, .port), by simp [schema], rfl,
        bridgeRow rows.idsOn port.bridge, List.mem_map_of_mem (rows.homes port hport), ?_⟩
      exact List.mem_map_of_mem (rows.uuid_mem.mpr ⟨port, hport, rfl, rfl⟩)
    · obtain ⟨port, hport, rfl⟩ := List.mem_map.mp hrow
      exact refers_iff.mpr ⟨(.port, .interfaces, .interface), by simp [schema], rfl, port.row,
        List.mem_map_of_mem hport, List.mem_singleton_self _⟩
  · intro reference hreference row hrow atom hatom
    simp only [schema, List.mem_cons, List.not_mem_nil, or_false] at hreference
    rcases hreference with rfl | rfl
    · obtain ⟨bridge, hbridge, rfl⟩ := List.mem_map.mp hrow
      obtain ⟨uuid, huuid, rfl⟩ := List.mem_map.mp hatom
      obtain ⟨port, hport, -, rfl⟩ := rows.uuid_mem.mp huuid
      exact ⟨port.row, List.mem_map_of_mem hport, rfl⟩
    · obtain ⟨port, hport, rfl⟩ := List.mem_map.mp hrow
      obtain rfl := List.mem_singleton.mp hatom
      exact ⟨port.ifaceRow, List.mem_map_of_mem hport, rfl⟩
  · intro index hindex
    simp only [schema, List.mem_cons, List.not_mem_nil, or_false] at hindex
    rcases hindex with rfl | rfl | rfl
    · simpa [store, List.map_map, Function.comp_def, bridgeRow] using hnames rows.bridges_nodup
    · simpa [store, List.map_map, Function.comp_def, Port.row] using hnames rows.names_nodup
    · simpa [store, List.map_map, Function.comp_def, Port.ifaceRow] using hnames rows.names_nodup

/-! ## Transactions -/

theorem count_bridge {name : String} (hname : name ∈ rows.bridges) :
    ((rows.store .bridge).countP fun row => row.columns .name = .set [.text name]) = 1 :=
  @countP_text _ _ (bridgeRow rows.idsOn) id _ (fun _ => rfl) _ (by simpa using rows.bridges_nodup)
    _ hname

/-- The mutation of the column that refers to the ports. -/
theorem map_bridges {name uuid : String} {mutator : Mutator} {ids : String → List String}
    (hsame : ∀ bridge, bridge ≠ name → rows.idsOn bridge = ids bridge)
    (hchange : mutator.apply (.set ((rows.idsOn name).map .uuid)) (.set [.uuid uuid]) =
      .set ((ids name).map .uuid)) :
    ((rows.store .bridge).map fun old =>
      if old.columns .name = .set [.text name] then
        (⟨old.uuid, Function.update old.columns .ports
          (mutator.apply (old.columns .ports) (.set [.uuid uuid]))⟩ : Row Column)
      else old) = rows.bridges.map (bridgeRow ids) := by
  refine map_text id (fun _ => rfl) ?_ ?_
  · intro bridge _ hne
    rw [bridgeRow, bridgeRow, hsame bridge hne]
  · rintro _ _ rfl
    refine congrArg (Row.mk "") (funext fun column => ?_)
    cases column with
    | ports => exact hchange
    | _ => rfl

theorem plain_row {names : Names} (uuid iface bridge name : String)
    (hnames : names "diifaceadd" = some iface) :
    (Port.mk (.plain bridge name) uuid iface).row = ⟨uuid, assign names (schema.initial .port)
      [(.name, .set [.text name]), (.interfaces, .set [.named "diifaceadd"])]⟩ := by
  refine congrArg (Row.mk uuid) (funext fun column => ?_)
  cases column with
  | interfaces => simp [assign, Datum.resolve, Atom.resolve, hnames]
  | _ => rfl

theorem plain_ifaceRow (names : Names) (uuid iface bridge name : String) :
    (Port.mk (.plain bridge name) uuid iface).ifaceRow =
      ⟨iface, assign names (schema.initial .interface) [(.name, .set [.text name])]⟩ := by
  refine congrArg (Row.mk iface) (funext fun column => ?_)
  cases column <;> rfl

/-- The ports without one, before its interface is collected. -/
def detached (port : Port) : Store Table Column
  | .interface => rows.ports.map Port.ifaceRow
  | table => (rows.deletePort port).store table

theorem refers_iface_iff {port other : Port} (hother : other ∈ rows.ports) :
    refers schema (rows.deletePort port).store .interface other.iface = true ↔
      other.uuid ≠ port.uuid := by
  rw [refers_iff]
  constructor
  · rintro ⟨reference, hreference, htable, row, hrow, hmem⟩
    simp only [schema, List.mem_cons, List.not_mem_nil, or_false] at hreference
    rcases hreference with rfl | rfl
    · simp at htable
    · obtain ⟨left, hleft, rfl⟩ := List.mem_map.mp hrow
      rw [deletePort, List.mem_filter] at hleft
      have hiface : other.iface = left.iface := Atom.uuid.inj (List.mem_singleton.mp hmem)
      rw [List.inj_on_of_nodup_map rows.ifaces_nodup hother hleft.1 hiface]
      simpa using hleft.2
  · intro hne
    refine ⟨(.port, .interfaces, .interface), by simp [schema], rfl, other.row, ?_,
      List.mem_singleton_self _⟩
    exact List.mem_map_of_mem (List.mem_filter.mpr ⟨hother, by simpa using hne⟩)

/-- The interface of a port that is deleted is collected. -/
theorem sweep_detached (port : Port) :
    sweep schema (rows.detached port) = (rows.deletePort port).store := by
  funext table
  cases table with
  | bridge => rfl
  | port => exact congrFun (rows.deletePort port).committed.swept .port
  | interface =>
      have hfilter : (rows.ports.filter fun other =>
          refers schema (rows.deletePort port).store .interface other.iface) =
          rows.ports.filter fun other => other.uuid ≠ port.uuid := by
        apply List.filter_congr
        intro other hother
        rw [Bool.eq_iff_iff, rows.refers_iface_iff hother, decide_eq_true_eq]
      have hsweep : sweep schema (rows.detached port) .interface =
          (rows.ports.map Port.ifaceRow).filter fun row =>
            refers schema (rows.deletePort port).store .interface row.uuid := rfl
      rw [hsweep, List.filter_map]
      exact congrArg (List.map Port.ifaceRow) hfilter

theorem commit_detached (port : Port) :
    commit schema (rows.detached port) = .ok (rows.deletePort port).store := by
  have hcommitted := (rows.deletePort port).committed
  refine commit_of_sweep (by decide) ?_ (rows.sweep_detached port) hcommitted
  intro reference hreference
  have hintact := hcommitted.intact reference hreference
  simp only [schema, List.mem_cons, List.not_mem_nil, or_false] at hreference
  rcases hreference with rfl | rfl
  · exact hintact
  · intro row hrow atom hatom
    obtain ⟨target, htarget, heq⟩ := hintact row hrow atom hatom
    exact ⟨target, List.map_subset _ (List.filter_subset_self _) htarget, heq⟩

theorem filter_port {port : Port} (hport : port ∈ rows.ports) :
    ((rows.store .port).filter fun row => !decide (row.columns .name = .set [.text port.name])) =
      (rows.ports.filter fun other => other.uuid ≠ port.uuid).map Port.row := by
  rw [store, List.filter_map]
  refine congrArg _ (List.filter_congr fun other hother => ?_)
  have hcolumn : other.row.columns .name = .set [.text other.name] := rfl
  simp [hcolumn, rows.name_eq_iff hport hother]

theorem map_interface {f : Attrs → Attrs} (hkeeps : Keeps f) {g : Row Column → Row Column}
    (hg : ∀ port : Port, g port.ifaceRow = (port.map f).ifaceRow) (name : String) :
    Function.update rows.store .interface ((rows.store .interface).map fun old =>
      if old.columns .name = .set [.text name] then g old else old) =
      (rows.change name hkeeps).store := by
  funext table
  cases table with
  | bridge =>
      have hids : rows.idsOn = (rows.change name hkeeps).idsOn := by
        funext bridge
        simp [idsOn, List.filter_map, Function.comp_def, Port.map, (hkeeps.at name).bridge]
      exact congrArg (fun ids => rows.bridges.map (bridgeRow ids)) hids
  | port =>
      have hrow : ∀ port ∈ rows.ports, port.row = (port.map (Attrs.at name f)).row := by
        intro port _
        simp only [Port.row, Port.map, (hkeeps.at name).name]
      exact (List.map_congr_left hrow).trans (List.map_map (g := Port.row)).symm
  | interface =>
      refine (map_text (fun port : Port => port.name) (fun _ => rfl) ?_ ?_).trans
        (List.map_map (g := Port.ifaceRow)).symm
      · intro port _ hne
        simp only [Function.comp_apply, Port.map, Attrs.at, if_neg hne]
      · intro port _ hname
        simp only [hg, Function.comp_apply, Port.map, Attrs.at, if_pos hname]

def ids : List String := rows.ports.map Port.uuid ++ rows.ports.map Port.iface

end Rows

/-! ## The server -/

/-- Contents that have the rows and enough identifiers. -/
inductive Stored : Rows → ℕ → Contents Table Column → Prop
  | mk {rows : Rows} {room : ℕ} {supply : List String} (hroom : room ≤ supply.length)
      (hsupplies : Supplies supply rows.ids) : Stored rows room ⟨rows.store, supply⟩

namespace Stored

variable {wire : Wire} {rows : Rows} {room : ℕ}

theorem committed {s : Contents Table Column} (hs : Stored rows room s) :
    Committed schema s.store := by
  obtain ⟨hroom, hsupplies⟩ := hs
  exact rows.committed

theorem selectBridge {bridge : String} (hbridge : bridge ∈ rows.bridges) :
    (schema.server wire).Shows (Stored rows room) .bridge [textIs .name bridge] BridgeShown
      [rows.idsOn bridge] := by
  refine shows_of_filter fun s hs =>
    ⟨hs.committed, fun ids => bridgeRow (fun _ => ids) bridge, ?_, fun ids => ⟨wire, rfl⟩⟩
  obtain ⟨hroom, hsupplies⟩ := hs
  have hone := @filter_key_eq_singleton _ _ _ id _ _ (by simpa using rows.bridges_nodup) hbridge
  have hfilter := @filter_text _ _ (bridgeRow rows.idsOn) id .name (fun _ => rfl) (fun _ => none)
    rows.bridges bridge
  exact hfilter.trans (congrArg (List.map (bridgeRow rows.idsOn)) hone)

theorem portShown (port : Port) : PortShown port (wire.row port.row) :=
  ⟨rfl, wire.datum_singleton _, wire.datum_singleton _⟩

theorem interfaceShown (port : Port) : InterfaceShown port.toAttrs (wire.row port.ifaceRow) :=
  ⟨wire.datum_singleton _, wire.datum_singleton _, ⟨wire, rfl⟩, ⟨wire, rfl⟩⟩

theorem selectPort (name : String) : (schema.server wire).Shows (Stored rows room) .port
    [textIs .name name] PortShown (rows.ports.filter fun port => port.name = name) := by
  refine shows_of_filter fun s hs => ⟨hs.committed, Port.row, ?_, portShown⟩
  obtain ⟨hroom, hsupplies⟩ := hs
  exact filter_text (fun _ => rfl) _ rows.ports name

theorem selectPortId {port : Port} (hport : port ∈ rows.ports) :
    (schema.server wire).Shows (Stored rows room) .port [uuidIs port.uuid] PortShown [port] := by
  refine shows_of_filter fun s hs => ⟨hs.committed, Port.row, ?_, portShown⟩
  obtain ⟨hroom, hsupplies⟩ := hs
  exact @filter_uuid _ _ _ Port.row _ rows.ports_nodup port hport (rows.valid port hport).1

theorem selectInterface {port : Port} (hport : port ∈ rows.ports) :
    (schema.server wire).Shows (Stored rows room) .interface [uuidIs port.iface] InterfaceShown
      [port.toAttrs] := by
  refine shows_of_filter fun s hs => ⟨hs.committed,
    fun attrs => Port.ifaceRow ⟨attrs, port.uuid, port.iface⟩, ?_,
    fun attrs => interfaceShown ⟨attrs, port.uuid, port.iface⟩⟩
  obtain ⟨hroom, hsupplies⟩ := hs
  exact @filter_uuid _ _ _ Port.ifaceRow _ rows.ifaces_nodup port hport (rows.valid port hport).2

theorem insertPort {bridge name : String} (hbridge : bridge ∈ rows.bridges)
    (hname : name ∉ rows.ports.map fun port => port.name) :
    Returns (Stored rows (room + 2)) ((schema.server wire).request (insertPort bridge name))
      fun results s => results = [{}, {}, { count := 1 }] ∧ ∃ (uuid iface : String)
        (hfresh : rows.Fresh ⟨.plain bridge name, uuid, iface⟩),
        Stored (rows.addPort _ hfresh) room s := by
  intro s hs
  obtain @⟨supply, hroom, hsupplies⟩ := hs
  obtain ⟨iface, rest, rfl⟩ := List.exists_cons_of_length_pos (by omega : 0 < supply.length)
  rw [List.length_cons] at hroom
  obtain ⟨uuid, supply, rfl⟩ := List.exists_cons_of_length_pos (by omega : 0 < rest.length)
  rw [List.length_cons] at hroom
  have hiface := hsupplies.new iface (by simp)
  have huuid := hsupplies.new uuid (by simp)
  rw [Rows.ids, List.mem_append, not_or] at hiface huuid
  have hfresh : rows.Fresh ⟨.plain bridge name, uuid, iface⟩ :=
    ⟨hbridge, huuid.1, hiface.2, hname, hsupplies.valid uuid (by simp),
      hsupplies.valid iface (by simp)⟩
  have hbridges := @Rows.map_bridges rows bridge uuid .insert (rows.addPort _ hfresh).idsOn
    (fun old hne => by simp [Rows.idsOn, Rows.addPort, Attrs.plain, Ne.symm hne]) (by
      have hnew : uuid ∉ rows.idsOn bridge := fun hmem => by
        obtain ⟨port, hport, -, heq⟩ := rows.uuid_mem.mp hmem
        exact hfresh.uuid (List.mem_map.mpr ⟨port, hport, heq⟩)
      simpa [Rows.idsOn, Rows.addPort, Attrs.plain] using insert_uuid hnew)
  have htransact : transact schema wire (BridgePorts.insertPort bridge name)
      ⟨rows.store, iface :: uuid :: supply⟩ =
      ([{}, {}, { count := 1 }], ⟨(rows.addPort _ hfresh).store, supply⟩) := by
    refine transact_of_run ?_ (by simp) (rows.addPort _ hfresh).committed.commit
    have hifaceName : marshalUUID "diifaceadd" = .named "diifaceadd" := by decide
    have hportName : marshalUUID "diportadd" = .named "diportadd" := by decide
    simp [BridgePorts.insertPort, Operation.perform, mutateUUID, hifaceName, hportName,
      Mutation.apply, Datum.resolve, Atom.resolve]
    refine ⟨rows.count_bridge hbridge, ?_⟩
    rw [hbridges, ← Rows.plain_row uuid iface bridge name (by simp),
      ← Rows.plain_ifaceRow _ uuid iface bridge name]
    funext table
    cases table with
    | bridge => rfl
    | port => exact (@List.map_append _ _ Port.row rows.ports [_]).symm
    | interface => exact (@List.map_append _ _ Port.ifaceRow rows.ports [_]).symm
  refine ⟨_, _, [], request_eq htransact, rfl, uuid, iface, hfresh, .mk (by omega) ?_⟩
  have hrest : Supplies (uuid :: supply) (iface :: rows.ids) :=
    hsupplies.tail fun id hid => List.mem_cons.mp hid
  apply hrest.tail
  intro id hid
  simp only [Rows.ids, Rows.addPort, List.map_append, List.map_singleton, List.mem_append,
    List.mem_cons] at hid ⊢
  tauto

theorem removePort {port : Port} (hport : port ∈ rows.ports) :
    Returns (Stored rows room)
      ((schema.server wire).request (removePort port.bridge port.name port.uuid)) fun results s =>
        results = [{ count := 1 }, { count := 1 }] ∧ Stored (rows.deletePort port) room s := by
  intro s hs
  obtain @⟨supply, hroom, hsupplies⟩ := hs
  have hids : ∀ bridge, (rows.deletePort port).idsOn bridge =
      (rows.idsOn bridge).filter (· ≠ port.uuid) := by
    intro bridge
    simp [Rows.idsOn, Rows.deletePort, List.filter_map, List.filter_filter, Function.comp_def,
      Bool.and_comm]
  have hbridges := @Rows.map_bridges rows port.bridge port.uuid .delete
    (rows.deletePort port).idsOn
    (by
      intro bridge hne
      rw [hids, eq_comm, List.filter_eq_self]
      intro uuid huuid
      obtain ⟨other, hother, hhome, rfl⟩ := rows.uuid_mem.mp huuid
      simp only [ne_eq, decide_not, Bool.not_eq_true', decide_eq_false_iff_not]
      intro heq
      rw [List.inj_on_of_nodup_map rows.ports_nodup hother hport heq] at hhome
      exact hne hhome.symm)
    (by rw [hids, delete_uuid])
  have htransact : transact schema wire
      (BridgePorts.removePort port.bridge port.name port.uuid) ⟨rows.store, supply⟩ =
      ([{ count := 1 }, { count := 1 }], ⟨(rows.deletePort port).store, supply⟩) := by
    refine transact_of_run ?_ (by simp) (rows.commit_detached port)
    simp [BridgePorts.removePort, Operation.perform, mutateUUID, marshalUUID,
      (rows.valid port hport).1, Mutation.apply, Datum.resolve, Atom.resolve]
    refine ⟨⟨countP_text (fun _ => rfl) rows.names_nodup hport,
      rows.count_bridge (rows.homes port hport)⟩, ?_⟩
    rw [hbridges, rows.filter_port hport]
    funext table
    cases table <;> rfl
  refine ⟨_, _, [], request_eq htransact, rfl, .mk hroom (hsupplies.mono fun id hid => ?_)⟩
  simp only [Rows.ids, List.mem_append] at hid ⊢
  exact hid.imp (List.filter_sublist.map Port.uuid).mem (List.filter_sublist.map Port.iface).mem

/-- An operation that changes the row of the interface. -/
theorem change {name : String} {op : Operation Table Column} {g : Row Column → Row Column}
    {f : Attrs → Attrs} (hkeeps : Keeps f)
    (hg : ∀ port : Port, g port.ifaceRow = (port.map f).ifaceRow)
    (hperform : ∀ names contents, op.perform schema wire names contents =
      ({ count := (contents.store .interface).countP fun row =>
          row.columns .name = .set [.text name] },
        ⟨Function.update contents.store .interface ((contents.store .interface).map fun old =>
          if old.columns .name = .set [.text name] then g old else old), contents.supply⟩))
    (hname : name ∈ rows.ports.map fun port => port.name) :
    Returns (Stored rows room) ((schema.server wire).request [op]) fun results s =>
      results = [{ count := 1 }] ∧ Stored (rows.change name hkeeps) room s := by
  intro s hs
  obtain @⟨supply, hroom, hsupplies⟩ := hs
  obtain ⟨port, hport, rfl⟩ := List.mem_map.mp hname
  have htransact : transact schema wire [op] ⟨rows.store, supply⟩ = ([{ count := 1 }],
      ⟨(rows.change port.name hkeeps).store, supply⟩) := by
    have hcount : ((rows.store .interface).countP fun row =>
        row.columns .name = .set [.text port.name]) = 1 :=
      countP_text (fun _ => rfl) rows.names_nodup hport
    refine transact_of_run ?_ (by simp) (Rows.committed _).commit
    rw [run_cons, run_nil, hperform, ← rows.map_interface hkeeps hg, hcount]
  refine ⟨_, _, [], request_eq htransact, rfl, .mk hroom ?_⟩
  simpa [Rows.ids, Function.comp_def, Port.map] using hsupplies

theorem updateType (type : String) {name : String}
    (hname : name ∈ rows.ports.map fun port => port.name) :
    Returns (Stored rows room) ((schema.server wire).request (updateType name type))
      fun results s => results = [{ count := 1 }] ∧
        Stored (rows.change name (Attrs.setType_keeps type)) room s := by
  refine change (g := fun row =>
    ⟨row.uuid, Function.update row.columns .type (.set [.text type])⟩) _ ?_ ?_ hname
  · intro port
    refine congrArg (Row.mk port.iface) (funext fun column => ?_)
    cases column <;> rfl
  · intro names contents
    simp only [Operation.perform, selects_textIs, decide_eq_true_eq]
    rfl

theorem insertEntry {name : String} {column : Column} {key value : String} {f : Attrs → Attrs}
    (hkeeps : Keeps f)
    (hf : ∀ port : Port, Function.update port.ifaceRow.columns column (Mutator.insert.apply
      (port.ifaceRow.columns column) (.map [(.text key, .text value)])) =
        (port.map f).ifaceRow.columns)
    (hname : name ∈ rows.ports.map fun port => port.name) :
    Returns (Stored rows room) ((schema.server wire).request (insertEntry name column key value))
      fun results s => results = [{ count := 1 }] ∧ Stored (rows.change name hkeeps) room s := by
  refine change (g := fun row =>
    ⟨row.uuid, Function.update row.columns column (Mutator.insert.apply
      (row.columns column) (.map [(.text key, .text value)]))⟩) hkeeps ?_ ?_ hname
  · exact fun port => congrArg (Row.mk port.iface) (hf port)
  · intro names contents
    simp only [Operation.perform, selects_textIs, decide_eq_true_eq]
    rfl

end Stored

theorem insert_option (key value : String) (port : Port) :
    Function.update port.ifaceRow.columns .options (Mutator.insert.apply
      (port.ifaceRow.columns .options) (.map [(.text key, .text value)])) =
        (port.map (Attrs.addOption key value)).ifaceRow.columns := by
  have hcolumn : port.ifaceRow.columns .options = port.options.datum := rfl
  rw [hcolumn, Entries.insert_datum]
  funext column
  cases column <;> rfl

theorem insert_externalId (key value : String) (port : Port) :
    Function.update port.ifaceRow.columns .externalIds (Mutator.insert.apply
      (port.ifaceRow.columns .externalIds) (.map [(.text key, .text value)])) =
        (port.map (Attrs.addExternalId key value)).ifaceRow.columns := by
  have hcolumn : port.ifaceRow.columns .externalIds = port.externalIds.datum := rfl
  rw [hcolumn, Entries.insert_datum]
  funext column
  cases column <;> rfl

/-- A store of tables serves a worker. -/
theorem stored_serves (wire : Wire) : Serves (schema.server wire) Stored where
  fewer := fun ⟨hroom, hsupplies⟩ => ⟨by omega, hsupplies⟩
  connect := fun _ _ s hs => ⟨(), s, [], rfl, hs⟩
  selectBridge := fun _ _ _ hbridge => Stored.selectBridge hbridge
  selectPort := fun _ _ name => Stored.selectPort name
  selectPortId := fun _ _ _ hport => Stored.selectPortId hport
  selectInterface := fun _ _ _ hport => Stored.selectInterface hport
  insertPort := fun _ _ _ hbridge _ hname => Stored.insertPort hbridge hname
  removePort := fun _ _ _ hport => Stored.removePort hport
  updateType := fun _ _ type _ hname => Stored.updateType type hname
  insertOption := fun _ _ key value _ hname =>
    Stored.insertEntry _ (insert_option key value) hname
  insertExternalId := fun _ _ key value _ hname =>
    Stored.insertEntry _ (insert_externalId key value) hname

end BridgePorts
end Di
