import Di.KeyJoin
import Di.OpenFlow
import Di.OvsdbClient

/-!
# Ports of Open vSwitch

A worker keeps the ports of its two bridges through transactions of OVSDB.  A port comes with an
interface of the same name.  What an interface is to have is inserted into its columns.
-/

namespace Di
namespace BridgePorts

open Db Ovsdb

inductive Table
  | bridge
  | port
  | interface
  deriving DecidableEq, Repr

inductive Column
  | name
  | ports
  | interfaces
  | type
  | options
  | externalIds
  deriving DecidableEq, Repr

def diBridge : String := "di-int"

def ovnBridge : String := "br-int"

def ifaceTypePatch : String := "patch"

structure OvsPort where
  name : String
  bridge : String
  patch : Bool := false
  peer : String := ""
  attachedMAC : String := ""
  ifaceID : String := ""
  deriving DecidableEq, Repr

/-! ## Transactions -/

def insertPort (bridge name : String) : List (Operation Table Column) :=
  [.insert .interface [(.name, .set [.text name])] "diifaceadd",
    .insert .port
      [(.name, .set [.text name]), (.interfaces, .set [marshalUUID "diifaceadd"])] "diportadd",
    .mutate .bridge [textIs .name bridge] [mutateUUID .ports .insert "diportadd"]]

def removePort (bridge name uuid : String) : List (Operation Table Column) :=
  [.delete .port [textIs .name name],
    .mutate .bridge [textIs .name bridge] [mutateUUID .ports .delete uuid]]

def insertEntry (name : String) (column : Column) (key value : String) :
    List (Operation Table Column) :=
  [.mutate .interface [textIs .name name] [⟨column, .insert, .map [(.text key, .text value)]⟩]]

def updateType (name ifaceType : String) : List (Operation Table Column) :=
  [.update .interface [textIs .name name] [(.type, .set [.text ifaceType])]]

/-! ## The calls of the client -/

section Calls

variable {σ : Type} (server : Server Table Column σ)

def createOFPort (bridge name : String) : Call σ Unit := do
  let results ← Procedure.mapError
    (.under ("transaction error creating openflow port " ++ name ++ " within " ++ bridge ++ ": "))
    (server.request (insertPort bridge name))
  Procedure.mapError
    (.under ("error creating openflow port " ++ name ++ " within " ++ bridge ++ ": "))
    (lift (errorCheck results 2 1))

def deleteOFPort (bridge name : String) : Call σ Unit := do
  let rows ← server.selectRows .port [textIs .name name]
  match rows with
  | [] => pure ()
  | row :: _ => do
      let uuid ← lift row.uuid.asUUID
      server.change transactionError (removePort bridge name uuid) 2 2

/-- A port without a row is an index out of range. -/
def portName (uuid : String) : Call σ String := do
  let rows ← server.selectRows .port [uuidIs uuid]
  match rows with
  | [] => Procedure.crash
  | row :: _ => lift (row.columns .name).asText

def listOFPorts (bridge : String) : Call σ (List String) := do
  let rows ← server.selectRows .bridge [textIs .name bridge]
  match rows with
  | [] => pure []
  | row :: _ => do
      let uuids ← lift (ovsUUIDSetToSlice (row.columns .ports))
      Procedure.collect (portName server) uuids

/-- The first interface with the name of the port. -/
def defaultInterface (port : String) : List String → Call σ (JsonRow Column)
  | [] =>
      Procedure.throw (.other ("could not find default openflow interface for port " ++ port))
  | uuid :: rest => do
      let rows ← server.selectRows .interface [uuidIs uuid]
      match rows with
      | [] => Procedure.crash
      | row :: _ => do
          let name ← lift (row.columns .name).asText
          if name = port then pure row else defaultInterface port rest

def getDefaultOFInterface (port : String) : Call σ (JsonRow Column) := do
  let rows ← server.selectRows .port [textIs .name port]
  match rows with
  | [] => Procedure.throw (.other ("could not find openflow port " ++ port))
  | row :: _ => do
      let uuids ← lift (ovsUUIDSetToSlice (row.columns .interfaces))
      defaultInterface server port uuids

/-- Every row of a reply has all columns. -/
def getFromMapInRow (column : Json) (columnName key : String) : Outcome Failure String := do
  let entries ← ovsStringMapToMap column
  match entries.reverse.lookup key with
  | some value => pure value
  | none => .error (.exist ("key " ++ key ++ " not found in column " ++ columnName))

def getOFInterfaceType (iface : JsonRow Column) : Outcome Failure String :=
  (iface.columns .type).asText

def getOFInterfacePeer (iface : JsonRow Column) : Outcome Failure String :=
  getFromMapInRow (iface.columns .options) "options" "peer"

def getOFInterfaceAttachedMAC (iface : JsonRow Column) : Outcome Failure String :=
  getFromMapInRow (iface.columns .externalIds) "external_ids" "attached-mac"

def getOFInterfaceIfaceID (iface : JsonRow Column) : Outcome Failure String :=
  getFromMapInRow (iface.columns .externalIds) "external_ids" "iface-id"

def addToOFInterface (name : String) (column : Column) (key value : String) : Call σ Unit :=
  server.change (.under ("transaction error inserting into interface " ++ name ++ ": "))
    (insertEntry name column key value) 1 1

def updateOFInterface (name ifaceType : String) : Call σ Unit :=
  server.change (.under ("transaction error updating interface " ++ name ++ ": "))
    (updateType name ifaceType) 1 1

def setOFInterfacePeer (name peer : String) : Call σ Unit :=
  Procedure.mapError (.under ("error setting interface " ++ name ++ " to peer " ++ peer ++ ": "))
    (addToOFInterface server name .options "peer" peer)

def setOFInterfaceAttachedMAC (name mac : String) : Call σ Unit :=
  Procedure.mapError
    (.under ("error setting interface " ++ name ++ " to attached-mac " ++ mac ++ ": "))
    (addToOFInterface server name .externalIds "attached-mac" mac)

def setOFInterfaceIfaceID (name ifaceID : String) : Call σ Unit :=
  Procedure.mapError
    (.under ("error setting interface " ++ name ++ " to iface-id " ++ ifaceID ++ ": "))
    (addToOFInterface server name .externalIds "iface-id" ifaceID)

def setOFInterfaceType (name ifaceType : String) : Call σ Unit :=
  Procedure.mapError
    (.under ("error setting interface " ++ name ++ " to type " ++ ifaceType ++ ": "))
    (updateOFInterface server name ifaceType)

/-! ## The pass over the ports -/

def onlyIf (c : Prop) [Decidable c] (call : Call σ Unit) : Call σ Unit :=
  if c then call else pure ()

def modPort (current target : OvsPort) : Call σ Unit := do
  onlyIf (current.patch ≠ target.patch ∧ target.patch) <|
    Procedure.mapError
      (.under ("error setting interface " ++ target.name ++ " to type " ++ ifaceTypePatch ++ ": "))
      (setOFInterfaceType server target.name ifaceTypePatch)
  onlyIf (current.peer ≠ target.peer ∧ target.peer ≠ "") <|
    Procedure.mapError
      (.under ("error setting interface " ++ target.name ++ " with peer " ++ target.peer ++ ": "))
      (setOFInterfacePeer server target.name target.peer)
  onlyIf (current.attachedMAC ≠ target.attachedMAC ∧ target.attachedMAC ≠ "") <|
    Procedure.mapError
      (.under ("error setting interface " ++ target.name ++ " with mac " ++ target.attachedMAC ++
        ": "))
      (setOFInterfaceAttachedMAC server target.name target.attachedMAC)
  onlyIf (current.ifaceID ≠ target.ifaceID ∧ target.ifaceID ≠ "") <|
    Procedure.mapError
      (.under ("error setting interface " ++ target.name ++ " with id " ++ target.ifaceID ++ ": "))
      (setOFInterfaceIfaceID server target.name target.ifaceID)

def addPort (config : OvsPort) : Call σ Unit := do
  Procedure.mapError (.under "error creating openflow port: ")
    (createOFPort server config.bridge config.name)
  modPort server { name := config.name, bridge := config.bridge } config

/-- What does not exist is left at its zero value. -/
def orZero : Outcome Failure String → Outcome Failure String
  | .error (.exist _) => .ok ""
  | outcome => outcome

def configOf (bridge port : String) (iface : JsonRow Column) : Outcome Failure OvsPort := do
  let itype ← orZero (getOFInterfaceType iface)
  let peer ← orZero (getOFInterfacePeer iface)
  let attachedMAC ← orZero (getOFInterfaceAttachedMAC iface)
  let ifaceID ← orZero (getOFInterfaceIfaceID iface)
  pure ⟨port, bridge, itype = ifaceTypePatch, peer, attachedMAC, ifaceID⟩

def populatePortConfig (bridge port : String) : Call σ OvsPort := do
  let iface ← getDefaultOFInterface server port
  lift (configOf bridge port iface)

def portsOn (bridge : String) : Call σ (List OvsPort) := do
  let ports ← Procedure.mapError (.under ("error listing ports on bridge " ++ bridge ++ ": "))
    (listOFPorts server bridge)
  Procedure.mapError (.under "error populating port config: ")
    (Procedure.collect (populatePortConfig server bridge) ports)

def generateCurrentPorts : Call σ (List OvsPort) := do
  let configs ← Procedure.collect (portsOn server) [diBridge, ovnBridge]
  pure configs.flatten

def peerBr (id : String) : String := String.ofList (id.toList.take 12) ++ "_br"

def containerPorts (dbc : Container) : List OvsPort :=
  [{ name := OpenFlow.vethOut dbc.schedID, bridge := diBridge },
    { name := OpenFlow.peerDI dbc.schedID, bridge := diBridge, patch := true,
      peer := peerBr dbc.schedID },
    { name := peerBr dbc.schedID, bridge := ovnBridge, patch := true,
      peer := OpenFlow.peerDI dbc.schedID, attachedMAC := dbc.mac, ifaceID := dbc.schedID }]

/-- Slicing a shorter identifier panics. -/
def generateTargetPorts (containers : List Container) : Outcome Failure (List OvsPort) := do
  let ports ← Outcome.collect
    (fun dbc => if dbc.schedID.length < 13 then .panic else .ok (containerPorts dbc)) containers
  pure ports.flatten

def portScore (left right : OvsPort) : ℤ :=
  if left.name = right.name ∧ left.bridge = right.bridge then 0 else -1

def delPort (config : OvsPort) : Call σ Unit :=
  Procedure.mapError (.under "error deleting openflow port: ")
    (deleteOFPort server config.bridge config.name)

def updatePorts (containers : List Container) : Call σ Unit := logged do
  server.dial
  let targets ← lift (generateTargetPorts containers)
  let current ← generateCurrentPorts server
  let joined := Join.join portScore current targets
  -- the port of a bridge itself is never deleted
  Procedure.forEach (fun l => logged (delPort server l))
    (joined.lonelyLefts.filter fun l => l.name ≠ l.bridge)
  Procedure.forEach (fun r => logged (addPort server r)) joined.lonelyRights
  Procedure.forEach (fun pair => logged (modPort server pair.1 pair.2)) joined.pairs

end Calls

end BridgePorts
end Di
