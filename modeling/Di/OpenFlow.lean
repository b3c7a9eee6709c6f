import Di.LogicalPorts
import Di.OpenFlowNormal

/-!
# The flows of a worker

A worker steers the packets of its containers by OpenFlow rules.  Each container has
two ports of the bridge: one leads to the container itself, the other one to the
tunnels.  Between them packets pass unchanged; traffic with the public internet goes
through the port `LOCAL` of the bridge, for the transport ports of the connections,
ICMP and ARP.  A packet to a label with several containers picks one of them by a hash
that selects a rule of the second table.

Adding a rule replaces the one with the same match, so two rules of the target with one
match and different actions never settle.  The rules of one container never conflict,
nor do those of labels.  Those of two containers do exactly if both take packets from the
gateway for one address: each takes those for its own address, and if the public internet
may connect to it, also the broadcasts.
-/

namespace Di
namespace OpenFlow

open Db
open Lang (intText not_mem_intText publicInternetLabel)
open LogicalPorts (labelMac)

/-! ## The flows of a container -/

def broadcastMac : String := "ff:ff:ff:ff:ff:ff"

/-- What the flows of a container depend on; the ports are in the order of their visit. -/
structure Station where
  ofDI : ℤ
  ofVeth : ℤ
  mac : String
  dflGatewayMAC : String
  portsFromWeb : List ℤ
  portsToWeb : List ℤ

namespace Station

def egressRule (s : Station) (protocol : Protocol) (port : Field) : Flow :=
  ⟨0, [.priority 5000, .inPort s.ofVeth, .protocol protocol, port, .dlDst s.dflGatewayMAC],
    [.toLocal]⟩

def ingressRule (s : Station) (protocol : Protocol) (port : Field) : Flow :=
  ⟨0, [.priority 5000, .inLocal, .protocol protocol, port, .dlDst s.mac], [.port s.ofVeth]⟩

def webRules (s : Station) (ports : List ℤ) (egressPort ingressPort : ℤ → Field) : List Flow :=
  ports.flatMap fun port => [Protocol.tcp, Protocol.udp].flatMap fun protocol =>
    [s.egressRule protocol (egressPort port), s.ingressRule protocol (ingressPort port)]

def forward (s : Station) : Flow := ⟨0, [.priority 5000, .inPort s.ofDI], [.output s.ofVeth]⟩

def balanced (s : Station) : Flow := ⟨2, [.priority 5000, .inPort s.ofVeth], [.output s.ofDI]⟩

def back (s : Station) : Flow := ⟨0, [.priority 0, .inPort s.ofVeth], [.output s.ofDI]⟩

def icmpOut (s : Station) : Flow :=
  ⟨0, [.priority 5000, .protocol .icmp, .inPort s.ofVeth, .dlDst s.dflGatewayMAC], [.toLocal]⟩

def icmpIn (s : Station) : Flow :=
  ⟨0, [.priority 5000, .protocol .icmp, .inLocal, .dlDst s.mac], [.output s.ofVeth]⟩

def arpDst (s : Station) : List Action :=
  if s.portsToWeb ≠ [] ∨ s.portsFromWeb ≠ [] then [.output s.ofDI, .toLocal] else [.output s.ofDI]

def arpOut (s : Station) : Flow :=
  ⟨0, [.priority 4500, .protocol .arp, .inPort s.ofVeth], s.arpDst⟩

/-- ARP packets of the gateway to an address. -/
def arpIn (s : Station) (mac : String) : Flow :=
  ⟨0, [.priority 4500, .protocol .arp, .inLocal, .dlDst mac], [.output s.ofVeth]⟩

def flows (s : Station) : List Flow :=
  [s.forward, s.balanced, s.back] ++
    s.webRules s.portsFromWeb .tpSrc .tpDst ++
    s.webRules s.portsToWeb .tpDst .tpSrc ++
    (if s.portsToWeb ≠ [] ∨ s.portsFromWeb ≠ [] then [s.icmpOut, s.icmpIn] else []) ++
    (if s.portsFromWeb ≠ [] then [s.arpIn broadcastMac] else []) ++
    [s.arpOut, s.arpIn s.mac]

end Station

/-! ## The target -/

/-- What is read from Open vSwitch, and the orders in which maps are visited. -/
structure Ovs where
  /-- Empty if it cannot be found out. -/
  dflGatewayMAC : String
  opens : Container → Bool
  getOFPortNo : String → Option ℤ
  fromWebOrder : Container → IterOrder ℤ
  toWebOrder : Container → IterOrder ℤ
  macOrder : Label → IterOrder String

/-- The second name that `veths` returns. -/
def vethOut (id : String) : String := String.ofList (id.toList.take 13) ++ "_c"

/-- The second name that `patchPorts` returns. -/
def peerDI (id : String) : String := String.ofList (id.toList.take 12) ++ "_di"

/-- The keys of the map. -/
def portsToWeb (connections : List Connection) (dbc : Container) : List ℤ :=
  (dbc.labels.flatMap fun l =>
    (connections.filter fun conn =>
      conn.fromLabel = l ∧ conn.toLabel = publicInternetLabel).map Connection.minPort).dedup

def portsFromWeb (connections : List Connection) (dbc : Container) : List ℤ :=
  (dbc.labels.flatMap fun l =>
    (connections.filter fun conn =>
      ¬(conn.fromLabel = l ∧ conn.toLabel = publicInternetLabel) ∧
        conn.fromLabel = publicInternetLabel ∧ conn.toLabel = l).map Connection.minPort).dedup

def station (ovs : Ovs) (connections : List Connection) (dbc : Container) (ofDI ofVeth : ℤ) :
    Station where
  ofDI := ofDI
  ofVeth := ofVeth
  mac := dbc.mac
  dflGatewayMAC := ovs.dflGatewayMAC
  portsFromWeb := (ovs.fromWebOrder dbc).visit (portsFromWeb connections dbc)
  portsToWeb := (ovs.toWebOrder dbc).visit (portsToWeb connections dbc)

def containerFlows (ovs : Ovs) (connections : List Connection) (dbc : Container) :
    Outcome String (List Flow) :=
  -- slicing a shorter identifier panics
  if dbc.schedID.length < 13 then .panic
  else if ovs.opens dbc = false then .error "failed to open OVSDB"
  else
    match ovs.getOFPortNo (peerDI dbc.schedID), ovs.getOFPortNo (vethOut dbc.schedID) with
    | some ofDI, some ofVeth =>
        if ofDI < 0 ∨ ofVeth < 0 then .error "missing OpenFlow port number"
        else .ok (station ovs connections dbc ofDI ofVeth).flows
    | _, _ => .error "failed to get OpenFlow port"

/-- The keys of `LabelMacs[label]`. -/
def labelMacs (containers : List Container) (label : String) : List String :=
  ((containers.filter fun dbc => label ∈ dbc.labels).map Container.mac).dedup

def balance (ip : String) (n : ℕ) : Flow :=
  ⟨0, [.priority 4000, .dlDst labelMac, .protocol .ip, .nwDst ip], [.multipath n, .resubmit 1]⟩

def pick (ip : String) (entry : String × ℕ) : Flow :=
  ⟨1, [.priority 5000, .protocol .ip, .nwDst ip, .reg0 entry.2], [.modDlDst entry.1, .resubmit 2]⟩

def labelFlows (ovs : Ovs) (containers : List Container) (label : Label) : List Flow :=
  let macs := labelMacs containers label.label
  if label.multiHost = false ∨ macs = [] then []
  else
    balance label.ip macs.length ::
      (sortStrings ((ovs.macOrder label).visit macs)).zipIdx.map (pick label.ip)

def makeTargetRule (flow : Flow) : Outcome String OFRule :=
  match makeOFRule flow.text with
  | .error err => .error ("failed to make OpenFlow rule: " ++ err)
  | made => made

def generateTargetOpenFlow (ovs : Ovs) (containers : List Container) (labels : List Label)
    (connections : List Connection) : Outcome String (List OFRule) := do
  let flows ← Outcome.collect (containerFlows ovs connections) containers
  Outcome.collect makeTargetRule (flows.flatten ++ labels.flatMap (labelFlows ovs containers))

/-! ## Flows of containers -/

namespace Station

variable {s t : Station} {flow other : Flow} {mac : String}

theorem mem_webRules {ports : List ℤ} {egressPort ingressPort : ℤ → Field}
    (hmem : flow ∈ s.webRules ports egressPort ingressPort) :
    ∃ port, ∃ proto ∈ [Protocol.tcp, Protocol.udp],
      flow = s.egressRule proto (egressPort port) ∨
        flow = s.ingressRule proto (ingressPort port) := by
  rcases List.mem_flatMap.mp hmem with ⟨port, -, hmem⟩
  rcases List.mem_flatMap.mp hmem with ⟨proto, hproto, hmem⟩
  exact ⟨port, proto, hproto, by simpa using hmem⟩

/-- What holds of each kind of flow holds of all flows of a container. -/
theorem forall_flows {P : Flow → Prop} (hforward : P s.forward) (hbalanced : P s.balanced)
    (hback : P s.back)
    (hegress : ∀ proto ∈ [Protocol.tcp, Protocol.udp], ∀ port,
      P (s.egressRule proto (.tpSrc port)) ∧ P (s.egressRule proto (.tpDst port)))
    (hingress : ∀ proto ∈ [Protocol.tcp, Protocol.udp], ∀ port,
      P (s.ingressRule proto (.tpSrc port)) ∧ P (s.ingressRule proto (.tpDst port)))
    (hicmpOut : P s.icmpOut) (hicmpIn : P s.icmpIn)
    (hbroadcast : s.portsFromWeb ≠ [] → P (s.arpIn broadcastMac)) (harpOut : P s.arpOut)
    (harpIn : P (s.arpIn s.mac)) : ∀ flow ∈ s.flows, P flow := by
  intro flow hmem
  simp only [flows, List.mem_append, or_assoc] at hmem
  rcases hmem with hmem | hmem | hmem | hmem | hmem | hmem
  · simp only [List.mem_cons, List.not_mem_nil, or_false] at hmem
    rcases hmem with rfl | rfl | rfl
    · exact hforward
    · exact hbalanced
    · exact hback
  · rcases mem_webRules hmem with ⟨port, proto, hproto, rfl | rfl⟩
    · exact (hegress proto hproto port).1
    · exact (hingress proto hproto port).2
  · rcases mem_webRules hmem with ⟨port, proto, hproto, rfl | rfl⟩
    · exact (hegress proto hproto port).2
    · exact (hingress proto hproto port).1
  · split at hmem
    · simp only [List.mem_cons, List.not_mem_nil, or_false] at hmem
      rcases hmem with rfl | rfl
      · exact hicmpOut
      · exact hicmpIn
    · exact absurd hmem List.not_mem_nil
  · split at hmem
    next hports =>
      rw [List.mem_singleton] at hmem
      exact hmem ▸ hbroadcast hports
    next => exact absurd hmem List.not_mem_nil
  · simp only [List.mem_cons, List.not_mem_nil, or_false] at hmem
    rcases hmem with rfl | rfl
    · exact harpOut
    · exact harpIn

/-- What a container does with the packets that a flow matches. -/
def verdict (s : Station) (table : ℕ) (fields : List Field) : List Action :=
  if .inPort s.ofDI ∈ fields then [.output s.ofVeth]
  else if .inPort s.ofVeth ∈ fields then
    if table = 2 ∨ .priority 0 ∈ fields then [.output s.ofDI]
    else if .protocol .arp ∈ fields then s.arpDst
    else [.toLocal]
  else if .protocol .icmp ∈ fields ∨ .protocol .arp ∈ fields then [.output s.ofVeth]
  else [.port s.ofVeth]

theorem verdict_congr (hover : flow.Overlaps other) :
    s.verdict flow.table flow.fields = s.verdict other.table other.fields := by
  simp only [verdict, hover.1, hover.2]

theorem actions_eq_verdict (hports : s.ofDI ≠ s.ofVeth) :
    ∀ flow ∈ s.flows, flow.actions = s.verdict flow.table flow.fields := by
  have htransport : ∀ proto ∈ [Protocol.tcp, Protocol.udp],
      proto ≠ .icmp ∧ proto ≠ .arp := by decide
  apply forall_flows
  · simp [forward, verdict]
  · simp [balanced, verdict, hports]
  · simp [back, verdict, hports]
  · intro proto hproto port
    simp [egressRule, verdict, hports, (htransport proto hproto).2.symm]
  · intro proto hproto port
    simp [ingressRule, verdict, (htransport proto hproto).1.symm,
      (htransport proto hproto).2.symm]
  · simp [icmpOut, verdict, hports]
  · simp [icmpIn, verdict]
  · intro _
    simp [arpIn, verdict]
  · simp [arpOut, verdict, hports]
  · simp [arpIn, verdict]

/-- The flows of one container never contradict each other. -/
theorem actions_eq_of_overlaps (hports : s.ofDI ≠ s.ofVeth) (hflow : flow ∈ s.flows)
    (hother : other ∈ s.flows) (hover : flow.Overlaps other) : flow.actions = other.actions := by
  rw [actions_eq_verdict hports flow hflow, actions_eq_verdict hports other hother,
    verdict_congr hover]

def HasPort (s : Station) (port : ℤ) : Prop := port = s.ofDI ∨ port = s.ofVeth

/-- Takes packets of the gateway to the address. -/
def Listens (s : Station) (mac : String) : Prop :=
  mac = s.mac ∨ mac = broadcastMac ∧ s.portsFromWeb ≠ []

/-- A flow concerns the packets from one port or those of the gateway to one address. -/
def Source (s : Station) (flow : Flow) : Prop :=
  (∃ port, s.HasPort port ∧ ∀ field, .inPort field ∈ flow.fields ↔ field = port) ∨
    (∀ port, .inPort port ∉ flow.fields) ∧
      ∃ mac, s.Listens mac ∧ ∀ field, .dlDst field ∈ flow.fields ↔ field = mac

theorem source_of_mem : ∀ flow ∈ s.flows, s.Source flow := by
  apply forall_flows
  · exact .inl ⟨s.ofDI, .inl rfl, by simp [forward]⟩
  · exact .inl ⟨s.ofVeth, .inr rfl, by simp [balanced]⟩
  · exact .inl ⟨s.ofVeth, .inr rfl, by simp [back]⟩
  · intro proto _ port
    exact ⟨.inl ⟨s.ofVeth, .inr rfl, by simp [egressRule]⟩,
      .inl ⟨s.ofVeth, .inr rfl, by simp [egressRule]⟩⟩
  · intro proto _ port
    exact ⟨.inr ⟨by simp [ingressRule], s.mac, .inl rfl, by simp [ingressRule]⟩,
      .inr ⟨by simp [ingressRule], s.mac, .inl rfl, by simp [ingressRule]⟩⟩
  · exact .inl ⟨s.ofVeth, .inr rfl, by simp [icmpOut]⟩
  · exact .inr ⟨by simp [icmpIn], s.mac, .inl rfl, by simp [icmpIn]⟩
  · intro hports
    exact .inr ⟨by simp [arpIn], broadcastMac, .inr ⟨rfl, hports⟩, by simp [arpIn]⟩
  · exact .inl ⟨s.ofVeth, .inr rfl, by simp [arpOut]⟩
  · exact .inr ⟨by simp [arpIn], s.mac, .inl rfl, by simp [arpIn]⟩

/-- Flows of two containers only overlap if the containers share a port or an address. -/
theorem shared_of_overlaps (hflow : flow ∈ s.flows) (hother : other ∈ t.flows)
    (hover : flow.Overlaps other) :
    (∃ port, s.HasPort port ∧ t.HasPort port) ∨ ∃ mac, s.Listens mac ∧ t.Listens mac := by
  rcases source_of_mem flow hflow with ⟨port, hport, hin⟩ | ⟨hnone, mac, hmac, hdst⟩
  · have hmem : Field.inPort port ∈ other.fields := (hover.2 _).mp ((hin port).mpr rfl)
    rcases source_of_mem other hother with ⟨port', hport', hin'⟩ | ⟨hnone', -⟩
    · exact .inl ⟨port, hport, (hin' port).mp hmem ▸ hport'⟩
    · exact absurd hmem (hnone' port)
  · have hmem : Field.dlDst mac ∈ other.fields := (hover.2 _).mp ((hdst mac).mpr rfl)
    rcases source_of_mem other hother with ⟨port', -, hin'⟩ | ⟨-, mac', hmac', hdst'⟩
    · exact absurd ((hover.2 _).mpr ((hin' port').mpr rfl)) (hnone port')
    · exact .inr ⟨mac, hmac, (hdst' mac).mp hmem ▸ hmac'⟩

theorem arpIn_mem_flows (hmac : s.Listens mac) : s.arpIn mac ∈ s.flows := by
  rcases hmac with rfl | ⟨rfl, hports⟩
  · simp [flows]
  · simp [flows, hports]

theorem nwDst_not_mem (ip : String) : ∀ flow ∈ s.flows, .nwDst ip ∉ flow.fields := by
  apply forall_flows
  · simp [forward]
  · simp [balanced]
  · simp [back]
  · simp [egressRule]
  · simp [ingressRule]
  · simp [icmpOut]
  · simp [icmpIn]
  · simp [arpIn]
  · simp [arpOut]
  · simp [arpIn]

theorem plain_of_mem (hmac : IsWord s.mac) (hgateway : IsWord s.dflGatewayMAC) :
    ∀ flow ∈ s.flows, flow.Plain := by
  have hbroadcast : IsWord broadcastMac := by decide
  apply forall_flows
  · constructor <;> simp [forward, Field.Plain, Action.Plain]
  · constructor <;> simp [balanced, Field.Plain, Action.Plain]
  · constructor <;> simp [back, Field.Plain, Action.Plain]
  · intro proto _ port
    constructor <;> constructor <;> simp [egressRule, Field.Plain, Action.Plain, hgateway]
  · intro proto _ port
    constructor <;> constructor <;> simp [ingressRule, Field.Plain, Action.Plain, hmac]
  · constructor <;> simp [icmpOut, Field.Plain, Action.Plain, hgateway]
  · constructor <;> simp [icmpIn, Field.Plain, Action.Plain, hmac]
  · intro _
    constructor <;> simp [arpIn, Field.Plain, Action.Plain, hbroadcast]
  · have hdst : s.arpDst ≠ [] ∧ ∀ action ∈ s.arpDst, action.Plain := by
      unfold arpDst
      split <;> simp [Action.Plain]
    exact ⟨by simp [arpOut], hdst.1, by simp [arpOut, Field.Plain], hdst.2⟩
  · constructor <;> simp [arpIn, Field.Plain, Action.Plain, hmac]

end Station

/-! ## Flows of labels -/

section Labels

variable {ovs : Ovs} {containers : List Container} {label : Label} {flow other : Flow}

theorem mem_labelFlows (hmem : flow ∈ labelFlows ovs containers label) :
    flow = balance label.ip (labelMacs containers label.label).length ∨
      ∃ entry ∈ (sortStrings ((ovs.macOrder label).visit
        (labelMacs containers label.label))).zipIdx, flow = pick label.ip entry := by
  simp only [labelFlows] at hmem
  split at hmem
  · exact absurd hmem List.not_mem_nil
  · rcases List.mem_cons.mp hmem with rfl | hmem
    · exact .inl rfl
    · rcases List.mem_map.mp hmem with ⟨entry, hentry, rfl⟩
      exact .inr ⟨entry, hentry, rfl⟩

theorem mem_nwDst_labelFlows (hmem : flow ∈ labelFlows ovs containers label) {ip : String} :
    .nwDst ip ∈ flow.fields ↔ ip = label.ip := by
  rcases mem_labelFlows hmem with rfl | ⟨entry, -, rfl⟩
  · simp [balance]
  · simp [pick]

theorem labelFlows_actions_eq (hflow : flow ∈ labelFlows ovs containers label)
    (hother : other ∈ labelFlows ovs containers label) (hover : flow.Overlaps other) :
    flow.actions = other.actions := by
  rcases mem_labelFlows hflow with rfl | ⟨⟨mac, i⟩, hentry, rfl⟩
  · rcases mem_labelFlows hother with rfl | ⟨entry, -, rfl⟩
    · rfl
    · exact absurd hover.1 (by simp [balance, pick])
  · rcases mem_labelFlows hother with rfl | ⟨⟨mac', i'⟩, hentry', rfl⟩
    · exact absurd hover.1 (by simp [balance, pick])
    · have hindex : i = i' := by
        simpa [pick] using hover.2 (.reg0 i)
      subst hindex
      rw [List.mk_mem_zipIdx_iff_getElem?] at hentry hentry'
      rw [hentry, Option.some.injEq] at hentry'
      rw [hentry']

theorem plain_of_mem_labelFlows (hip : IsWord label.ip)
    (hmacs : ∀ dbc ∈ containers, label.label ∈ dbc.labels → IsWord dbc.mac)
    (hmem : flow ∈ labelFlows ovs containers label) : flow.Plain := by
  have hlabel : IsWord labelMac := by decide
  rcases mem_labelFlows hmem with rfl | ⟨⟨mac, i⟩, hentry, rfl⟩
  · constructor <;> simp [balance, Field.Plain, Action.Plain, hip, hlabel]
  · have hmac : IsWord mac := by
      have hvisit := (sortStrings_perm _).mem_iff.mp (List.fst_mem_of_mem_zipIdx hentry)
      rw [IterOrder.mem_visit, labelMacs, List.mem_dedup, List.mem_map] at hvisit
      rcases hvisit with ⟨dbc, hdbc, rfl⟩
      have hlabelled := List.of_mem_filter hdbc
      exact hmacs dbc (List.mem_of_mem_filter hdbc) (of_decide_eq_true hlabelled)
    constructor <;> simp [pick, Field.Plain, Action.Plain, hip, hmac]

end Labels

/-! ## The target as a whole -/

section Target

variable {ovs : Ovs} {containers : List Container} {labels : List Label}
  {connections : List Connection} {rules : List OFRule}

/-- What has to be found out about a container. -/
structure Wired (ovs : Ovs) (dbc : Container) (ofDI ofVeth : ℤ) : Prop where
  sliced : 13 ≤ dbc.schedID.length
  opens : ovs.opens dbc = true
  di : ovs.getOFPortNo (peerDI dbc.schedID) = some ofDI
  veth : ovs.getOFPortNo (vethOut dbc.schedID) = some ofVeth
  nonneg : 0 ≤ ofDI ∧ 0 ≤ ofVeth

theorem containerFlows_eq_ok {dbc : Container} {flows : List Flow} :
    containerFlows ovs connections dbc = .ok flows ↔
      ∃ ofDI ofVeth, Wired ovs dbc ofDI ofVeth ∧
        (station ovs connections dbc ofDI ofVeth).flows = flows := by
  constructor
  · intro hflows
    unfold containerFlows at hflows
    split at hflows
    next => cases hflows
    next hsliced =>
      split at hflows
      next => cases hflows
      next hopens =>
        split at hflows
        next ofDI ofVeth hdi hveth =>
          split at hflows
          next => cases hflows
          next hnonneg =>
            cases hflows
            exact ⟨ofDI, ofVeth, ⟨by omega, by simpa using hopens, hdi, hveth, by omega⟩, rfl⟩
        next => cases hflows
  · rintro ⟨ofDI, ofVeth, hwired, rfl⟩
    have hnonneg : ¬(ofDI < 0 ∨ ofVeth < 0) := by
      have := hwired.nonneg
      omega
    simp only [containerFlows, if_neg (Nat.not_lt.mpr hwired.sliced), hwired.opens,
      Bool.true_eq_false, if_false, hwired.di, hwired.veth, if_neg hnonneg]

/-- The flows before they are brought into normal form. -/
inductive Target (ovs : Ovs) (containers : List Container) (labels : List Label)
    (connections : List Connection) (flow : Flow) : Prop
  | container (dbc : Container) (hdbc : dbc ∈ containers) (ofDI ofVeth : ℤ)
      (hwired : Wired ovs dbc ofDI ofVeth)
      (hflow : flow ∈ (station ovs connections dbc ofDI ofVeth).flows)
  | label (label : Label) (hlabel : label ∈ labels) (hflow : flow ∈ labelFlows ovs containers label)

/-- Addresses are words. -/
structure Spelled (ovs : Ovs) (containers : List Container) (labels : List Label) : Prop where
  gatewayWord : IsWord ovs.dflGatewayMAC
  macWords : ∀ dbc ∈ containers, IsWord dbc.mac
  ipWords : ∀ label ∈ labels, IsWord label.ip

/-- Containers differ in their addresses and ports, and labels in their addresses. -/
structure Addressed (ovs : Ovs) (containers : List Container) (labels : List Label) : Prop extends
    Spelled ovs containers labels where
  macs : (containers.map Container.mac).Nodup
  ports : (containers.flatMap fun dbc =>
    [ovs.getOFPortNo (peerDI dbc.schedID), ovs.getOFPortNo (vethOut dbc.schedID)]).Nodup
  ips : (labels.map Label.ip).Nodup

theorem Target.plain (hspelled : Spelled ovs containers labels) {flow : Flow}
    (htarget : Target ovs containers labels connections flow) : flow.Plain := by
  cases htarget with
  | container dbc hdbc ofDI ofVeth hwired hflow =>
      exact Station.plain_of_mem (s := station ovs connections dbc ofDI ofVeth)
        (hspelled.macWords dbc hdbc) hspelled.gatewayWord flow hflow
  | label label hlabel hflow =>
      exact plain_of_mem_labelFlows (hspelled.ipWords label hlabel)
        (fun dbc hdbc _ => hspelled.macWords dbc hdbc) hflow

theorem makeTargetRule_plain {flow : Flow} (hplain : flow.Plain) :
    makeTargetRule flow = .ok flow.rule := by
  rw [makeTargetRule, hplain.makeOFRule_text]

theorem mem_target {flowLists : List (List Flow)}
    (hcollect : Outcome.collect (containerFlows ovs connections) containers = .ok flowLists)
    {flow : Flow} :
    flow ∈ flowLists.flatten ++ labels.flatMap (labelFlows ovs containers) ↔
      Target ovs containers labels connections flow := by
  have hlists := (Outcome.mem_collect hcollect).1
  rw [List.mem_append, List.mem_flatten, List.mem_flatMap]
  constructor
  · rintro (⟨flows, hflows, hflow⟩ | ⟨label, hlabel, hflow⟩)
    · rcases (hlists flows).mp hflows with ⟨dbc, hdbc, hok⟩
      rcases containerFlows_eq_ok.mp hok with ⟨ofDI, ofVeth, hwired, rfl⟩
      exact .container dbc hdbc ofDI ofVeth hwired hflow
    · exact .label label hlabel hflow
  · rintro (⟨dbc, hdbc, ofDI, ofVeth, hwired, hflow⟩ | ⟨label, hlabel, hflow⟩)
    · refine .inl ⟨_, (hlists _).mpr ⟨dbc, hdbc, ?_⟩, hflow⟩
      exact containerFlows_eq_ok.mpr ⟨ofDI, ofVeth, hwired, rfl⟩
    · exact .inr ⟨label, hlabel, hflow⟩

theorem generateTargetOpenFlow_eq_map (hspelled : Spelled ovs containers labels)
    {flowLists : List (List Flow)}
    (hcollect : Outcome.collect (containerFlows ovs connections) containers = .ok flowLists) :
    generateTargetOpenFlow ovs containers labels connections =
      .ok ((flowLists.flatten ++ labels.flatMap (labelFlows ovs containers)).map Flow.rule) := by
  rw [generateTargetOpenFlow, hcollect]
  exact Outcome.collect_eq_map fun flow hflow =>
    makeTargetRule_plain (((mem_target hcollect).mp hflow).plain hspelled)

theorem exists_run (hspelled : Spelled ovs containers labels)
    (hwired : ∀ dbc ∈ containers, ∃ ofDI ofVeth, Wired ovs dbc ofDI ofVeth) :
    ∃ rules, generateTargetOpenFlow ovs containers labels connections = .ok rules := by
  have hflows : ∀ dbc ∈ containers, ∃ flows, containerFlows ovs connections dbc = .ok flows := by
    intro dbc hdbc
    rcases hwired dbc hdbc with ⟨ofDI, ofVeth, hdbcWired⟩
    exact ⟨_, containerFlows_eq_ok.mpr ⟨ofDI, ofVeth, hdbcWired, rfl⟩⟩
  rcases Outcome.exists_collect hflows with ⟨flowLists, hcollect⟩
  exact ⟨_, generateTargetOpenFlow_eq_map hspelled hcollect⟩

/-- The rules of a run are the normal forms of the target flows, and all containers have ports. -/
theorem run_cases (haddressed : Addressed ovs containers labels)
    (hrun : generateTargetOpenFlow ovs containers labels connections = .ok rules) :
    (∀ dbc ∈ containers, ∃ ofDI ofVeth, Wired ovs dbc ofDI ofVeth) ∧
      ∀ rule, rule ∈ rules ↔
        ∃ flow, Target ovs containers labels connections flow ∧ flow.rule = rule := by
  rcases Outcome.bind_eq_ok.mp hrun with ⟨flowLists, hcollect, -⟩
  constructor
  · intro dbc hdbc
    rcases (Outcome.mem_collect hcollect).2 dbc hdbc with ⟨flows, hflows⟩
    rcases containerFlows_eq_ok.mp hflows with ⟨ofDI, ofVeth, hwired, -⟩
    exact ⟨ofDI, ofVeth, hwired⟩
  · rw [generateTargetOpenFlow_eq_map haddressed.toSpelled hcollect] at hrun
    cases hrun
    intro rule
    simp only [List.mem_map, mem_target hcollect]

/-! ## Conflicts -/

/-- The public internet may connect to the container. -/
def OpenToPublic (connections : List Connection) (dbc : Container) : Prop :=
  ∃ conn ∈ connections, conn.fromLabel = publicInternetLabel ∧ conn.toLabel ∈ dbc.labels ∧
    conn.toLabel ≠ publicInternetLabel

instance (connections : List Connection) (dbc : Container) :
    Decidable (OpenToPublic connections dbc) :=
  inferInstanceAs (Decidable (∃ conn ∈ connections, _))

theorem mem_portsFromWeb {dbc : Container} {port : ℤ} :
    port ∈ portsFromWeb connections dbc ↔
      ∃ conn ∈ connections, conn.minPort = port ∧ conn.fromLabel = publicInternetLabel ∧
        conn.toLabel ∈ dbc.labels ∧ conn.toLabel ≠ publicInternetLabel := by
  simp only [portsFromWeb, List.mem_dedup, List.mem_flatMap, List.mem_map, List.mem_filter,
    decide_eq_true_eq]
  constructor
  · rintro ⟨l, hl, conn, ⟨hconn, hnot, hfrom, rfl⟩, hport⟩
    refine ⟨conn, hconn, hport, hfrom, hl, fun hpublic => hnot ⟨?_, hpublic⟩⟩
    rw [hfrom, hpublic]
  · rintro ⟨conn, hconn, hport, hfrom, hto, hpublic⟩
    exact ⟨conn.toLabel, hto, conn, ⟨hconn, fun hboth => hpublic hboth.2, hfrom, rfl⟩, hport⟩

theorem listens_station {dbc : Container} {ofDI ofVeth : ℤ} {mac : String} :
    (station ovs connections dbc ofDI ofVeth).Listens mac ↔
      mac = dbc.mac ∨ mac = broadcastMac ∧ OpenToPublic connections dbc := by
  have hports : (station ovs connections dbc ofDI ofVeth).portsFromWeb ≠ [] ↔
      OpenToPublic connections dbc := by
    constructor
    · intro hne
      rcases List.exists_mem_of_ne_nil _ hne with ⟨port, hport⟩
      rw [station, IterOrder.mem_visit, mem_portsFromWeb] at hport
      rcases hport with ⟨conn, hconn, -, hopen⟩
      exact ⟨conn, hconn, hopen⟩
    · rintro ⟨conn, hconn, hopen⟩
      apply List.ne_nil_of_mem (a := conn.minPort)
      rw [station, IterOrder.mem_visit, mem_portsFromWeb]
      exact ⟨conn, hconn, rfl, hopen⟩
  rw [Station.Listens, hports]
  rfl

theorem Addressed.di_ne_veth (haddressed : Addressed ovs containers labels) {dbc : Container}
    (hdbc : dbc ∈ containers) {ofDI ofVeth : ℤ} (hwired : Wired ovs dbc ofDI ofVeth) :
    ofDI ≠ ofVeth := by
  have hnodup := (List.nodup_flatMap.mp haddressed.ports).1 dbc hdbc
  rw [hwired.di, hwired.veth] at hnodup
  simpa using hnodup

theorem Addressed.ports_disjoint (haddressed : Addressed ovs containers labels)
    {dbc other : Container} (hdbc : dbc ∈ containers) (hother : other ∈ containers)
    (hne : dbc ≠ other) {ofDI ofVeth ofDI' ofVeth' : ℤ} (hwired : Wired ovs dbc ofDI ofVeth)
    (hwired' : Wired ovs other ofDI' ofVeth') {port : ℤ}
    (hport : (station ovs connections dbc ofDI ofVeth).HasPort port) :
    ¬(station ovs connections other ofDI' ofVeth').HasPort port := by
  have hsymm : Std.Symm (Function.onFun List.Disjoint fun dbc : Container =>
      [ovs.getOFPortNo (peerDI dbc.schedID), ovs.getOFPortNo (vethOut dbc.schedID)]) :=
    ⟨fun _ _ hdisjoint => List.Disjoint.symm hdisjoint⟩
  have hdisjoint := (List.nodup_flatMap.mp haddressed.ports).2.forall hdbc hother hne
  simp only [Function.onFun, hwired.di, hwired.veth, hwired'.di, hwired'.veth] at hdisjoint
  intro hport'
  have hmem : some port ∈ [some ofDI, some ofVeth] := by
    simpa [Station.HasPort, station] using hport
  have hmem' : some port ∈ [some ofDI', some ofVeth'] := by
    simpa [Station.HasPort, station] using hport'
  exact hdisjoint hmem hmem'

theorem Station.actions_arpIn (s : Station) (mac : String) :
    (s.arpIn mac).rule.actions = "output:" ++ intText s.ofVeth :=
  Flow.rule_action rfl (isAction_output s.ofVeth)

/-- Overlapping flows agree, unless two containers take packets for one address. -/
theorem Target.actions_eq (haddressed : Addressed ovs containers labels)
    (happart : ∀ dbc ∈ containers, ∀ other ∈ containers, dbc ≠ other →
      OpenToPublic connections dbc →
        ¬OpenToPublic connections other ∧ other.mac ≠ broadcastMac)
    {flow other : Flow} (hflow : Target ovs containers labels connections flow)
    (hother : Target ovs containers labels connections other) (hover : flow.Overlaps other) :
    flow.actions = other.actions := by
  rcases hflow with ⟨dbc, hdbc, ofDI, ofVeth, hwired, hflow⟩ | ⟨label, hlabel, hflow⟩
  · rcases hother with ⟨dbc', hdbc', ofDI', ofVeth', hwired', hother⟩ | ⟨label', hlabel', hother⟩
    · by_cases hne : dbc = dbc'
      · subst hne
        have hdi : ofDI = ofDI' := Option.some.inj (hwired.di.symm.trans hwired'.di)
        have hveth : ofVeth = ofVeth' := Option.some.inj (hwired.veth.symm.trans hwired'.veth)
        subst hdi hveth
        exact Station.actions_eq_of_overlaps (haddressed.di_ne_veth hdbc hwired) hflow hother hover
      · exfalso
        rcases Station.shared_of_overlaps hflow hother hover with
          ⟨port, hport, hport'⟩ | ⟨mac, hmac, hmac'⟩
        · exact haddressed.ports_disjoint hdbc hdbc' hne hwired hwired' hport hport'
        · rw [listens_station] at hmac hmac'
          rcases hmac with rfl | ⟨rfl, hopen⟩
          · rcases hmac' with hsame | ⟨hbroadcast, hopen'⟩
            · exact hne (List.inj_on_of_nodup_map haddressed.macs hdbc hdbc' hsame)
            · exact (happart dbc' hdbc' dbc hdbc (Ne.symm hne) hopen').2 hbroadcast
          · rcases hmac' with hsame | ⟨-, hopen'⟩
            · exact (happart dbc hdbc dbc' hdbc' hne hopen).2 hsame.symm
            · exact (happart dbc hdbc dbc' hdbc' hne hopen).1 hopen'
    · have hmem := (hover.2 _).mpr ((mem_nwDst_labelFlows hother).mpr rfl)
      exact absurd hmem (Station.nwDst_not_mem _ flow hflow)
  · have hmem := (hover.2 _).mp ((mem_nwDst_labelFlows hflow).mpr rfl)
    rcases hother with ⟨dbc', hdbc', ofDI', ofVeth', hwired', hother⟩ | ⟨label', hlabel', hother⟩
    · exact absurd hmem (Station.nwDst_not_mem _ other hother)
    · have hlabels : label = label' := List.inj_on_of_nodup_map haddressed.ips hlabel hlabel'
        ((mem_nwDst_labelFlows hother).mp hmem)
      subst hlabels
      exact labelFlows_actions_eq hflow hother hover

end Target

/-- The rules of the target do not conflict exactly if at most one container is open to
the public internet, and then no other container has the broadcast address. -/
theorem generateTargetOpenFlow_agrees_iff (ovs : Ovs) (containers : List Container)
    (labels : List Label) (connections : List Connection) (rules : List OFRule)
    (haddressed : Addressed ovs containers labels)
    (hrun : generateTargetOpenFlow ovs containers labels connections = .ok rules) :
    (∀ rule ∈ rules, ∀ other ∈ rules, ¬Conflict rule other) ↔
      ∀ dbc ∈ containers, ∀ other ∈ containers, dbc ≠ other → OpenToPublic connections dbc →
        ¬OpenToPublic connections other ∧ other.mac ≠ broadcastMac := by
  rcases run_cases haddressed hrun with ⟨hwired, hrules⟩
  constructor
  · intro hagree dbc hdbc other hother hne hopen
    rcases hwired dbc hdbc with ⟨ofDI, ofVeth, hdbcWired⟩
    rcases hwired other hother with ⟨ofDI', ofVeth', hotherWired⟩
    -- both containers claim the broadcasts of the gateway
    have hshared : ¬(station ovs connections other ofDI' ofVeth').Listens broadcastMac := by
      intro hlistens
      have hflow : Target ovs containers labels connections _ :=
        .container dbc hdbc ofDI ofVeth hdbcWired
          (Station.arpIn_mem_flows (listens_station.mpr (.inr ⟨rfl, hopen⟩)))
      have hflow' : Target ovs containers labels connections _ :=
        .container other hother ofDI' ofVeth' hotherWired (Station.arpIn_mem_flows hlistens)
      apply hagree _ ((hrules _).mpr ⟨_, hflow, rfl⟩) _ ((hrules _).mpr ⟨_, hflow', rfl⟩)
      rw [Flow.Plain.conflict_iff (hflow.plain haddressed.toSpelled)
        (hflow'.plain haddressed.toSpelled)]
      refine ⟨⟨rfl, fun field => Iff.rfl⟩, fun hactions => ?_⟩
      rw [Station.actions_arpIn, Station.actions_arpIn, String.append_right_inj,
        intText_inj] at hactions
      exact haddressed.ports_disjoint hdbc hother hne hdbcWired hotherWired (.inr hactions.symm)
        (.inr rfl)
    rw [listens_station, not_or] at hshared
    exact ⟨fun hopen' => hshared.2 ⟨rfl, hopen'⟩, fun hmac => hshared.1 hmac.symm⟩
  · intro happart rule hrule other hother hconflict
    rcases (hrules rule).mp hrule with ⟨flow, hflow, rfl⟩
    rcases (hrules other).mp hother with ⟨flow', hflow', rfl⟩
    rw [Flow.Plain.conflict_iff (hflow.plain haddressed.toSpelled)
        (hflow'.plain haddressed.toSpelled)] at hconflict
    apply hconflict.2
    rw [Flow.rule, Flow.rule, Flow.actionsText, Flow.actionsText,
      hflow.actions_eq haddressed happart hflow' hconflict.1]

/-- A bridge with two containers. -/
def bridge : Ovs where
  dflGatewayMAC := "02:00:0a:00:00:01"
  opens := fun _ => true
  getOFPortNo := fun name => [("4ac7fdc8d2be_di", 1), ("4ac7fdc8d2be1_c", 2),
    ("c00210c91fbb_di", 3), ("c00210c91fbb2_c", 4)].lookup name
  fromWebOrder := fun _ => .asStored ℤ
  toWebOrder := fun _ => .asStored ℤ
  macOrder := fun _ => .asStored String

def red : Container :=
  { ID := 1, mac := "02:00:0a:00:00:02", schedID := "4ac7fdc8d2be1", labels := ["red", "all"] }

def blue : Container :=
  { ID := 2, mac := "02:00:0a:00:00:03", schedID := "c00210c91fbb2", labels := ["blue", "all"] }

def allLabel : List Label := [{ ID := 3, label := "all", ip := "10.0.0.5", multiHost := true }]

def toRed : Connection :=
  { ID := 4, fromLabel := "public", toLabel := "red", minPort := 80, maxPort := 80 }

def toBlue : Connection :=
  { ID := 5, fromLabel := "public", toLabel := "blue", minPort := 443, maxPort := 443 }

theorem addressed_bridge : Addressed bridge [red, blue] allLabel where
  gatewayWord := by decide
  macWords := by decide
  ipWords := by decide
  macs := by decide
  ports := by decide
  ips := by decide

theorem wired_red : Wired bridge red 1 2 :=
  ⟨by decide, rfl, by decide, by decide, by decide⟩

theorem wired_blue : Wired bridge blue 3 4 :=
  ⟨by decide, rfl, by decide, by decide, by decide⟩

theorem exists_run_bridge (connections : List Connection) :
    ∃ rules, generateTargetOpenFlow bridge [red, blue] allLabel connections = .ok rules := by
  apply exists_run addressed_bridge.toSpelled
  rw [List.forall_mem_cons, List.forall_mem_singleton]
  exact ⟨⟨1, 2, wired_red⟩, 3, 4, wired_blue⟩

theorem generateTargetOpenFlow_agrees_iff_toRed :
    ∃ rules, generateTargetOpenFlow bridge [red, blue] allLabel [toRed] = .ok rules ∧
      ∀ rule ∈ rules, ∀ other ∈ rules, ¬Conflict rule other := by
  rcases exists_run_bridge [toRed] with ⟨rules, hrun⟩
  refine ⟨rules, hrun, ?_⟩
  rw [generateTargetOpenFlow_agrees_iff bridge [red, blue] allLabel [toRed] rules
    addressed_bridge hrun]
  decide

def broadcastRule (actions : String) : OFRule :=
  ⟨"table=0", "arp,dl_dst=ff:ff:ff:ff:ff:ff,in_port=LOCAL,priority=4500", actions⟩

/-- With two containers open to the public internet, the broadcasts of the gateway are
sent to either of them. -/
theorem broadcasts_conflict :
    Addressed bridge [red, blue] allLabel ∧
      ∃ rules, generateTargetOpenFlow bridge [red, blue] allLabel [toRed, toBlue] = .ok rules ∧
        broadcastRule "output:2" ∈ rules ∧ broadcastRule "output:4" ∈ rules ∧
          Conflict (broadcastRule "output:2") (broadcastRule "output:4") := by
  rcases exists_run_bridge [toRed, toBlue] with ⟨rules, hrun⟩
  have hopen : ∀ dbc ∈ [red, blue], OpenToPublic [toRed, toBlue] dbc := by decide
  have harp : ∀ dbc ∈ [red, blue], ∀ ofDI ofVeth, Wired bridge dbc ofDI ofVeth →
      ((station bridge [toRed, toBlue] dbc ofDI ofVeth).arpIn broadcastMac).rule ∈ rules := by
    intro dbc hdbc ofDI ofVeth hwired
    refine ((run_cases addressed_bridge hrun).2 _).mpr
      ⟨_, .container dbc hdbc ofDI ofVeth hwired (Station.arpIn_mem_flows ?_), rfl⟩
    exact listens_station.mpr (.inr ⟨rfl, hopen dbc hdbc⟩)
  have hred : ((station bridge [toRed, toBlue] red 1 2).arpIn broadcastMac).rule =
      broadcastRule "output:2" := by decide
  have hblue : ((station bridge [toRed, toBlue] blue 3 4).arpIn broadcastMac).rule =
      broadcastRule "output:4" := by decide
  refine ⟨addressed_bridge, rules, hrun, ?_, ?_, ⟨rfl, fun field => Iff.rfl⟩, ?_⟩
  · exact hred ▸ harp red (by simp) 1 2 wired_red
  · exact hblue ▸ harp blue (by simp) 3 4 wired_blue
  · change "output:2" ≠ "output:4"
    decide

end OpenFlow
end Di
