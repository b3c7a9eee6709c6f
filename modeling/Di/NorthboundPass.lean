import Di.KeyJoin
import Di.NorthboundStore

/-!
# A pass of the leader over the rows of OVN

Rows of the northbound database represent a list of ports and a list of rules.  Every call of the
client does to the rows what its counterpart does to the lists, so a pass of the leader does as
well; the switch is created when there is none, although the call that creates it always reports
an error.
-/

namespace Di
namespace Northbound

open Db Ovsdb
open LogicalPorts (LPort Request labelRequests containerRequests addressed attached isLeader)
open NetworkAcl (Acl aclScore targetACLs)
open Procedure (Returns Leaves returns_of_and leaves_of_and)

/-- Rows that have these ports and rules, in some order. -/
structure Rows.Stand (rows : Rows) (ports : List LPort) (acls : List Acl) : Prop where
  ports : (rows.ports.list.map Prod.snd).Perm ports
  acls : (rows.acls.list.map Prod.snd).Perm acls

/-- The database has the switch of the leader with these ports and rules. -/
def Represents {σ : Type} (holds : Option Rows → ℕ → σ → Prop) (ports : List LPort)
    (acls : List Acl) (room : ℕ) (s : σ) : Prop :=
  ∃ rows : Rows, rows.Stand ports acls ∧ holds (some rows) room s

theorem Rows.Stand.names_nodup {rows : Rows} {ports : List LPort} {acls : List Acl}
    (hstand : rows.Stand ports acls) : (ports.map LPort.name).Nodup := by
  have hnames := hstand.ports.map LPort.name
  rw [List.map_map] at hnames
  exact hnames.nodup_iff.mp rows.names_nodup

theorem createPort_perm {ports ports' : List LPort} (hperm : ports.Perm ports')
    (name mac ip : String) : (LogicalPorts.createPort ports name mac ip).Perm
      (LogicalPorts.createPort ports' name mac ip) := by
  unfold LogicalPorts.createPort
  have hnames := (hperm.map LPort.name).mem_iff (a := name)
  by_cases hname : name ∈ ports.map LPort.name
  · rw [if_pos hname, if_pos (hnames.mp hname)]
    exact hperm
  · rw [if_neg hname, if_neg (mt hnames.mpr hname)]
    exact hperm.append_right _

section Calls

variable {σ : Type} {server : Server Table Column σ} {holds : Option Rows → ℕ → σ → Prop}
  {targets : List Acl} (hserves : Serves server holds targets) (ports : List LPort)
  (acls : List Acl) (room : ℕ)
include hserves

theorem Serves.fewer_le {db : Option Rows} {more room : ℕ} (hle : room ≤ more) {s : σ}
    (hs : holds db more s) : holds db room s := by
  induction hle with
  | refl => exact hs
  | step _ ih => exact ih (hserves.fewer hs)

theorem Serves.leaves_createPort (name mac ip : String) :
    Leaves (Represents holds ports acls (room + 1))
      (Northbound.createPort server lSwitch name mac ip)
      (Represents holds (LogicalPorts.createPort ports name mac ip) acls room) := by
  rintro s ⟨rows, hstand, hs⟩
  obtain ⟨hends, rows', hs', hacls, hports⟩ := hserves.createPort rows room name mac ip s hs
  refine ⟨hends, rows', ⟨?_, hacls ▸ hstand.acls⟩, hs'⟩
  rw [hports]
  exact createPort_perm hstand.ports name mac ip

theorem Serves.returns_deletePort (name : String) :
    Returns (Represents holds ports acls room) (Northbound.deletePort server lSwitch name) fun _ =>
      Represents holds (LogicalPorts.deletePort ports name) acls room := by
  rintro s ⟨rows, hstand, hs⟩
  obtain ⟨_, after, failures, hran, rows', hs', hacls, hports⟩ :=
    hserves.deletePort rows room name s hs
  refine ⟨_, after, failures, hran, rows', ⟨?_, hacls ▸ hstand.acls⟩, hs'⟩
  rw [LogicalPorts.deletePort_eq_filter hstand.names_nodup, hports]
  exact hstand.ports.filter _

theorem Serves.returns_createACL {acl : Acl} (hacl : acl ∈ targets) :
    Returns (Represents holds ports acls (room + 1)) (Northbound.createACL server lSwitch acl)
      fun _ => Represents holds ports (NetworkAcl.createACL acls acl) room := by
  rintro s ⟨rows, hstand, hs⟩
  obtain ⟨_, after, failures, hran, rows', hs', hports, hacls⟩ :=
    hserves.createACL rows room hacl s hs
  refine ⟨_, after, failures, hran, rows', ⟨hports ▸ hstand.ports, ?_⟩, hs'⟩
  rw [hacls]
  exact hstand.acls.append_right _

theorem Serves.returns_deleteACL (acl : Acl) :
    Returns (Represents holds ports acls room) (Northbound.deleteACL server lSwitch acl) fun _ =>
      Represents holds ports (NetworkAcl.deleteACL acls acl) room := by
  rintro s ⟨rows, hstand, hs⟩
  obtain ⟨_, after, failures, hran, rows', hs', hports, hacls⟩ :=
    hserves.deleteACL rows room acl s hs
  refine ⟨_, after, failures, hran, rows', ⟨hports ▸ hstand.ports, ?_⟩, hs'⟩
  rw [hacls]
  exact hstand.acls.filter _

/-! ## Loops -/

theorem Serves.claims (requests : List Request) (garbage : List String) :
    Returns (Represents holds ports acls (room + requests.length))
      (claims server garbage requests) fun left s =>
        left = (requests.foldl LogicalPorts.claim (garbage, ports)).1 ∧
        Represents holds (requests.foldl LogicalPorts.claim (garbage, ports)).2 acls room s := by
  induction requests generalizing garbage ports with
  | nil => exact .pure fun s hs => ⟨rfl, hs⟩
  | cons request rest ih =>
      rw [Northbound.claims, List.foldl_cons, LogicalPorts.claim, List.length_cons]
      by_cases hold : request.1 ∈ garbage
      · rw [if_pos hold, if_pos hold]
        rintro s ⟨rows, hstand, hs⟩
        exact ih ports (garbage.filter (· ≠ request.1)) s ⟨rows, hstand, hserves.fewer hs⟩
      · rw [if_neg hold, if_neg hold]
        exact (returns_contained (hserves.leaves_createPort ports acls (room + rest.length)
          request.1 request.2.1 request.2.2)).bind fun _ => ih _ garbage

theorem Serves.deletePorts (names : List String) :
    Returns (Represents holds ports acls room)
      (Procedure.forEach (fun name => logged (Northbound.deletePort server lSwitch name)) names)
      fun _ => Represents holds (names.foldl LogicalPorts.deletePort ports) acls room :=
  returns_forEach (p := fun _ _ => True) (R := fun _ ports => Represents holds ports acls room)
    (fun name _ ports _ => ⟨trivial, (hserves.returns_deletePort ports acls room name).leaves⟩)
    names ports trivial

theorem Serves.createACLs {list : List Acl} (hlist : ∀ acl ∈ list, acl ∈ targets) :
    Returns (Represents holds ports acls (room + list.length))
      (Procedure.forEach (fun acl => logged (Northbound.createACL server lSwitch acl)) list)
      fun _ => Represents holds ports (list.foldl NetworkAcl.createACL acls) room := by
  refine returns_forEach
    (R := fun rest acls => Represents holds ports acls (room + rest.length))
    (p := fun rest _ => ∀ acl ∈ rest, acl ∈ targets) ?_ list acls hlist
  intro acl rest acls hrest
  rw [List.forall_mem_cons] at hrest
  exact ⟨hrest.2, (hserves.returns_createACL ports acls (room + rest.length) hrest.1).leaves⟩

theorem Serves.deleteACLs (list : List Acl) :
    Returns (Represents holds ports acls room)
      (Procedure.forEach (fun acl => logged (Northbound.deleteACL server lSwitch acl)) list)
      fun _ => Represents holds ports (list.foldl NetworkAcl.deleteACL acls) room :=
  returns_forEach (p := fun _ _ => True) (R := fun _ acls => Represents holds ports acls room)
    (fun acl _ acls _ => ⟨trivial, (hserves.returns_deleteACL ports acls room acl).leaves⟩)
    list acls trivial

/-- The pass over the rules, in the order in which they are listed. -/
theorem Serves.updateACLs :
    Returns (Represents holds ports acls (room + targets.length)) (updateACLs server targets)
      fun _ s => ∃ rules : List Acl, rules.Perm acls ∧
        Represents holds ports (NetworkAcl.updateACLs targets rules) room s := by
  refine returns_contained (Returns.leaves ?_)
  rintro s ⟨rows, hstand, hs⟩
  revert s
  refine (hserves.connect (some rows) (room + targets.length)).bind fun _ => ?_
  refine (hserves.listACLs rows (room + targets.length)).bind fun listing =>
    returns_of_and fun hperm => ?_
  have hjoin := @Join.join_map _ _ _ aclScore Prod.snd targets listing
  have hsublist := Join.join_lonelyLefts_sublist (fun acl (ovsc : String × Acl) =>
    aclScore acl ovsc.2) targets listing
  set joined := Join.join (fun acl (ovsc : String × Acl) => aclScore acl ovsc.2) targets listing
  have hrules : NetworkAcl.updateACLs targets (listing.map Prod.snd) =
      (joined.lonelyRights.map Prod.snd).foldl NetworkAcl.deleteACL
        (joined.lonelyLefts.foldl NetworkAcl.createACL (listing.map Prod.snd)) := by
    unfold NetworkAcl.updateACLs
    rw [hjoin]
  intro s hs
  have hstart : Represents holds ports (listing.map Prod.snd)
      (room + joined.lonelyLefts.length) s :=
    ⟨rows, ⟨hstand.ports, (hperm.map Prod.snd).symm⟩,
      hserves.fewer_le (Nat.add_le_add_left hsublist.length_le room) hs⟩
  refine (((hserves.createACLs ports _ room fun acl hacl => hsublist.subset hacl).bind fun _ =>
    hserves.deleteACLs ports _ room (joined.lonelyRights.map Prod.snd)).imp ?_) s hstart
  intro _ after hafter
  exact ⟨listing.map Prod.snd, (hperm.map Prod.snd).trans hstand.acls, hrules ▸ hafter⟩

end Calls

/-! ## The pass -/

section Pass

variable (orders : LogicalPorts.Orders) (connOrder : IterOrder Connection)
  (matchOrder : IterOrder String) (view : Database)

/-- The ports that the leader asks for. -/
def requests : List Request :=
  labelRequests (view.select .label orders.label addressed) ++
    containerRequests (view.select .container orders.container attached)

/-- The rules that the leader wants. -/
def rulesOf : List Acl :=
  targetACLs matchOrder (view.select .connection connOrder fun _ => true)
    (view.select .label orders.label addressed)
    (view.select .container orders.container attached)

variable {orders connOrder matchOrder view}

/-- A pass of the leader over the rows of OVN is the pass over its ports followed by the one over
its rules, both in the order in which they are listed. -/
theorem runMaster_refines {σ : Type} {server : Server Table Column σ}
    {holds : Option Rows → ℕ → σ → Prop}
    (hserves : Serves server holds (rulesOf orders connOrder matchOrder view))
    (hleader : isLeader (view.select .etcd orders.etcd fun _ => true) = true)
    {db : Option Rows} {ports : List LPort} {acls : List Acl}
    (hstand : (db.getD .empty).Stand ports acls) {room : ℕ} {s : σ}
    (hs : holds db (room + (rulesOf orders connOrder matchOrder view).length +
      (requests orders view).length + 1) s) :
    ∃ after failures lports rules, lports.Perm ports ∧ rules.Perm acls ∧
      runMaster server orders connOrder matchOrder view s = ⟨.ok (), after, failures⟩ ∧
      Represents holds (LogicalPorts.runMaster orders view lports)
        (NetworkAcl.updateACLs (rulesOf orders connOrder matchOrder view) rules) room after := by
  set targets := rulesOf orders connOrder matchOrder view with htargets
  set rows := db.getD .empty with hrows
  have hpass : Returns (holds db (room + targets.length + (requests orders view).length + 1))
      (runMaster server orders connOrder matchOrder view) fun _ s =>
        ∃ lports : List LPort, lports.Perm ports ∧ ∃ rules : List Acl, rules.Perm acls ∧
          Represents holds (LogicalPorts.runMaster orders view lports)
            (NetworkAcl.updateACLs targets rules) room s := by
    unfold runMaster
    rw [if_pos hleader]
    refine returns_contained (Returns.leaves ?_)
    refine (hserves.connect db _).bind fun _ => ?_
    refine (returns_contained (hserves.createSwitch _ db)).bind fun _ => ?_
    refine (hserves.listPorts rows _).bind fun listed => returns_of_and ?_
    rintro ⟨list, hlist, hnames⟩
    -- the ports that are stored, in the order in which they are listed
    set lports := list.map Prod.snd with hlports
    have hsame : listed.map LPort.name = lports.map LPort.name := by
      rw [hnames, hlports, List.map_map]
      rfl
    rw [hsame]
    have hclaims := hserves.claims lports acls (room + targets.length) (requests orders view)
      (lports.map LPort.name).dedup
    intro s hs
    refine (hclaims.bind fun left => returns_of_and ?_) s ⟨rows, ?_, hs⟩
    · rintro rfl
      refine (hserves.deletePorts _ acls _ _).bind fun _ =>
        (hserves.updateACLs _ acls room).imp ?_
      rintro - s ⟨rules, hrules, hs⟩
      refine ⟨lports, ?_, rules, hrules, ?_⟩
      · exact (hlist.map Prod.snd).trans hstand.ports
      · unfold LogicalPorts.runMaster
        rw [if_pos hleader]
        exact hs
    · exact ⟨(hlist.map Prod.snd).symm, hstand.acls⟩
  obtain ⟨_, after, failures, hran, lports, hports, rules, hrules, hafter⟩ := hpass s hs
  exact ⟨after, failures, lports, rules, hports, hrules, hran, hafter⟩

end Pass

def emptyContents : Contents Table Column :=
  ⟨fun _ => [], ["5f2c0000-0000-4000-8000-000000000001", "5f2c0000-0000-4000-8000-000000000002",
    "5f2c0000-0000-4000-8000-000000000003", "5f2c0000-0000-4000-8000-000000000004"]⟩

theorem stored_emptyContents : Stored none 4 emptyContents :=
  .none (by decide) ⟨by decide, by decide, by simp⟩

theorem runMaster_refines_webLabel :
    ∃ after failures lports rules, lports.Perm [] ∧ rules.Perm [] ∧
      runMaster (schema.server .asStored) LogicalPorts.storedOrders (.asStored Connection)
        (.asStored String) LogicalPorts.webLabel emptyContents = ⟨.ok (), after, failures⟩ ∧
      Represents Stored (LogicalPorts.runMaster LogicalPorts.storedOrders LogicalPorts.webLabel
          lports)
        (NetworkAcl.updateACLs (rulesOf LogicalPorts.storedOrders (.asStored Connection)
          (.asStored String) LogicalPorts.webLabel) rules) 0 after := by
  have hstand : ((none : Option Rows).getD .empty).Stand [] [] := ⟨.refl _, .refl _⟩
  exact runMaster_refines (stored_serves .asStored _) (by decide) hstand stored_emptyContents

end Northbound
end Di
