import Di.MinionServer

/-!
# The foreman

The foreman keeps one client for each machine of its cluster and tells the minions
what they should be.  It compares the configuration that a minion reports with the
one the machine should have, and sends the latter if they differ.  A minion never
reports its specification, so that a cluster with a specification is configured
anew in every pass.
-/

namespace Di

open Db Minion

/-! ## The clients -/

/-- `minion` of the source; the clients are numbered in the order of their creation. -/
structure Foreman.Entry where
  client : ℕ
  connected : Bool := false
  machine : Machine
  config : MinionConfig := {}
  /-- Mark and sweep garbage collection. -/
  mark : Bool := false

/-- By public IP. -/
abbrev Foreman.Minions := AList fun _ : String => Foreman.Entry

/-- The foreman between two passes, when no entry is marked. -/
structure Foreman where
  clusterID : ℕ
  minions : Foreman.Minions := ∅
  spec : String := ""
  /-- How many clients were created, and which of them were closed. -/
  created : ℕ := 0
  closed : List ℕ := []
  unmarked : ∀ ip entry, minions.lookup ip = some entry → entry.mark = false := by simp

namespace Foreman

def createForeman (clusterID : ℕ) : Foreman := { clusterID := clusterID }

def mapEntries (f : String → Entry → Entry) (minions : Minions) : Minions where
  entries := minions.entries.map fun e => ⟨e.1, f e.1 e.2⟩
  nodupKeys := by
    have hkeys : (minions.entries.map fun e => (⟨e.1, f e.1 e.2⟩ : Σ _ : String, Entry)).keys =
        minions.entries.keys := by
      simp [List.keys]
    rw [List.NodupKeys, hkeys]
    exact minions.nodupKeys

def filterEntries (keep : Entry → Bool) (minions : Minions) : Minions where
  entries := minions.entries.filter fun e => keep e.2
  nodupKeys := minions.nodupKeys.sublist List.filter_sublist

theorem lookup_mapEntries (f : String → Entry → Entry) (minions : Minions) (ip : String) :
    (mapEntries f minions).lookup ip = (minions.lookup ip).map (f ip) :=
  List.dlookup_map₂ ip

theorem lookup_filterEntries {keep : Entry → Bool} {minions : Minions} {ip : String}
    {entry : Entry} :
    (filterEntries keep minions).lookup ip = some entry ↔
      minions.lookup ip = some entry ∧ keep entry = true := by
  rw [← Option.mem_def, ← Option.mem_def, AList.mem_lookup_iff, AList.mem_lookup_iff,
    filterEntries, List.mem_filter]

/-- What a pass does not determine itself: iteration orders and which calls succeed. -/
structure Turn where
  machineOrder : IterOrder Machine
  clusterOrder : IterOrder Cluster
  /-- The traversals of the map of minions. -/
  sweepOrder : IterOrder (Σ _ : String, Entry)
  etcdOrder : IterOrder (Σ _ : String, Entry)
  sendOrder : IterOrder (Σ _ : String, Entry)
  /-- The order in which a minion reads its own table. -/
  minionOrder : IterOrder Minion
  /-- `newClient`, `getMinion` and `setMinion`. -/
  dials : Machine → Bool
  gets : String → Bool
  sets : String → Bool

/-- An iteration of the first loop of `updateMinionMap`, with the number of clients. -/
def markMachine (dials : Machine → Bool) (state : Minions × ℕ) (m : Machine) : Minions × ℕ :=
  match state.1.lookup m.publicIP with
  | some min => (state.1.insert m.publicIP { min with machine := m, mark := true }, state.2)
  | none =>
      if dials m then
        (state.1.insert m.publicIP { client := state.2, machine := m, mark := true },
          state.2 + 1)
      else state

def markAll (dials : Machine → Bool) (machines : List Machine) (state : Minions × ℕ) :
    Minions × ℕ :=
  machines.foldl (markMachine dials) state

/-- What the second loop leaves in the map. -/
def sweep (minions : Minions) : Minions :=
  mapEntries (fun _ min => { min with mark := false }) (filterEntries Entry.mark minions)

theorem lookup_sweep {minions : Minions} {ip : String} {entry : Entry} :
    (sweep minions).lookup ip = some entry ↔
      ∃ min, minions.lookup ip = some min ∧ min.mark = true ∧
        entry = { min with mark := false } := by
  rw [sweep, lookup_mapEntries, Option.map_eq_some_iff]
  constructor
  · intro hentry
    rcases hentry with ⟨min, hmin, heq⟩
    rcases lookup_filterEntries.mp hmin with ⟨hlookup, hmark⟩
    exact ⟨min, hlookup, hmark, heq.symm⟩
  · intro hentry
    rcases hentry with ⟨min, hlookup, hmark, heq⟩
    exact ⟨min, lookup_filterEntries.mpr ⟨hlookup, hmark⟩, heq.symm⟩

def updateMinionMap (turn : Turn) (machines : List Machine) (fm : Foreman) : Foreman :=
  let marked := markAll turn.dials machines (fm.minions, fm.created)
  let unmarked := turn.sweepOrder.visit (marked.1.entries.filter fun e => !e.2.mark)
  { fm with
    minions := sweep marked.1
    created := marked.2
    closed := fm.closed ++ unmarked.map fun e => e.2.client
    unmarked := by
      intro ip entry hentry
      rcases lookup_sweep.mp hentry with ⟨min, _, _, rfl⟩
      rfl }

/-! ## A pass -/

/-- The databases of the minions, by public IP. -/
abbrev Servers := String → Database

def getMinion (turn : Turn) (servers : Servers) (ip : String) : Option MinionConfig :=
  if turn.gets ip then getMinionConfig turn.minionOrder (servers ip) else none

def poll (turn : Turn) (servers : Servers) (ip : String) (m : Entry) : Entry :=
  match getMinion turn servers ip with
  | some config => { m with config := config, connected := true }
  | none => { m with config := {}, connected := false }

inductive Request
  | setMinionConfig (ip : String) (msg : MinionConfig)
  | bootEtcd (ip : String) (members : List String)
  deriving DecidableEq, Repr

def newConfig (spec : String) (machine : Machine) : MinionConfig where
  ID := machine.cloudID
  role := machine.role
  privateIP := machine.privateIP
  spec := spec

/-- An unsuccessful `bootEtcd` is only logged. -/
def configure (turn : Turn) (spec : String) (etcdIPs : List String) (e : Σ _ : String, Entry) :
    List Request :=
  if e.2.connected = false then []
  else if newConfig spec e.2.machine = e.2.config then []
  else
    .setMinionConfig e.1 (newConfig spec e.2.machine) ::
      if turn.sets e.1 then [.bootEtcd e.1 etcdIPs] else []

/-- The machines that can be contacted. -/
def manages (fm : Foreman) (m : Machine) : Bool :=
  m.clusterID = fm.clusterID ∧ m.publicIP ≠ "" ∧ m.privateIP ≠ "" ∧ m.cloudID ≠ ""

def soleSpec : List Cluster → String
  | [c] => c.spec
  | _ => ""

/-- `runOnce` up to the answers of the minions. -/
def contact (turn : Turn) (db : Database) (servers : Servers) (fm : Foreman) : Foreman :=
  let machines := db.select .machine turn.machineOrder fm.manages
  let clusters := db.select .cluster turn.clusterOrder fun c => c.ID = fm.clusterID
  let updated := updateMinionMap turn machines { fm with spec := soleSpec clusters }
  { updated with
    minions := mapEntries (poll turn servers) updated.minions
    unmarked := by
      intro ip entry hentry
      rw [lookup_mapEntries, Option.map_eq_some_iff] at hentry
      rcases hentry with ⟨min, hmin, rfl⟩
      have hmark := updated.unmarked ip min hmin
      unfold poll
      split
      · exact hmark
      · exact hmark }

def etcdIPs (turn : Turn) (fm : Foreman) : List String :=
  (turn.etcdOrder.visit fm.minions.entries).filterMap fun e =>
    if e.2.machine.role = .master ∧ e.2.machine.privateIP ≠ "" then some e.2.machine.privateIP
    else none

/-- The goroutines of `forEachMinion` speak to different minions. -/
def send (turn : Turn) (fm : Foreman) : List Request :=
  if fm.minions.entries.any fun e => e.2.connected then
    (turn.sendOrder.visit fm.minions.entries).flatMap
      (configure turn fm.spec (etcdIPs turn fm))
  else []

/-- A pass: the foreman after it and the requests it sent. -/
def runOnce (turn : Turn) (db : Database) (servers : Servers) (fm : Foreman) :
    Foreman × List Request :=
  let contacted := fm.contact turn db servers
  (contacted, contacted.send turn)

/-! ## The map of minions -/

theorem lookup_markMachine_of_ne (dials : Machine → Bool) (state : Minions × ℕ) {m : Machine}
    {ip : String} (hne : ip ≠ m.publicIP) :
    (markMachine dials state m).1.lookup ip = state.1.lookup ip := by
  unfold markMachine
  split
  · exact AList.lookup_insert_ne hne
  · split
    · exact AList.lookup_insert_ne hne
    · rfl

theorem markMachine_entry {dials : Machine → Bool} {state : Minions × ℕ} {m : Machine}
    {entry : Entry} (hentry : (markMachine dials state m).1.lookup m.publicIP = some entry) :
    entry.machine = m ∧ entry.mark = true := by
  unfold markMachine at hentry
  split at hentry
  next min hmin =>
    rw [AList.lookup_insert, Option.some.injEq] at hentry
    rw [← hentry]
    exact ⟨rfl, rfl⟩
  next hnone =>
    split at hentry
    · rw [AList.lookup_insert, Option.some.injEq] at hentry
      rw [← hentry]
      exact ⟨rfl, rfl⟩
    · rw [hnone] at hentry
      contradiction

theorem mem_markMachine {dials : Machine → Bool} {state : Minions × ℕ} {m : Machine}
    (hclient : dials m = true ∨ m.publicIP ∈ state.1) :
    m.publicIP ∈ (markMachine dials state m).1 := by
  unfold markMachine
  split
  next => exact AList.mem_insert _ |>.mpr (.inl rfl)
  next hnone =>
    have hdials : dials m = true := hclient.resolve_right (AList.lookup_eq_none.mp hnone)
    rw [if_pos hdials]
    exact AList.mem_insert _ |>.mpr (.inl rfl)

theorem lookup_markAll_of_not_mem (dials : Machine → Bool) {machines : List Machine}
    {ip : String} (hip : ip ∉ machines.map Machine.publicIP) (state : Minions × ℕ) :
    (markAll dials machines state).1.lookup ip = state.1.lookup ip := by
  induction machines generalizing state with
  | nil => rfl
  | cons m machines ih =>
      rw [List.map_cons, List.mem_cons, not_or] at hip
      rw [markAll, List.foldl_cons]
      exact (ih hip.2 _).trans (lookup_markMachine_of_ne dials state hip.1)

theorem markAll_entry {dials : Machine → Bool} {machines : List Machine}
    (hdistinct : (machines.map Machine.publicIP).Nodup) {state : Minions × ℕ} {m : Machine}
    (hm : m ∈ machines) {entry : Entry}
    (hentry : (markAll dials machines state).1.lookup m.publicIP = some entry) :
    entry.machine = m ∧ entry.mark = true := by
  induction machines generalizing state with
  | nil => contradiction
  | cons first machines ih =>
      rw [List.map_cons, List.nodup_cons] at hdistinct
      rw [markAll, List.foldl_cons] at hentry
      rcases List.mem_cons.mp hm with rfl | hrest
      · rw [← markAll, lookup_markAll_of_not_mem dials hdistinct.1] at hentry
        exact markMachine_entry hentry
      · exact ih hdistinct.2 hrest hentry

theorem mem_markAll {dials : Machine → Bool} {machines : List Machine}
    (hdistinct : (machines.map Machine.publicIP).Nodup) {state : Minions × ℕ} {m : Machine}
    (hm : m ∈ machines) (hclient : dials m = true ∨ m.publicIP ∈ state.1) :
    m.publicIP ∈ (markAll dials machines state).1 := by
  induction machines generalizing state with
  | nil => contradiction
  | cons first machines ih =>
      rw [List.map_cons, List.nodup_cons] at hdistinct
      rw [markAll, List.foldl_cons, ← markAll]
      rcases List.mem_cons.mp hm with rfl | hrest
      · rw [← AList.lookup_isSome, lookup_markAll_of_not_mem dials hdistinct.1,
          AList.lookup_isSome]
        exact mem_markMachine hclient
      · have hne : m.publicIP ≠ first.publicIP := by
          intro heq
          exact hdistinct.1 (heq ▸ List.mem_map_of_mem hrest)
        apply ih hdistinct.2 hrest
        rw [← AList.lookup_isSome, lookup_markMachine_of_ne dials state hne, AList.lookup_isSome]
        exact hclient

section Update

variable {turn : Turn} {machines : List Machine} {fm : Foreman}

theorem updateMinionMap_entry (hdistinct : (machines.map Machine.publicIP).Nodup)
    {ip : String} {entry : Entry}
    (hentry : (fm.updateMinionMap turn machines).minions.lookup ip = some entry) :
    ∃ m ∈ machines, m.publicIP = ip ∧ entry.machine = m := by
  rcases lookup_sweep.mp hentry with ⟨min, hmin, hmark, rfl⟩
  by_cases hip : ip ∈ machines.map Machine.publicIP
  · rcases List.mem_map.mp hip with ⟨m, hm, rfl⟩
    exact ⟨m, hm, rfl, (markAll_entry hdistinct hm hmin).1⟩
  · -- an entry without a machine is not marked
    rw [lookup_markAll_of_not_mem turn.dials hip] at hmin
    rw [fm.unmarked ip min hmin] at hmark
    contradiction

theorem mem_updateMinionMap (hdistinct : (machines.map Machine.publicIP).Nodup) {m : Machine}
    (hm : m ∈ machines) (hclient : turn.dials m = true ∨ m.publicIP ∈ fm.minions) :
    m.publicIP ∈ (fm.updateMinionMap turn machines).minions := by
  have hmem : m.publicIP ∈ (markAll turn.dials machines (fm.minions, fm.created)).1 :=
    mem_markAll hdistinct hm hclient
  rcases Option.isSome_iff_exists.mp (AList.lookup_isSome.mpr hmem) with ⟨min, hmin⟩
  have hmark := (markAll_entry hdistinct hm hmin).2
  exact AList.lookup_isSome.mp
    (Option.isSome_iff_exists.mpr ⟨_, lookup_sweep.mpr ⟨min, hmin, hmark, rfl⟩⟩)

end Update

/-! ## What a pass finds -/

def machines (fm : Foreman) (db : Database) : List Machine :=
  (db.tables .machine).rows.filter fm.manages

theorem soleSpec_eq_empty_iff (db : Database) (order : IterOrder Cluster) (clusterID : ℕ) :
    soleSpec (db.select .cluster order fun c => c.ID = clusterID) = "" ↔
      ∀ c ∈ (db.tables .cluster).rows, c.ID = clusterID → c.spec = "" := by
  have hperm := (db.tables .cluster).select_perm order fun c => c.ID = clusterID
  have hmem : ∀ c, c ∈ db.select .cluster order (fun c => c.ID = clusterID) ↔
      c ∈ (db.tables .cluster).rows ∧ c.ID = clusterID := by
    intro c
    rw [Database.select, hperm.mem_iff, List.mem_filter, decide_eq_true_eq]
  have hnodup : (db.select .cluster order fun c => c.ID = clusterID).Nodup :=
    hperm.nodup_iff.mpr (List.Nodup.of_map _ (db.tables .cluster).nodup |>.filter _)
  cases hselect : db.select .cluster order fun c => c.ID = clusterID with
  | nil =>
      rw [hselect] at hmem
      refine iff_of_true rfl ?_
      intro c hc hid
      exact absurd ((hmem c).mpr ⟨hc, hid⟩) List.not_mem_nil
  | cons c rest =>
      rw [hselect] at hmem hnodup
      have hc := (hmem c).mp List.mem_cons_self
      cases rest with
      | nil =>
          constructor
          · intro hspec other hother hid
            rw [List.mem_singleton.mp ((hmem other).mpr ⟨hother, hid⟩)]
            exact hspec
          · intro hall
            exact hall c hc.1 hc.2
      | cons second rest =>
          have hsecond := (hmem second).mp (List.mem_cons_of_mem _ List.mem_cons_self)
          have hsame : c = second :=
            Table.eq_of_id_eq hc.1 hsecond.1 (hc.2.trans hsecond.2.symm)
          exact absurd (hsame ▸ List.mem_cons_self) (List.nodup_cons.mp hnodup).1

section Pass

variable {turn : Turn} {db : Database} {servers : Servers} {fm : Foreman}

theorem perm_select_machines (turn : Turn) (db : Database) (fm : Foreman) :
    (db.select .machine turn.machineOrder fm.manages).Perm (fm.machines db) :=
  (db.tables .machine).select_perm turn.machineOrder fm.manages

theorem lookup_contact {ip : String} {entry : Entry}
    (hentry : (fm.contact turn db servers).minions.lookup ip = some entry)
    (hdistinct : ((fm.machines db).map Machine.publicIP).Nodup) :
    ∃ m ∈ fm.machines db, m.publicIP = ip ∧ entry.machine = m ∧
      entry.connected = (getMinion turn servers ip).isSome ∧
      entry.config = (getMinion turn servers ip).getD {} := by
  have hperm := perm_select_machines turn db fm
  rw [contact, lookup_mapEntries, Option.map_eq_some_iff] at hentry
  rcases hentry with ⟨min, hmin, rfl⟩
  rcases updateMinionMap_entry ((hperm.map _).nodup_iff.mpr hdistinct) hmin with
    ⟨m, hm, hip, hmachine⟩
  refine ⟨m, hperm.mem_iff.mp hm, hip, ?_⟩
  unfold poll
  cases getMinion turn servers ip with
  | some config => exact ⟨hmachine, rfl, rfl⟩
  | none => exact ⟨hmachine, rfl, rfl⟩

theorem mem_contact (hdistinct : ((fm.machines db).map Machine.publicIP).Nodup) {m : Machine}
    (hm : m ∈ fm.machines db) (hclient : turn.dials m = true ∨ m.publicIP ∈ fm.minions) :
    m.publicIP ∈ (fm.contact turn db servers).minions := by
  have hperm := perm_select_machines turn db fm
  rw [← AList.lookup_isSome, contact, lookup_mapEntries, Option.isSome_map, AList.lookup_isSome]
  exact mem_updateMinionMap ((hperm.map _).nodup_iff.mpr hdistinct) (hperm.mem_iff.mpr hm) hclient

/-- What the foreman knows of a machine after it contacted the minions. -/
structure Knows (turn : Turn) (servers : Servers) (m : Machine) (entry : Entry) : Prop where
  machine : entry.machine = m
  connected : entry.connected = (getMinion turn servers m.publicIP).isSome
  config : entry.config = (getMinion turn servers m.publicIP).getD {}

theorem knows_of_lookup (hdistinct : ((fm.machines db).map Machine.publicIP).Nodup) {m : Machine}
    (hm : m ∈ fm.machines db) {entry : Entry}
    (hentry : (fm.contact turn db servers).minions.lookup m.publicIP = some entry) :
    Knows turn servers m entry := by
  rcases lookup_contact hentry hdistinct with ⟨same, hsame, hip, hmachine, hconnected, hconfig⟩
  rw [List.inj_on_of_nodup_map hdistinct hsame hm hip] at hmachine
  exact ⟨hmachine, hconnected, hconfig⟩

theorem exists_knows (hdistinct : ((fm.machines db).map Machine.publicIP).Nodup) {m : Machine}
    (hm : m ∈ fm.machines db) (hclient : turn.dials m = true ∨ m.publicIP ∈ fm.minions) :
    ∃ entry, (fm.contact turn db servers).minions.lookup m.publicIP = some entry ∧
      Knows turn servers m entry := by
  have hmem : m.publicIP ∈ (fm.contact turn db servers).minions :=
    mem_contact hdistinct hm hclient
  rcases Option.isSome_iff_exists.mp (AList.lookup_isSome.mpr hmem) with ⟨entry, hentry⟩
  exact ⟨entry, hentry, knows_of_lookup hdistinct hm hentry⟩

theorem mem_send {request : Request} :
    request ∈ fm.send turn ↔ ∃ ip entry, fm.minions.lookup ip = some entry ∧
      request ∈ configure turn fm.spec (etcdIPs turn fm) ⟨ip, entry⟩ := by
  have hentries : request ∈ (turn.sendOrder.visit fm.minions.entries).flatMap
      (configure turn fm.spec (etcdIPs turn fm)) ↔ ∃ ip entry,
        fm.minions.lookup ip = some entry ∧
          request ∈ configure turn fm.spec (etcdIPs turn fm) ⟨ip, entry⟩ := by
    simp only [List.mem_flatMap, IterOrder.mem_visit, Sigma.exists, ← Option.mem_def,
      AList.mem_lookup_iff]
  unfold send
  split
  next => exact hentries
  next hnone =>
    refine iff_of_false List.not_mem_nil ?_
    intro hrequest
    rcases hrequest with ⟨ip, entry, hentry, hmem⟩
    rw [← Option.mem_def, AList.mem_lookup_iff] at hentry
    rw [List.any_eq_true, not_exists] at hnone
    have hconnected : entry.connected = false :=
      Bool.eq_false_iff.mpr fun h => hnone ⟨ip, entry⟩ ⟨hentry, h⟩
    simp [configure, hconnected] at hmem

theorem setMinionConfig_mem_send {ip : String} {msg : MinionConfig} :
    .setMinionConfig ip msg ∈ fm.send turn ↔ ∃ entry, fm.minions.lookup ip = some entry ∧
      entry.connected = true ∧ newConfig fm.spec entry.machine ≠ entry.config ∧
      msg = newConfig fm.spec entry.machine := by
  rw [mem_send]
  constructor
  · intro hsent
    rcases hsent with ⟨address, entry, hentry, hmem⟩
    unfold configure at hmem
    split at hmem
    next => contradiction
    next hconnected =>
      split at hmem
      next => contradiction
      next hdiffers =>
        rcases List.mem_cons.mp hmem with heq | hboot
        · rw [Request.setMinionConfig.injEq] at heq
          rcases heq with ⟨rfl, hmsg⟩
          exact ⟨entry, hentry, Bool.eq_true_of_not_eq_false hconnected, hdiffers, hmsg⟩
        · split at hboot
          · rw [List.mem_singleton] at hboot
            contradiction
          · contradiction
  · intro hsent
    rcases hsent with ⟨entry, hentry, hconnected, hdiffers, rfl⟩
    refine ⟨ip, entry, hentry, ?_⟩
    simp [configure, hconnected, hdiffers]

theorem send_eq_nil_iff :
    fm.send turn = [] ↔ ∀ ip entry, fm.minions.lookup ip = some entry →
      entry.connected = true → newConfig fm.spec entry.machine = entry.config := by
  constructor
  · intro hnil ip entry hentry hconnected
    by_contra hdiffers
    have hmem : .setMinionConfig ip (newConfig fm.spec entry.machine) ∈ fm.send turn :=
      setMinionConfig_mem_send.mpr ⟨entry, hentry, hconnected, hdiffers, rfl⟩
    rw [hnil] at hmem
    contradiction
  · intro hall
    rw [List.eq_nil_iff_forall_not_mem]
    intro request hrequest
    rcases mem_send.mp hrequest with ⟨ip, entry, hentry, hmem⟩
    cases hconnected : entry.connected with
    | false => simp [configure, hconnected] at hmem
    | true => simp [configure, hconnected, hall ip entry hentry hconnected] at hmem

end Pass

/-! ## The transactions of the minions -/

def Request.ip : Request → String
  | .setMinionConfig ip _ => ip
  | .bootEtcd ip _ => ip

def Request.transaction (rt : Lang.Runtime) (files : Lang.Files) (fuel : ℕ)
    (orders : ServerOrders) : Request → Database → Option Database
  | .setMinionConfig _ msg => Minion.setMinionConfig rt files fuel orders msg
  | .bootEtcd _ members => Minion.bootEtcd orders members

/-- Executes the transactions of the requests; `none` if a minion crashes. -/
def deliver (rt : Lang.Runtime) (files : Lang.Files) (fuel : ℕ)
    (orders : Request → ServerOrders) : List Request → Servers → Option Servers
  | [], servers => some servers
  | request :: rest, servers => do
      let view ← request.transaction rt files fuel (orders request) (servers request.ip)
      deliver rt files fuel orders rest (Function.update servers request.ip view)

section Delivery

variable {rt : Lang.Runtime} {files : Lang.Files} {fuel : ℕ} {orders : Request → ServerOrders}

theorem deliver_showsRow {ip : String} {msg : MinionConfig} {requests : List Request}
    {servers applied : Servers}
    (hall : ∀ other, .setMinionConfig ip other ∈ requests → other = msg)
    (hstart : ShowsRow msg (servers ip) ∨ .setMinionConfig ip msg ∈ requests)
    (hdeliver : deliver rt files fuel orders requests servers = some applied) :
    ShowsRow msg (applied ip) := by
  induction requests generalizing servers with
  | nil =>
      rw [deliver, Option.some.injEq] at hdeliver
      rw [← hdeliver]
      exact hstart.resolve_right List.not_mem_nil
  | cons request rest ih =>
      simp only [deliver, Option.bind_eq_bind, Option.bind_eq_some_iff] at hdeliver
      rcases hdeliver with ⟨view, hview, hrest⟩
      refine ih (fun other hother => hall other (List.mem_cons_of_mem _ hother)) ?_ hrest
      by_cases hip : request.ip = ip
      · subst hip
        rw [Function.update_self]
        cases request with
        | setMinionConfig address other =>
            have hother := hall other List.mem_cons_self
            exact .inl (hother ▸ (setMinionConfig_applied hview).row)
        | bootEtcd address members =>
            refine hstart.imp (fun hshows => hshows.of_same (bootEtcd_minion hview)) ?_
            intro hmem
            exact (List.mem_cons.mp hmem).resolve_left nofun
      · rw [Function.update_of_ne (Ne.symm hip)]
        refine hstart.imp_right fun hmem => (List.mem_cons.mp hmem).resolve_left ?_
        intro heq
        exact hip (heq ▸ rfl)

theorem showsRow_of_reported {turn : Turn} {db : Database} {servers : Servers} {fm : Foreman}
    {m : Machine} (hm : m ∈ fm.machines db)
    (hgets : (getMinion turn servers m.publicIP).isSome = true) {spec : String}
    (hreported : newConfig spec m = (getMinion turn servers m.publicIP).getD {}) :
    ShowsRow (newConfig spec m) (servers m.publicIP) := by
  rcases Option.isSome_iff_exists.mp hgets with ⟨config, hconfig⟩
  rw [hconfig, Option.getD_some] at hreported
  rw [getMinion] at hconfig
  split at hconfig
  · rw [hreported]
    refine showsRow_of_getMinionConfig hconfig ?_
    have hmanaged := (List.mem_filter.mp hm).2
    simp only [manages, decide_eq_true_eq] at hmanaged
    rw [← hreported]
    exact hmanaged.2.2.2
  · contradiction

/-- After a pass whose requests all took effect, a minion reports the configuration of
its machine, without the specification. -/
theorem getMinionConfig_delivered {turn : Turn} {db : Database} {servers applied : Servers}
    {fm : Foreman} (hdistinct : ((fm.machines db).map Machine.publicIP).Nodup) {m : Machine}
    (hm : m ∈ fm.machines db) (hdials : turn.dials m = true)
    (hgets : (getMinion turn servers m.publicIP).isSome = true)
    (hdeliver : deliver rt files fuel orders (fm.runOnce turn db servers).2 servers =
      some applied) (order : IterOrder Minion) :
    getMinionConfig order (applied m.publicIP) = some (newConfig "" m) := by
  rcases exists_knows hdistinct hm (.inl hdials) with ⟨entry, hentry, hknows⟩
  set spec := (fm.contact turn db servers).spec with hspec
  have hshows : ShowsRow (newConfig spec m) (applied m.publicIP) := by
    refine deliver_showsRow ?_ ?_ hdeliver
    · intro other hother
      rcases setMinionConfig_mem_send.mp hother with ⟨found, hlookup, _, _, rfl⟩
      rw [(knows_of_lookup hdistinct hm hlookup).machine]
    · by_cases hsame : newConfig spec m = entry.config
      · exact .inl (showsRow_of_reported hm hgets (hsame.trans hknows.config))
      · right
        refine setMinionConfig_mem_send.mpr
          ⟨entry, hentry, hknows.connected.trans hgets, ?_, ?_⟩
        · rw [hknows.machine]
          exact hsame
        · rw [hknows.machine]
  exact hshows.getMinionConfig order

/-- The pass after one whose requests all took effect sends nothing exactly if the
cluster has no specification or no minion answers. -/
theorem runOnce_quiet_iff {first second : Turn} {db later : Database}
    {servers applied : Servers} {fm : Foreman}
    (hdistinct : ((fm.machines db).map Machine.publicIP).Nodup)
    (hdials : ∀ m ∈ fm.machines db, first.dials m = true)
    (hgets : ∀ m ∈ fm.machines db, (getMinion first servers m.publicIP).isSome = true)
    (hdeliver : deliver rt files fuel orders (fm.runOnce first db servers).2 servers =
      some applied)
    (hmachines : later.tables .machine = db.tables .machine)
    (hclusters : later.tables .cluster = db.tables .cluster) :
    ((fm.runOnce first db servers).1.runOnce second later applied).2 = [] ↔
      (∀ c ∈ (db.tables .cluster).rows, c.ID = fm.clusterID → c.spec = "") ∨
        ∀ m ∈ fm.machines db, second.gets m.publicIP = false := by
  have hsame : (fm.contact first db servers).machines later = fm.machines db := by
    rw [machines, hmachines]
    rfl
  have hspec : ((fm.contact first db servers).contact second later applied).spec = "" ↔
      ∀ c ∈ (db.tables .cluster).rows, c.ID = fm.clusterID → c.spec = "" := by
    rw [← hclusters]
    exact soleSpec_eq_empty_iff later second.clusterOrder fm.clusterID
  have hreport : ∀ m ∈ fm.machines db, getMinion second applied m.publicIP =
      if second.gets m.publicIP then some (newConfig "" m) else none := by
    intro m hm
    rw [getMinion, getMinionConfig_delivered hdistinct hm (hdials m hm) (hgets m hm) hdeliver]
  have hlater : (((fm.contact first db servers).machines later).map Machine.publicIP).Nodup := by
    rw [hsame]
    exact hdistinct
  rw [← hspec]
  set again := (fm.contact first db servers).contact second later applied with hagain
  change again.send second = [] ↔ _
  rw [send_eq_nil_iff]
  constructor
  · intro hquiet
    by_cases hempty : again.spec = ""
    · exact .inl hempty
    · right
      intro m hm
      rw [Bool.eq_false_iff]
      intro hanswers
      have hclient : m.publicIP ∈ (fm.contact first db servers).minions :=
        mem_contact hdistinct hm (.inl (hdials m hm))
      have hknown : ∃ entry, again.minions.lookup m.publicIP = some entry ∧
          Knows second applied m entry :=
        exists_knows hlater (by rw [hsame]; exact hm) (.inr hclient)
      rcases hknown with ⟨entry, hentry, hknows⟩
      have hconnected := hknows.connected
      have hconfig := hknows.config
      rw [hreport m hm, if_pos hanswers] at hconnected hconfig
      have hequal := hquiet _ entry hentry hconnected
      rw [hknows.machine, hconfig] at hequal
      exact hempty (congrArg MinionConfig.spec hequal)
  · intro hwhen ip entry hentry hconnected
    rcases lookup_contact hentry hlater with ⟨m, hm, rfl, hmachine, hisSome, hconfig⟩
    rw [hsame] at hm
    rw [hreport m hm] at hisSome hconfig
    cases hanswers : second.gets m.publicIP with
    | false =>
        rw [hanswers] at hisSome
        exact absurd (hconnected.symm.trans hisSome) (by simp)
    | true =>
        rcases hwhen with hempty | hsilent
        · rw [hmachine, hempty, hconfig, hanswers]
          rfl
        · rw [hsilent m hm] at hanswers
          contradiction

end Delivery

def reliable : Turn :=
  ⟨.asStored _, .asStored _, .asStored _, .asStored _, .asStored _, .asStored _,
    fun _ => true, fun _ => true, fun _ => true⟩

def oneMaster? : Option Database := do
  let (cluster, db) := Database.new.insertRow .cluster
  let db ← db.commit .cluster ({ cluster with spec := "(docker \"redis\")" } : Cluster)
  let (machine, db) := db.insertRow .machine
  db.commit .machine
    ({ machine with
      clusterID := 1, role := .master, cloudID := "i-1", publicIP := "1.2.3.4",
      privateIP := "10.0.0.2" } : Machine)

def oneMaster : Database := oneMaster?.get (by decide +kernel)

def newServers : Servers := fun _ => Database.new

theorem runOnce_quiet_iff_oneMaster :
    ∃ applied, deliver Lang.plainRuntime Lang.noFiles 10 (fun _ => .asStored)
        ((createForeman 1).runOnce reliable oneMaster newServers).2 newServers = some applied ∧
      ((((createForeman 1).runOnce reliable oneMaster newServers).1.runOnce reliable oneMaster
          applied).2 = [] ↔
        (∀ c ∈ (oneMaster.tables .cluster).rows, c.ID = (createForeman 1).clusterID → c.spec = "") ∨
          ∀ m ∈ (createForeman 1).machines oneMaster, reliable.gets m.publicIP = false) := by
  have hdelivered : (deliver Lang.plainRuntime Lang.noFiles 10 (fun _ => .asStored)
      ((createForeman 1).runOnce reliable oneMaster newServers).2 newServers).isSome = true := by
    decide
  rcases Option.isSome_iff_exists.mp hdelivered with ⟨applied, happlied⟩
  exact ⟨applied, happlied, runOnce_quiet_iff (by decide) (fun _ _ => rfl)
    (by decide) happlied rfl rfl⟩

/-- The requests of two passes, the first of which takes effect. -/
def twoPasses : Option (List Request × List Request) := do
  let first := (createForeman 1).runOnce reliable oneMaster newServers
  let applied ← deliver Lang.plainRuntime Lang.noFiles 10 (fun _ => .asStored) first.2 newServers
  some (first.2, (first.1.runOnce reliable oneMaster applied).2)

/-- The second pass sends what the first one sent. -/
theorem oneMaster_resent :
    let requests : List Request :=
      [.setMinionConfig "1.2.3.4" ⟨"i-1", .master, "10.0.0.2", "(docker \"redis\")"⟩,
        .bootEtcd "1.2.3.4" ["10.0.0.2"]]
    twoPasses = some (requests, requests) := by
  decide

end Foreman
end Di
