import Di.Database

/-!
# Logical ports

The leader keeps one logical port of OVN for each label with several containers and
one for each container.  A pass over the ports goes by their names only: a port with
the name of a label or container is kept as it is, one without is deleted, and what
has no port gets one.  So the ports follow the database exactly as long as no port
has an outdated address.
-/

namespace Di
namespace LogicalPorts

open Db

def labelMac : String := "0a:00:00:00:00:00"

structure LPort where
  name : String
  addresses : List String
  deriving DecidableEq, Repr

/-! ## The calls of OVSDB -/

/-- A port is not created twice. -/
def createPort (ports : List LPort) (name mac ip : String) : List LPort :=
  if name ∈ ports.map LPort.name then ports else ports ++ [⟨name, [mac ++ " " ++ ip]⟩]

/-- The first row with the name is deleted. -/
def deletePort (ports : List LPort) (name : String) : List LPort :=
  ports.eraseP fun port => port.name = name

/-! ## The pass over the ports -/

/-- What a port should be: its name, its MAC and its IP. -/
abbrev Request := String × String × String

def Request.port (request : Request) : LPort :=
  ⟨request.1, [request.2.1 ++ " " ++ request.2.2]⟩

/-- An iteration of one of the two loops, with the names that are garbage so far. -/
def claim (state : List String × List LPort) (request : Request) : List String × List LPort :=
  if request.1 ∈ state.1 then (state.1.filter (· ≠ request.1), state.2)
  else (state.1, createPort state.2 request.1 request.2.1 request.2.2)

def labelRequests (labels : List Label) : List Request :=
  (labels.filter Label.multiHost).map fun dbl => (dbl.label, labelMac, dbl.ip)

def containerRequests (containers : List Container) : List Request :=
  containers.map fun dbc => (dbc.schedID, dbc.mac, dbc.ip)

structure Orders where
  etcd : IterOrder Etcd
  label : IterOrder Label
  container : IterOrder Container
  /-- The traversal of `garbageMap`. -/
  garbage : IterOrder String

def addressed (dbl : Label) : Bool := dbl.ip ≠ ""

def attached (dbc : Container) : Bool := dbc.schedID ≠ "" ∧ dbc.mac ≠ "" ∧ dbc.ip ≠ ""

def isLeader : List Etcd → Bool
  | [etcd] => etcd.leader
  | _ => false

/-- `runMaster` up to the firewall rules: the ports after it, if every call of OVSDB
succeeds. -/
def runMaster (orders : Orders) (view : Database) (lports : List LPort) : List LPort :=
  let labels := view.select .label orders.label addressed
  let containers := view.select .container orders.container attached
  if isLeader (view.select .etcd orders.etcd fun _ => true) then
    let garbage := (lports.map LPort.name).dedup
    let claimed := (labelRequests labels ++ containerRequests containers).foldl claim
      (garbage, lports)
    (orders.garbage.visit claimed.1).foldl deletePort claimed.2
  else lports

/-! ## The loops -/

theorem claim_foldl {requests : List Request} (hrequests : (requests.map Prod.fst).Nodup)
    {garbage : List String} {ports : List LPort}
    (hports : ∀ port ∈ ports, port.name ∈ requests.map Prod.fst → port.name ∈ garbage) :
    requests.foldl claim (garbage, ports) =
      (garbage.filter (· ∉ requests.map Prod.fst),
        ports ++ (requests.filter fun request => request.1 ∉ garbage).map Request.port) := by
  induction requests generalizing garbage ports with
  | nil => simp
  | cons request requests ih =>
      rw [List.map_cons, List.nodup_cons] at hrequests
      have hothers : ∀ other ∈ requests, other.1 ≠ request.1 :=
        fun other hmem heq => hrequests.1 (heq ▸ List.mem_map_of_mem hmem)
      rw [List.foldl_cons, claim]
      by_cases hold : request.1 ∈ garbage
      · -- the port is there already
        rw [if_pos hold, ih hrequests.2]
        · have hfilter : (garbage.filter (· ≠ request.1)).filter
              (· ∉ requests.map Prod.fst) =
                garbage.filter (· ∉ (request :: requests).map Prod.fst) := by
            rw [List.filter_filter]
            apply List.filter_congr
            intro name _
            rw [List.map_cons, Bool.eq_iff_iff]
            simp [and_comm]
          have hcreated : requests.filter (fun other =>
              other.1 ∉ garbage.filter (· ≠ request.1)) =
                (request :: requests).filter fun other => other.1 ∉ garbage := by
            rw [List.filter_cons_of_neg (by simpa using hold)]
            apply List.filter_congr
            intro other hmem
            simp [hothers other hmem]
          rw [hfilter, hcreated]
        · intro port hport hname
          have hne : port.name ≠ request.1 := by
            intro heq
            exact hrequests.1 (heq ▸ hname)
          simp only [List.mem_filter, decide_eq_true_eq]
          exact ⟨hports port hport (List.mem_cons_of_mem _ hname), hne⟩
      · have hnew : request.1 ∉ ports.map LPort.name := by
          intro hmem
          rcases List.mem_map.mp hmem with ⟨port, hport, hname⟩
          exact hold (hname ▸ hports port hport (hname ▸ List.mem_cons_self))
        rw [if_neg hold, createPort, if_neg hnew, ih hrequests.2]
        · have hfilter : garbage.filter (· ∉ requests.map Prod.fst) =
              garbage.filter (· ∉ (request :: requests).map Prod.fst) := by
            apply List.filter_congr
            intro name hname
            have hne : name ≠ request.1 := fun heq => hold (heq ▸ hname)
            simp [hne]
          rw [hfilter, List.filter_cons_of_pos (by simpa using hold), List.map_cons,
            List.append_assoc]
          rfl
        · intro port hport hname
          rcases List.mem_append.mp hport with hport | hport
          · exact hports port hport (List.mem_cons_of_mem _ hname)
          · rw [List.mem_singleton.mp hport] at hname
            exact absurd hname hrequests.1

theorem deletePort_eq_filter {ports : List LPort} (hports : (ports.map LPort.name).Nodup)
    (name : String) : deletePort ports name = ports.filter fun port => port.name ≠ name := by
  unfold deletePort
  induction ports with
  | nil => rfl
  | cons port ports ih =>
      rw [List.map_cons, List.nodup_cons] at hports
      by_cases hname : port.name = name
      · rw [List.eraseP_cons_of_pos (by simpa using hname),
          List.filter_cons_of_neg (by simpa using hname), eq_comm, List.filter_eq_self]
        intro other hmem
        have hne : other.name ≠ name := by
          intro heq
          exact hports.1 (hname ▸ heq ▸ List.mem_map_of_mem hmem)
        simpa using hne
      · rw [List.eraseP_cons_of_neg (by simpa using hname),
          List.filter_cons_of_pos (by simpa using hname), ih hports.2]

theorem deletePort_foldl {ports : List LPort} (hports : (ports.map LPort.name).Nodup)
    (names : List String) :
    names.foldl deletePort ports = ports.filter fun port => port.name ∉ names := by
  induction names generalizing ports with
  | nil => simp
  | cons name names ih =>
      rw [List.foldl_cons, deletePort_eq_filter hports, ih, List.filter_filter]
      · apply List.filter_congr
        intro port _
        simp [Bool.and_comm]
      · exact (List.filter_sublist.map LPort.name).nodup hports

/-! ## The ports after a pass -/

/-- The ports that the database asks for. -/
def wanted (db : Database) : List LPort :=
  (labelRequests ((db.tables .label).rows.filter addressed) ++
    containerRequests ((db.tables .container).rows.filter attached)).map Request.port

section Pass

variable {orders : Orders} {db : Database} {lports : List LPort}

/-- The ports with a wanted name stay as they are, and the missing ones are created. -/
theorem runMaster_perm
    (hleader : isLeader (db.select .etcd orders.etcd fun _ => true) = true)
    (hlports : (lports.map LPort.name).Nodup) (hwanted : ((wanted db).map LPort.name).Nodup) :
    (runMaster orders db lports).Perm
      ((lports.filter fun port => port.name ∈ (wanted db).map LPort.name) ++
        (wanted db).filter fun port => port.name ∉ lports.map LPort.name) := by
  set requests := labelRequests (db.select .label orders.label addressed) ++
    containerRequests (db.select .container orders.container attached) with hrequests
  have hperm : (requests.map Request.port).Perm (wanted db) := by
    rw [hrequests, wanted]
    apply List.Perm.map
    have hlabels := (db.tables .label).select_perm orders.label addressed
    have hcontainers := (db.tables .container).select_perm orders.container attached
    exact ((hlabels.filter Label.multiHost).map _).append (hcontainers.map _)
  have hnames : (requests.map Prod.fst).Perm ((wanted db).map LPort.name) := by
    have hmap := hperm.map LPort.name
    rw [List.map_map] at hmap
    exact hmap
  set names := lports.map LPort.name with hset
  have hclaimed : requests.foldl claim (names, lports) =
      (names.filter (· ∉ requests.map Prod.fst),
        lports ++ (requests.filter fun request => request.1 ∉ names).map Request.port) :=
    claim_foldl (hnames.nodup_iff.mpr hwanted) fun port hport _ => List.mem_map_of_mem hport
  have hcreated : ((requests.filter fun request => request.1 ∉ names).map Request.port).Perm
      ((wanted db).filter fun port => port.name ∉ names) := by
    have hfilter := hperm.filter fun port => decide (port.name ∉ names)
    rw [List.filter_map] at hfilter
    exact hfilter
  have hdistinct : ((lports ++ (requests.filter fun request =>
      request.1 ∉ names).map Request.port).map LPort.name).Nodup := by
    rw [((hcreated.append_left lports).map LPort.name).nodup_iff, List.map_append,
      List.nodup_append]
    refine ⟨hlports, (List.filter_sublist.map LPort.name).nodup hwanted, ?_⟩
    rintro name hname other hother rfl
    rcases List.mem_map.mp hother with ⟨port, hport, rfl⟩
    exact (of_decide_eq_true (List.mem_filter.mp hport).2) hname
  unfold runMaster
  simp only [hleader, if_true, ← hrequests, ← hset, List.dedup_eq_self.mpr hlports, hclaimed,
    deletePort_foldl hdistinct, List.filter_append]
  apply List.Perm.append
  · -- a port that stays has a wanted name
    apply List.Perm.of_eq
    apply List.filter_congr
    intro port hport
    have hname : port.name ∈ names := List.mem_map_of_mem hport
    simp [hname, hnames.mem_iff]
  · refine List.Perm.trans (List.Perm.of_eq ?_) hcreated
    rw [List.filter_eq_self]
    intro port hport
    have hname : port.name ∉ names :=
      of_decide_eq_true (List.mem_filter.mp (hcreated.mem_iff.mp hport)).2
    simp [hname]

/-- After the pass the ports are the wanted ones, for every order of the tables and of
the garbage, exactly if every port with a wanted name already has the wanted address. -/
theorem runMaster_ports_iff
    (hleader : isLeader (db.select .etcd orders.etcd fun _ => true) = true)
    (hlports : (lports.map LPort.name).Nodup) (hwanted : ((wanted db).map LPort.name).Nodup) :
    (runMaster orders db lports).Perm (wanted db) ↔
      ∀ port ∈ lports, ∀ want ∈ wanted db, port.name = want.name →
        port.addresses = want.addresses := by
  have hafter := runMaster_perm hleader hlports hwanted
  have hunique : ∀ {a b : LPort}, a ∈ wanted db → b ∈ wanted db → a.name = b.name → a = b :=
    fun ha hb hname => List.inj_on_of_nodup_map hwanted ha hb hname
  constructor
  · intro hperm port hport want hwant hname
    have hkept : port ∈ wanted db := by
      rw [← hperm.mem_iff, hafter.mem_iff, List.mem_append]
      left
      exact List.mem_filter.mpr ⟨hport, decide_eq_true (hname ▸ List.mem_map_of_mem hwant)⟩
    rw [hunique hkept hwant hname]
  · intro haddresses
    have hequal : ∀ port ∈ lports, ∀ want ∈ wanted db, port.name = want.name → port = want := by
      intro port hport want hwant hname
      have haddress := haddresses port hport want hwant hname
      cases port
      cases want
      simp only at hname haddress
      rw [hname, haddress]
    refine hafter.trans ((List.perm_ext_iff_of_nodup ?_ (List.Nodup.of_map _ hwanted)).mpr ?_)
    · apply List.Nodup.append
      · exact (List.Nodup.of_map _ hlports).filter _
      · exact (List.Nodup.of_map _ hwanted).filter _
      · intro port hkept hcreated
        exact of_decide_eq_true (List.mem_filter.mp hcreated).2
          (List.mem_map_of_mem (List.mem_filter.mp hkept).1)
    · intro port
      rw [List.mem_append, List.mem_filter, List.mem_filter, decide_eq_true_eq, decide_eq_true_eq]
      constructor
      · rintro (⟨hport, hname⟩ | ⟨hport, _⟩)
        · rcases List.mem_map.mp hname with ⟨want, hwant, hsame⟩
          exact hequal port hport want hwant hsame.symm ▸ hwant
        · exact hport
      · intro hwant
        by_cases hname : port.name ∈ lports.map LPort.name
        · rcases List.mem_map.mp hname with ⟨old, hold, hsame⟩
          have hkept : old = port := hequal old hold port hwant hsame
          exact .inl ⟨hkept ▸ hold, List.mem_map_of_mem hwant⟩
        · exact .inr ⟨hwant, hname⟩

end Pass

/-- The leader of a cluster with one label that has several containers. -/
def webLabel : Database :=
  ((Database.new.withTable .etcd ⟨[{ ID := 1, leader := true }], 1, by decide⟩ 1 (by decide)
    (by decide)).withTable .label
      ⟨[{ ID := 2, label := "web", ip := "10.1.0.9", multiHost := true }], 1, by decide⟩ 2
      (by decide) (by decide))

def storedOrders : Orders := ⟨.asStored _, .asStored _, .asStored _, .asStored _⟩

theorem runMaster_ports_iff_webLabel :
    (runMaster storedOrders webLabel [⟨"old", ["02:00:0a:00:00:05 10.0.0.5"]⟩]).Perm
        (wanted webLabel) ↔
      ∀ port ∈ [(⟨"old", ["02:00:0a:00:00:05 10.0.0.5"]⟩ : LPort)], ∀ want ∈ wanted webLabel,
        port.name = want.name → port.addresses = want.addresses :=
  runMaster_ports_iff (by decide) (by decide) (by decide)

/-- The label `web` was multi-host with another address before: its port is kept. -/
theorem webLabel_outdated :
    isLeader (webLabel.select .etcd storedOrders.etcd fun _ => true) = true ∧
      ((wanted webLabel).map LPort.name).Nodup ∧
      runMaster storedOrders webLabel [⟨"web", [labelMac ++ " 10.1.0.5"]⟩] =
        [⟨"web", [labelMac ++ " 10.1.0.5"]⟩] ∧
      wanted webLabel = [⟨"web", [labelMac ++ " 10.1.0.9"]⟩] ∧
      ¬(runMaster storedOrders webLabel [⟨"web", [labelMac ++ " 10.1.0.5"]⟩]).Perm
        (wanted webLabel) := by
  decide

end LogicalPorts
end Di
