import Di.GuardedRun
import Di.Database

/-!
# The system containers of a minion

`runSystemOnce` compares the rows of the minion and etcd tables with what the
supervisor did last, removes containers whose arguments are out of date and runs
the missing ones.  The docker client is modelled by what runs under each name:
`Run` does nothing for a name that is running, so a container keeps the
arguments it was started with until it is removed.
-/

namespace Di
namespace Supervisor

open Db GuardedRun

/-! ## Docker -/

/-- The keys of `images`. -/
inductive System
  | etcd
  | ovncontroller
  | ovnnorthd
  | ovsdb
  | ovsvswitchd
  | swarm
  deriving DecidableEq, Repr

namespace System

def all : List System := [.etcd, .ovncontroller, .ovnnorthd, .ovsdb, .ovsvswitchd, .swarm]

theorem mem_all (c : System) : c ∈ all := by cases c <;> decide

def name : System → String
  | .etcd => "etcd"
  | .ovncontroller => "ovn-controller"
  | .ovnnorthd => "ovn-northd"
  | .ovsdb => "ovsdb-server"
  | .ovsvswitchd => "ovs-vswitchd"
  | .swarm => "swarm"

def image : System → String
  | .etcd => "quay.io/coreos/etcd:v2.2.4"
  | .ovncontroller => "quay.io/netsys/ovn-controller"
  | .ovnnorthd => "quay.io/netsys/ovn-northd"
  | .ovsdb => "quay.io/netsys/ovsdb-server"
  | .ovsvswitchd => "quay.io/netsys/ovs-vswitchd"
  | .swarm => "swarm:1.2.0"

end System

structure RunOptions where
  name : String
  image : String
  args : List String
  networkMode : String
  privileged : Bool := false
  volumesFrom : List String := []
  binds : List String := []
  deriving DecidableEq, Repr

structure Docker where
  running : System → Option RunOptions
  /-- The commands that were executed inside of containers. -/
  execs : List (System × List String)

namespace Docker

def run (dk : Docker) (c : System) (ro : RunOptions) : Docker :=
  if (dk.running c).isSome then dk
  else { dk with running := Function.update dk.running c (some ro) }

def remove (dk : Docker) (c : System) : Docker :=
  { dk with running := Function.update dk.running c none }

def exec (dk : Docker) (c : System) (command : List String) : Docker :=
  { dk with execs := dk.execs ++ [(c, command)] }

theorem run_running (dk : Docker) (c : System) (ro : RunOptions) (d : System) :
    (dk.run c ro).running d = if d = c then some ((dk.running c).getD ro) else dk.running d := by
  unfold run
  by_cases hd : d = c
  · subst hd
    cases hrunning : dk.running d <;> simp [hrunning]
  · cases dk.running c <;> simp [hd]

theorem remove_running (dk : Docker) (c d : System) :
    (dk.remove c).running d = if d = c then none else dk.running d := by
  simp [remove, Function.update_apply]

@[simp] theorem exec_running (dk : Docker) (c : System) (command : List String) :
    (dk.exec c command).running = dk.running := rfl

end Docker

/-- The options that `supervisor.run` passes on. -/
def runOptions (c : System) (args : List String) : RunOptions :=
  let ro : RunOptions :=
    { name := c.name, image := c.image, args := args, networkMode := "host" }
  match c with
  | .ovsvswitchd => { ro with privileged := true, volumesFrom := [System.ovsdb.name] }
  | .ovnnorthd | .ovncontroller => { ro with volumesFrom := [System.ovsdb.name] }
  | .etcd | .ovsdb => { ro with binds := ["/usr/share/ca-certificates:/etc/ssl/certs"] }
  | .swarm => ro

def runSystem (dk : Docker) (c : System) (args : List String) : Docker :=
  dk.run c (runOptions c args)

/-- The order in which the map of images is traversed makes no difference. -/
def removeAll (dk : Docker) : Docker := System.all.foldl Docker.remove dk

theorem removeAll_running (dk : Docker) (c : System) : (removeAll dk).running c = none := by
  have hfold : ∀ (names : List System) (dk : Docker), c ∈ names ∨ dk.running c = none →
      (names.foldl Docker.remove dk).running c = none := by
    intro names
    induction names with
    | nil =>
        intro dk hgone
        simpa using hgone
    | cons name names ih =>
        intro dk hgone
        rw [List.foldl_cons]
        apply ih
        rw [Docker.remove_running]
        by_cases hname : c = name
        · exact .inr (if_pos hname)
        · rw [if_neg hname]
          simpa [hname] using hgone
  exact hfold _ dk (.inl (System.mem_all c))

/-! ## The supervisor -/

def etcdHeartbeatInterval : String := "500"

def etcdElectionTimeout : String := "5000"

def nodeName (ip : String) : String := "master-" ++ ip

def initialClusterString (etcdIPs : List String) : String :=
  ",".intercalate (etcdIPs.map fun ip => nodeName ip ++ "=http://" ++ ip ++ ":2380")

/-- The fields of the supervisor that remember the rows it saw last. -/
structure Cache where
  role : Role := .none
  etcdIPs : Option (List String) := none
  leaderIP : String := ""
  ip : String := ""
  leader : Bool := false
  deriving DecidableEq, Repr

def workerEtcdArgs (etcdIPs : List String) : List String :=
  ["--initial-cluster=" ++ initialClusterString etcdIPs,
    "--heartbeat-interval=" ++ etcdHeartbeatInterval,
    "--election-timeout=" ++ etcdElectionTimeout,
    "--proxy=on"]

def workerSwarmArgs (ip : String) : List String :=
  ["join", "--addr=" ++ ip ++ ":2375", "etcd://127.0.0.1:2379"]

def masterEtcdArgs (ip : String) (etcdIPs : List String) : List String :=
  ["--name=master-" ++ ip,
    "--initial-cluster=" ++ initialClusterString etcdIPs,
    "--advertise-client-urls=http://" ++ ip ++ ":2379",
    "--listen-peer-urls=http://" ++ ip ++ ":2380",
    "--initial-advertise-peer-urls=http://" ++ ip ++ ":2380",
    "--listen-client-urls=http://0.0.0.0:2379",
    "--heartbeat-interval=" ++ etcdHeartbeatInterval,
    "--initial-cluster-state=new",
    "--election-timeout=" ++ etcdElectionTimeout]

def masterSwarmArgs (ip : String) : List String :=
  ["manage", "--replication", "--addr=" ++ ip ++ ":2377", "--host=" ++ ip ++ ":2377",
    "etcd://127.0.0.1:2379"]

def ovsCommand (ip leaderIP minionID : String) : List String :=
  ["ovs-vsctl", "set", "Open_vSwitch", ".",
    "external_ids:ovn-remote=\"tcp:" ++ leaderIP ++ ":6640\"",
    "external_ids:ovn-encap-ip=" ++ ip,
    "external_ids:ovn-encap-type=\"geneve\"",
    "external_ids:api_server=\"http://" ++ leaderIP ++ ":9000\"",
    "external_ids:system-id=\"di-" ++ minionID ++ "\"",
    "--", "add-br", "di-int",
    "--", "set", "bridge", "di-int", "fail_mode=secure"]

def removeIf (stale : Bool) (c : System) (dk : Docker) : Docker :=
  if stale then dk.remove c else dk

/-- The two parts of `updateWorker`: containers with outdated arguments are removed, and missing
ones are run. -/
def dropStaleWorker (sv : Cache) (ip leaderIP : String) (etcdIPs : Option (List String))
    (dk : Docker) : Docker :=
  removeIf (sv.leaderIP ≠ leaderIP ∨ sv.ip ≠ ip) .swarm
    (removeIf (sv.etcdIPs ≠ etcdIPs) .etcd dk)

/-- `minions` are the rows that the second query of the minion table returns. -/
def startWorker (minions : List Minion) (ip leaderIP : String) (etcdIPs : List String)
    (dk : Docker) : Docker :=
  let dk := runSystem dk .etcd (workerEtcdArgs etcdIPs)
  let dk := runSystem dk .ovsdb []
  let dk := runSystem dk .ovsvswitchd []
  if leaderIP = "" ∨ ip = "" then dk
  else
    let dk := runSystem dk .swarm (workerSwarmArgs ip)
    match minions with
    | [minion] =>
        let dk := dk.exec .ovsvswitchd (ovsCommand ip leaderIP minion.minionID)
        -- a running controller does not notice a new leader
        runSystem (dk.remove .ovncontroller) .ovncontroller []
    | _ => dk

def updateWorker (sv : Cache) (minions : List Minion) (ip leaderIP : String)
    (etcdIPs : Option (List String)) (dk : Docker) : Docker :=
  startWorker minions ip leaderIP (etcdIPs.getD []) (dropStaleWorker sv ip leaderIP etcdIPs dk)

def dropStaleMaster (sv : Cache) (ip : String) (etcdIPs : Option (List String))
    (dk : Docker) : Docker :=
  removeIf (sv.ip ≠ ip) .swarm (removeIf (sv.ip ≠ ip ∨ sv.etcdIPs ≠ etcdIPs) .etcd dk)

def startMaster (ip : String) (etcdIPs : List String) (leader : Bool) (dk : Docker) : Docker :=
  if ip = "" ∨ etcdIPs = [] then dk
  else
    let dk := runSystem dk .etcd (masterEtcdArgs ip etcdIPs)
    let dk := runSystem dk .ovsdb []
    let dk := runSystem dk .swarm (masterSwarmArgs ip)
    if leader then runSystem dk .ovnnorthd [] else dk.remove .ovnnorthd

def updateMaster (sv : Cache) (ip : String) (etcdIPs : Option (List String))
    (leader : Bool) (dk : Docker) : Docker :=
  startMaster ip (etcdIPs.getD []) leader (dropStaleMaster sv ip etcdIPs dk)

/-! ## One call -/

/-- The rows of the two tables when the supervisor looks at them. -/
structure Rows where
  minions : List Minion
  etcdRows : List Etcd

def onlyMinion : List Minion → Minion
  | [minion] => minion
  | _ => { ID := 0 }

def onlyEtcd : List Etcd → Etcd
  | [row] => row
  | _ => { ID := 0 }

def Rows.minion (rows : Rows) : Minion := onlyMinion rows.minions

def Rows.etcd (rows : Rows) : Etcd := onlyEtcd rows.etcdRows

def Rows.seen (rows : Rows) : Cache where
  role := rows.minion.role
  etcdIPs := rows.etcd.etcdIPs
  leaderIP := rows.etcd.leaderIP
  ip := rows.minion.privateIP
  leader := rows.etcd.leader

structure State where
  sv : Cache
  dk : Docker

def update (sv : Cache) (rows : Rows) (dk : Docker) : Docker :=
  match rows.minion.role with
  | .master => updateMaster sv rows.minion.privateIP rows.etcd.etcdIPs rows.etcd.leader dk
  | .worker =>
      updateWorker sv rows.minions rows.minion.privateIP rows.etcd.leaderIP rows.etcd.etcdIPs dk
  | .none => dk

def runSystemOnce (state : State) (rows : Rows) : State :=
  if state.sv = rows.seen then state
  else
    let dk := if rows.minion.role ≠ state.sv.role then removeAll state.dk else state.dk
    ⟨rows.seen, update state.sv rows dk⟩

def State.initial (dk : Docker) : State := ⟨{}, dk⟩

/-! ## What should run -/

def masterSystem (ip : String) (etcdIPs : List String) (leader : Bool) :
    System → Option RunOptions
  | .etcd => some (runOptions .etcd (masterEtcdArgs ip etcdIPs))
  | .ovsdb => some (runOptions .ovsdb [])
  | .swarm => some (runOptions .swarm (masterSwarmArgs ip))
  | .ovnnorthd => if leader then some (runOptions .ovnnorthd []) else none
  | .ovncontroller | .ovsvswitchd => none

def workerSystem (ip : String) (etcdIPs : List String) : System → Option RunOptions
  | .etcd => some (runOptions .etcd (workerEtcdArgs etcdIPs))
  | .ovsdb => some (runOptions .ovsdb [])
  | .ovsvswitchd => some (runOptions .ovsvswitchd [])
  | .swarm => some (runOptions .swarm (workerSwarmArgs ip))
  | .ovncontroller => some (runOptions .ovncontroller [])
  | .ovnnorthd => none

/-- Every running container is one of the expected ones, with the expected options. -/
def Within (running expected : System → Option RunOptions) : Prop :=
  ∀ c ro, running c = some ro → expected c = some ro

/-- What runs is never out of date, and it is complete as soon as the configuration is.  A
master that is no leader any more keeps its `ovn-northd` until then. -/
structure Fresh (sv : Cache) (dk : Docker) : Prop where
  master : sv.role = .master →
    Within dk.running (masterSystem sv.ip (sv.etcdIPs.getD []) true)
  masterExact : sv.role = .master → sv.ip ≠ "" → sv.etcdIPs.getD [] ≠ [] →
    dk.running = masterSystem sv.ip (sv.etcdIPs.getD []) sv.leader
  worker : sv.role = .worker → Within dk.running (workerSystem sv.ip (sv.etcdIPs.getD []))
  workerExact : sv.role = .worker → sv.ip ≠ "" → sv.leaderIP ≠ "" →
    dk.running = workerSystem sv.ip (sv.etcdIPs.getD [])

theorem within_of_forall_none {running expected : System → Option RunOptions}
    (hnone : ∀ c, running c = none) : Within running expected := by
  intro c ro hrunning
  rw [hnone c] at hrunning
  cases hrunning

theorem Within.getD {running expected : System → Option RunOptions}
    (hwithin : Within running expected) {c : System} {ro : RunOptions}
    (hexpected : expected c = some ro) : (running c).getD ro = ro := by
  cases hrunning : running c with
  | none => rfl
  | some other =>
      have hsame := hwithin c other hrunning
      rw [hexpected] at hsame
      injection hsame with hsame
      exact hsame.symm

theorem Within.none {running expected : System → Option RunOptions}
    (hwithin : Within running expected) {c : System} (hexpected : expected c = none) :
    running c = none := by
  cases hrunning : running c with
  | none => rfl
  | some ro =>
      have hsome := hwithin c ro hrunning
      rw [hexpected] at hsome
      cases hsome

theorem masterSystem_leader {ip : String} {etcdIPs : List String} {leader : Bool} :
    Within (masterSystem ip etcdIPs leader) (masterSystem ip etcdIPs true) := by
  intro c ro hrunning
  cases c <;> cases leader <;> simp_all [masterSystem]

theorem removeIf_running (stale : Bool) (c : System) (dk : Docker) (d : System) :
    (removeIf stale c dk).running d = if d = c ∧ stale = true then none else dk.running d := by
  unfold removeIf
  cases stale with
  | false => simp
  | true => simp [Docker.remove_running]

theorem runSystem_running (dk : Docker) (c : System) (args : List String) (d : System) :
    (runSystem dk c args).running d =
      if d = c then some ((dk.running c).getD (runOptions c args)) else dk.running d :=
  Docker.run_running dk c _ d

section Step

variable {sv : Cache} {dk : Docker} {ip leaderIP : String} {etcdIPs : List String}
  {leader : Bool} {minions : List Minion}

theorem within_dropStaleMaster
    (hwithin : Within dk.running (masterSystem sv.ip (sv.etcdIPs.getD []) true))
    (ip : String) (etcdIPs : Option (List String)) :
    Within (dropStaleMaster sv ip etcdIPs dk).running
      (masterSystem ip (etcdIPs.getD []) true) := by
  intro c ro hrunning
  rw [dropStaleMaster, removeIf_running, removeIf_running] at hrunning
  have hold := hwithin c ro
  cases c <;> simp_all [masterSystem]

theorem within_dropStaleWorker
    (hwithin : Within dk.running (workerSystem sv.ip (sv.etcdIPs.getD [])))
    (ip leaderIP : String) (etcdIPs : Option (List String)) :
    Within (dropStaleWorker sv ip leaderIP etcdIPs dk).running
      (workerSystem ip (etcdIPs.getD [])) := by
  intro c ro hrunning
  rw [dropStaleWorker, removeIf_running, removeIf_running] at hrunning
  have hold := hwithin c ro
  cases c <;> simp_all [workerSystem]

theorem startMaster_exact (hwithin : Within dk.running (masterSystem ip etcdIPs true))
    (hip : ip ≠ "") (hmembers : etcdIPs ≠ []) :
    (startMaster ip etcdIPs leader dk).running = masterSystem ip etcdIPs leader := by
  have hkept : ∀ c ro, masterSystem ip etcdIPs true c = some ro →
      (dk.running c).getD ro = ro := fun c ro => hwithin.getD
  have hetcd := hkept .etcd _ rfl
  have hovsdb := hkept .ovsdb _ rfl
  have hswarm := hkept .swarm _ rfl
  have hnorthd := hkept .ovnnorthd _ rfl
  have hcontroller : dk.running .ovncontroller = none := hwithin.none rfl
  have hvswitchd : dk.running .ovsvswitchd = none := hwithin.none rfl
  funext c
  cases leader <;> cases c <;>
    simp [startMaster, runSystem_running, Docker.remove_running, masterSystem, *]

theorem within_startMaster (hwithin : Within dk.running (masterSystem ip etcdIPs true)) :
    Within (startMaster ip etcdIPs leader dk).running (masterSystem ip etcdIPs true) := by
  by_cases hincomplete : ip = "" ∨ etcdIPs = []
  · rw [startMaster, if_pos hincomplete]
    exact hwithin
  · rw [not_or] at hincomplete
    rw [startMaster_exact hwithin hincomplete.1 hincomplete.2]
    exact masterSystem_leader

theorem startWorker_exact (hwithin : Within dk.running (workerSystem ip etcdIPs))
    (hip : ip ≠ "") (hleader : leaderIP ≠ "") (minion : Minion) :
    (startWorker [minion] ip leaderIP etcdIPs dk).running = workerSystem ip etcdIPs := by
  have hkept : ∀ c ro, workerSystem ip etcdIPs c = some ro →
      (dk.running c).getD ro = ro := fun c ro => hwithin.getD
  have hetcd := hkept .etcd _ rfl
  have hovsdb := hkept .ovsdb _ rfl
  have hvswitchd := hkept .ovsvswitchd _ rfl
  have hswarm := hkept .swarm _ rfl
  have hnorthd : dk.running .ovnnorthd = none := hwithin.none rfl
  funext c
  cases c <;>
    simp [startWorker, runSystem_running, Docker.remove_running, workerSystem, *]

theorem within_runSystem {expected : System → Option RunOptions} {c : System}
    {args : List String} (hwithin : Within dk.running expected)
    (hexpected : expected c = some (runOptions c args)) :
    Within (runSystem dk c args).running expected := by
  intro d ro hrunning
  rw [runSystem_running] at hrunning
  by_cases hd : d = c
  · rw [if_pos hd, hwithin.getD hexpected] at hrunning
    rw [hd, ← hrunning]
    exact hexpected
  · rw [if_neg hd] at hrunning
    exact hwithin d ro hrunning

theorem within_startWorker (hwithin : Within dk.running (workerSystem ip etcdIPs)) :
    Within (startWorker minions ip leaderIP etcdIPs dk).running (workerSystem ip etcdIPs) := by
  have hstarted : Within (runSystem (runSystem (runSystem dk .etcd (workerEtcdArgs etcdIPs))
      .ovsdb []) .ovsvswitchd []).running (workerSystem ip etcdIPs) :=
    within_runSystem (within_runSystem (within_runSystem hwithin rfl) rfl) rfl
  unfold startWorker
  split
  · exact hstarted
  · have hjoined : Within (runSystem (runSystem (runSystem (runSystem dk .etcd
        (workerEtcdArgs etcdIPs)) .ovsdb []) .ovsvswitchd []) .swarm (workerSwarmArgs ip)).running
        (workerSystem ip etcdIPs) := within_runSystem hstarted rfl
    split
    · apply within_runSystem _ rfl
      intro c ro hrunning
      rw [Docker.remove_running] at hrunning
      by_cases hc : c = .ovncontroller
      · simp [hc] at hrunning
      · rw [if_neg hc] at hrunning
        exact hjoined c ro hrunning
    · exact hjoined

end Step

/-! ## Every run -/

theorem runSystemOnce_sv (state : State) (rows : Rows) :
    (runSystemOnce state rows).sv = rows.seen := by
  unfold runSystemOnce
  split
  next hsame => exact hsame
  next => rfl

theorem minions_of_role {rows : Rows} (hrole : rows.minion.role ≠ .none) :
    rows.minions = [rows.minion] := by
  unfold Rows.minion onlyMinion at hrole ⊢
  split at hrole
  next minion hminions => simp [hminions]
  next => exact absurd rfl hrole

theorem Fresh.step {state : State} (hfresh : Fresh state.sv state.dk) (rows : Rows) :
    Fresh (runSystemOnce state rows).sv (runSystemOnce state rows).dk := by
  unfold runSystemOnce
  split
  · exact hfresh
  · generalize hdk : (if rows.minion.role ≠ state.sv.role then removeAll state.dk
      else state.dk) = dk
    have hnone : rows.minion.role ≠ state.sv.role → ∀ c, dk.running c = none := by
      intro hchanged c
      rw [← hdk, if_pos hchanged]
      exact removeAll_running state.dk c
    have hsame : rows.minion.role = state.sv.role → dk = state.dk := by
      intro hrole
      rw [← hdk, if_neg (not_not.mpr hrole)]
    -- whether or not the role is new, nothing that runs is unexpected before the update
    have hmaster : rows.minion.role = .master →
        Within dk.running (masterSystem state.sv.ip (state.sv.etcdIPs.getD []) true) := by
      intro hrole
      by_cases hchanged : rows.minion.role = state.sv.role
      · rw [hsame hchanged]
        exact hfresh.master (hchanged ▸ hrole)
      · exact within_of_forall_none (hnone hchanged)
    have hworker : rows.minion.role = .worker →
        Within dk.running (workerSystem state.sv.ip (state.sv.etcdIPs.getD [])) := by
      intro hrole
      by_cases hchanged : rows.minion.role = state.sv.role
      · rw [hsame hchanged]
        exact hfresh.worker (hchanged ▸ hrole)
      · exact within_of_forall_none (hnone hchanged)
    constructor
    · intro hrole
      change rows.minion.role = .master at hrole
      simp only [update, hrole]
      exact within_startMaster (within_dropStaleMaster (hmaster hrole) _ _)
    · intro hrole hip hetcd
      change rows.minion.role = .master at hrole
      simp only [update, hrole]
      exact startMaster_exact (within_dropStaleMaster (hmaster hrole) _ _) hip hetcd
    · intro hrole
      change rows.minion.role = .worker at hrole
      simp only [update, hrole]
      exact within_startWorker (within_dropStaleWorker (hworker hrole) _ _ _)
    · intro hrole hip hleader
      change rows.minion.role = .worker at hrole
      have hminions : rows.minions = [rows.minion] := minions_of_role (by rw [hrole]; decide)
      simp only [update, hrole]
      rw [updateWorker, hminions]
      exact startWorker_exact (within_dropStaleWorker (hworker hrole) _ _ _) hip hleader _

theorem fresh_final (dk : Docker) (calls : List Rows) :
    Fresh (final runSystemOnce (State.initial dk) calls).sv
      (final runSystemOnce (State.initial dk) calls).dk := by
  have hinitial : Fresh (State.initial dk).sv (State.initial dk).dk :=
    ⟨nofun, nofun, nofun, nofun⟩
  have hstep : ∀ (state : State) (rows : Rows), Fresh state.sv state.dk →
      Fresh (runSystemOnce state rows).sv (runSystemOnce state rows).dk :=
    fun _ rows hfresh => hfresh.step rows
  exact invariant_of_step hstep calls hinitial _ (final_mem_states _ _ _)

theorem final_concat (dk : Docker) (calls : List Rows) (rows : Rows) :
    final runSystemOnce (State.initial dk) (calls ++ [rows]) =
      runSystemOnce (final runSystemOnce (State.initial dk) calls) rows := by
  simp [final]

theorem nothing_runs (dk : Docker) (calls : List Rows)
    (hserved : ∃ rows ∈ calls, rows.minion.role ≠ .none)
    (hidle : (final runSystemOnce (State.initial dk) calls).sv.role = .none) (c : System) :
    (final runSystemOnce (State.initial dk) calls).dk.running c = none := by
  induction calls using List.reverseRecOn with
  | nil => simp at hserved
  | append_singleton calls rows ih =>
      rw [final_concat] at hidle ⊢
      rw [runSystemOnce_sv] at hidle
      change rows.minion.role = .none at hidle
      have hearlier : ∃ rows ∈ calls, rows.minion.role ≠ .none := by
        rcases hserved with ⟨other, hmem, hrole⟩
        rcases List.mem_append.mp hmem with hmem | hmem
        · exact ⟨other, hmem, hrole⟩
        · rw [List.mem_singleton.mp hmem] at hrole
          exact absurd hidle hrole
      have hgone := ih hearlier
      generalize final runSystemOnce (State.initial dk) calls = state at hgone ⊢
      unfold runSystemOnce
      split
      next hsame =>
        apply hgone
        rw [hsame]
        exact hidle
      next =>
        simp only [update, hidle]
        split
        · exact removeAll_running _ c
        next hrole => exact hgone (not_not.mp hrole).symm

/-- After any sequence of calls: a complete configuration runs exactly the
containers of its role with the current arguments, and a minion that has lost its
role runs none. -/
theorem runSystemOnce_exact (dk : Docker) (earlier : List Rows) (rows : Rows) :
    (rows.minion.role = .master → rows.minion.privateIP ≠ "" → rows.etcd.etcdIPs.getD [] ≠ [] →
      (final runSystemOnce (State.initial dk) (earlier ++ [rows])).dk.running =
        masterSystem rows.minion.privateIP (rows.etcd.etcdIPs.getD []) rows.etcd.leader) ∧
    (rows.minion.role = .worker → rows.minion.privateIP ≠ "" → rows.etcd.leaderIP ≠ "" →
      (final runSystemOnce (State.initial dk) (earlier ++ [rows])).dk.running =
        workerSystem rows.minion.privateIP (rows.etcd.etcdIPs.getD [])) ∧
    (rows.minion.role = .none → (∃ other ∈ earlier, other.minion.role ≠ .none) → ∀ c,
      (final runSystemOnce (State.initial dk) (earlier ++ [rows])).dk.running c = none) := by
  have hfresh := fresh_final dk (earlier ++ [rows])
  have hseen : (final runSystemOnce (State.initial dk) (earlier ++ [rows])).sv = rows.seen := by
    rw [final_concat, runSystemOnce_sv]
  rw [hseen] at hfresh
  refine ⟨hfresh.masterExact, hfresh.workerExact, ?_⟩
  rintro hrole ⟨other, hmem, hserved⟩
  apply nothing_runs
  · exact ⟨other, List.mem_append_left _ hmem, hserved⟩
  · rw [hseen]
    exact hrole

/-- A worker that becomes a master while it still runs somebody else's `etcd`. -/
def promoted : List Rows :=
  [⟨[{ ID := 1, role := .worker, privateIP := "10.0.0.2" }],
      [{ ID := 2, etcdIPs := some ["10.0.0.1"], leaderIP := "10.0.0.1" }]⟩]

def promotedRows : Rows :=
  ⟨[{ ID := 1, role := .master, privateIP := "10.0.0.2" }],
    [{ ID := 2, etcdIPs := some ["10.0.0.1", "10.0.0.2"], leader := true }]⟩

theorem runSystemOnce_exact_promoted :
    (final runSystemOnce (State.initial ⟨fun _ => some (runOptions .etcd []), []⟩)
      (promoted ++ [promotedRows])).dk.running =
        masterSystem "10.0.0.2" ["10.0.0.1", "10.0.0.2"] true :=
  (runSystemOnce_exact _ promoted promotedRows).1 rfl (by decide) (by decide)

/-! ## Losing the leadership -/

def Rows.leads (rows : Rows) : Bool := rows.minion.role = .master ∧ rows.etcd.leader = true

/-- The configuration with which `updateMaster` does not return early. -/
def Rows.completeMaster (rows : Rows) : Bool :=
  rows.minion.role = .master ∧ rows.minion.privateIP ≠ "" ∧ rows.etcd.etcdIPs.getD [] ≠ []

theorem update_northd (sv : Cache) {rows : Rows} (hleads : rows.leads = false) (dk : Docker) :
    (update sv rows dk).running .ovnnorthd =
      if rows.completeMaster then none else dk.running .ovnnorthd := by
  unfold update
  cases hrole : rows.minion.role with
  | none => simp [Rows.completeMaster, hrole]
  | worker =>
      simp only [Rows.completeMaster, hrole, updateWorker, startWorker, dropStaleWorker]
      split
      · simp [runSystem_running, removeIf_running]
      · split
        · simp [runSystem_running, removeIf_running, Docker.remove_running]
        · simp [runSystem_running, removeIf_running]
  | master =>
      have hleader : rows.etcd.leader = false := by simpa [Rows.leads, hrole] using hleads
      simp only [updateMaster, startMaster, hleader]
      by_cases hincomplete : rows.minion.privateIP = "" ∨ rows.etcd.etcdIPs.getD [] = []
      · have hpartial : rows.completeMaster = false := by
          simp only [Rows.completeMaster, hrole]
          grind
        simp [hincomplete, hpartial, dropStaleMaster, removeIf_running]
      · have hcomplete : rows.completeMaster = true := by
          simp only [Rows.completeMaster, hrole]
          grind
        simp [hincomplete, hcomplete, Docker.remove_running]

/-- If `ovn-northd` runs and the rows do not make the minion the leader, then they
change its role, or they are a complete configuration of a master. -/
def StopsNorthd (state : State) (rows : Rows) : Prop :=
  (state.dk.running .ovnnorthd).isSome → rows.leads = false →
    rows.minion.role ≠ state.sv.role ∨ rows.completeMaster = true

instance (state : State) (rows : Rows) : Decidable (StopsNorthd state rows) :=
  inferInstanceAs (Decidable (_ → _ → _))

theorem runSystemOnce_northd {state : State} (hfresh : Fresh state.sv state.dk) {rows : Rows}
    (hleads : rows.leads = false) :
    (runSystemOnce state rows).dk.running .ovnnorthd = none ↔ StopsNorthd state rows := by
  have hafter : (runSystemOnce state rows).dk.running .ovnnorthd =
      if rows.minion.role ≠ state.sv.role ∨ rows.completeMaster = true then none
      else state.dk.running .ovnnorthd := by
    unfold runSystemOnce
    by_cases hsame : state.sv = rows.seen
    · -- nothing is done, but a complete configuration already runs what it should
      have hrole : rows.minion.role = state.sv.role := by
        rw [hsame]
        rfl
      rw [if_pos hsame]
      by_cases hcomplete : rows.completeMaster = true
      · rw [if_pos (.inr hcomplete)]
        simp only [Rows.completeMaster, decide_eq_true_eq] at hcomplete
        have hleader : rows.etcd.leader = false := by
          simpa [Rows.leads, hcomplete.1] using hleads
        have hexact := hfresh.masterExact (hrole ▸ hcomplete.1)
        rw [hsame] at hexact
        rw [hexact hcomplete.2.1 hcomplete.2.2]
        simp [masterSystem, Rows.seen, hleader]
      · rw [if_neg (by simp [hrole, hcomplete])]
    · simp only [if_neg hsame, update_northd _ hleads]
      by_cases hrole : rows.minion.role = state.sv.role
      · simp [hrole]
      · simp [hrole, removeAll_running]
  rw [hafter]
  unfold StopsNorthd
  cases hrunning : state.dk.running .ovnnorthd with
  | none => simp
  | some ro => simp [hleads, imp_iff_not_or]

/-- `ovn-northd` is stopped by every call that does not make the minion the leader
exactly when each such call that finds it running changes the role of the minion
or is complete: `updateMaster` returns before it stops `ovn-northd` if the private
address or the list of the etcd members is empty. -/
theorem northd_stopped_iff (dk : Docker) (calls : List Rows) :
    (∀ earlier rows later, calls = earlier ++ rows :: later → rows.leads = false →
      (final runSystemOnce (State.initial dk) (earlier ++ [rows])).dk.running .ovnnorthd =
        none) ↔
      Guarded runSystemOnce StopsNorthd (State.initial dk) calls := by
  rw [guarded_iff_split]
  apply forall₄_congr
  intro earlier rows later _
  have hfresh := fresh_final dk earlier
  rw [final_concat]
  constructor
  · intro hstopped hrunning hleads
    exact (runSystemOnce_northd hfresh hleads).mp (hstopped hleads) hrunning hleads
  · intro hstops hleads
    exact (runSystemOnce_northd hfresh hleads).mpr hstops

/-- A leader that learns of an election before it has the list of the members again. -/
def deposed : List Rows :=
  [⟨[{ ID := 1, role := .master, privateIP := "10.0.0.2" }],
      [{ ID := 2, etcdIPs := some ["10.0.0.2"], leader := true }]⟩,
    ⟨[{ ID := 1, role := .master, privateIP := "10.0.0.2" }],
      [{ ID := 2, etcdIPs := none, leader := false, leaderIP := "10.0.0.3" }]⟩]

theorem deposed_northd :
    let state := final runSystemOnce (State.initial ⟨fun _ => none, []⟩) deposed
    deposed.getLast?.map Rows.leads = some false ∧
      state.dk.running .ovnnorthd = some (runOptions .ovnnorthd []) := by
  decide

end Supervisor
end Di
