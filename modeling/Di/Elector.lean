import Di.Database
import Di.GuardedRun

/-!
# Leader election

Every master minion runs the campaign loop of `elector.go` against one key of
the consensus store.  A minion whose database says that it leads renews the
key with `Update`; any other minion tries `Create`.  `Update` asks only that
the key exists, not that it is the minion's own.

The state of the system is the key, the database rows each minion's loop
reads, and the list of minions that won since the key last expired.  That list
is the only ghost: no step reads it.  The main theorem identifies exactly the
runs in which each lease has a single winner.
-/

namespace Di
namespace Elector

open Db

/-- What one minion's campaign loop reads and remembers. -/
structure Node where
  minions : List Minion
  etcdRows : List Etcd
  oldMaster : Bool

/-- The answer of the store, as far as `campaign` tells answers apart. -/
inductive Reply
  | ok
  | nodeExist
  | failure
  deriving DecidableEq

/-- `store.Create`: the key must be absent. -/
def create (key : Option String) (value : String) (fault : Bool) :
    Reply × Option String :=
  if fault then (.failure, key)
  else match key with
    | some _ => (.nodeExist, key)
    | none => (.ok, some value)

/-- `store.Update`: the key must be present, whoever wrote it. -/
def update (key : Option String) (value : String) (fault : Bool) :
    Reply × Option String :=
  if fault then (.failure, key)
  else match key with
    | some _ => (.ok, some value)
    | none => (.failure, none)

/-- `commitLeader`; the address is left alone when none is given. -/
def commitLeader (leader : Bool) (ip : Option String) (node : Node) : Node :=
  match node.etcdRows with
  | [row] =>
      { node with etcdRows :=
          [{ row with leader := leader, leaderIP := ip.getD row.leaderIP }] }
  | _ => node

def isMaster : List Minion → Bool
  | [minion] => minion.role == .master
  | _ => false

/-- The `Leader` flag of the minion's only etcd row. -/
def Node.leader (node : Node) : Bool :=
  match node.etcdRows with
  | [row] => row.leader
  | _ => false

/-- The rows the iteration works on after the boot delay, if it has to wait:
`reread` is the minion table at the end of the delay. -/
def Node.afterDelay (node : Node) (reread : List Minion) : Node :=
  let master := isMaster node.minions && node.etcdRows.length == 1
  if node.oldMaster && !master then
    { commitLeader false (some "") node with oldMaster := false }
  else if !node.oldMaster && master then
    { node with minions := reread, oldMaster := isMaster reread }
  else { node with oldMaster := master }

/-- The address with which the iteration goes to the store, if it gets there. -/
def Node.contender (node : Node) : Option String :=
  match node.oldMaster, node.minions with
  | true, minion :: _ => if minion.privateIP = "" then none else some minion.privateIP
  | _, _ => none

structure Iteration where
  node : Node
  key : Option String
  won : Bool

/-- One iteration of the loop in `campaign`. -/
def campaign (key : Option String) (node : Node) (reread : List Minion)
    (fault : Bool) : Iteration :=
  let current := node.afterDelay reread
  match current.contender with
  | none => ⟨current, key, false⟩
  | some ip =>
      let answer := if node.leader then update key ip fault else create key ip fault
      match answer.1 with
      | .ok => ⟨commitLeader true (some ip) current, answer.2, true⟩
      | .nodeExist => ⟨commitLeader false none current, answer.2, false⟩
      | .failure => ⟨commitLeader false (some "") current, answer.2, false⟩

structure Election (ν : Type*) where
  key : Option String
  node : ν → Node
  /-- The minions that won since the key last expired, newest first. -/
  winners : List ν

inductive Event (ν : Type*)
  /-- A campaign iteration; `fault` makes its store operation fail. -/
  | campaign (i : ν) (reread : List Minion) (fault : Bool)
  /-- The key's time to live runs out. -/
  | expire
  /-- `watchLeader` copies the key into the etcd row. -/
  | watchLeader (i : ν) (fault : Bool)
  /-- `SetMinionConfig` rewrites the minion table. -/
  | setMinionConfig (i : ν) (minions : List Minion)
  /-- `BootEtcd` creates the etcd row or changes its members. -/
  | bootEtcd (i : ν) (etcdIPs : Option (List String))

variable {ν : Type*} [DecidableEq ν]

/-- `watchLeader`'s transaction; a failed `Get` reads as the empty string. -/
def Node.watch (node : Node) (leaderIP : String) : Node :=
  match node.etcdRows with
  | [row] => { node with etcdRows := [{ row with leaderIP := leaderIP }] }
  | _ => node

def Node.boot (node : Node) (etcdIPs : Option (List String)) : Node :=
  match node.etcdRows with
  | [] => { node with etcdRows := [{ ID := 1, etcdIPs := etcdIPs }] }
  | row :: rest => { node with etcdRows := { row with etcdIPs := etcdIPs } :: rest }

def step (state : Election ν) : Event ν → Election ν
  | .campaign i reread fault =>
      let iteration := campaign state.key (state.node i) reread fault
      { key := iteration.key
        node := Function.update state.node i iteration.node
        winners := if iteration.won then i :: state.winners else state.winners }
  | .expire =>
      match state.key with
      | none => state
      | some _ => { state with key := none, winners := [] }
  | .watchLeader i fault =>
      let leaderIP := if fault then "" else state.key.getD ""
      { state with
        node := Function.update state.node i ((state.node i).watch leaderIP) }
  | .setMinionConfig i minions =>
      { state with
        node := Function.update state.node i
          { state.node i with minions := minions } }
  | .bootEtcd i etcdIPs =>
      { state with
        node := Function.update state.node i ((state.node i).boot etcdIPs) }

/-- No key yet; the minions' rows are arbitrary. -/
def initial (node : ν → Node) : Election ν := ⟨none, node, []⟩

/-- The successful iterations of the current lease belong to one minion. -/
def Election.Exclusive (state : Election ν) : Prop :=
  ∀ i ∈ state.winners, ∀ j ∈ state.winners, i = j

instance (state : Election ν) : Decidable state.Exclusive :=
  inferInstanceAs (Decidable (∀ i ∈ state.winners, ∀ j ∈ state.winners, i = j))

/-- The event does not renew the key on the strength of a flag from an earlier
lease: a minion that goes to the store with its flag set, while the key is
there, has won since the key last expired. -/
def NoStaleUpdate (state : Election ν) : Event ν → Prop
  | .campaign i reread fault =>
      fault = false →
        ((state.node i).afterDelay reread).contender ≠ none →
          (state.node i).leader = true → state.key ≠ none → i ∈ state.winners
  | _ => True

/-! ## What one iteration can do -/

/-- The iteration reaches the store, its operation does not fail, and the flag
agrees with the presence of the key. -/
def Wins (key : Option String) (node : Node) (reread : List Minion)
    (fault : Bool) : Prop :=
  fault = false ∧ (node.afterDelay reread).contender ≠ none ∧
    (node.leader = true ↔ key ≠ none)

/-- An iteration either wins and leaves the key present, or it leaves the key
as it was. -/
theorem campaign_cases
    (key : Option String) (node : Node) (reread : List Minion) (fault : Bool) :
    ((campaign key node reread fault).won = true ∧
        Wins key node reread fault ∧
        (campaign key node reread fault).key ≠ none) ∨
      ((campaign key node reread fault).won = false ∧
        ¬ Wins key node reread fault ∧
        (campaign key node reread fault).key = key) := by
  unfold campaign Wins
  cases hcontender : (node.afterDelay reread).contender with
  | none => simp [hcontender]
  | some ip =>
      cases node.leader <;> cases fault <;> cases key <;>
        simp [hcontender, create, update]

theorem campaign_won_iff
    {key : Option String} {node : Node} {reread : List Minion} {fault : Bool} :
    (campaign key node reread fault).won = true ↔
      Wins key node reread fault := by
  rcases campaign_cases key node reread fault with
    ⟨hwon, hwins, _⟩ | ⟨hlost, hloses, _⟩
  · exact iff_of_true hwon hwins
  · exact iff_of_false (by simp [hlost]) hloses

/-! ## One lease, one winner -/

/-- The key is there exactly if somebody won since it last expired. -/
def KeyHeld (state : Election ν) : Prop :=
  state.key ≠ none ↔ state.winners ≠ []

omit [DecidableEq ν] in
theorem keyHeld_initial (node : ν → Node) : KeyHeld (initial node) := by
  simp [KeyHeld, initial]

theorem keyHeld_step {state : Election ν} (hheld : KeyHeld state)
    (event : Event ν) : KeyHeld (step state event) := by
  cases event with
  | campaign i reread fault =>
      rcases campaign_cases state.key (state.node i) reread fault with
        ⟨hwon, _, hkey⟩ | ⟨hlost, _, hkey⟩
      · simp [KeyHeld, step, hwon, hkey]
      · simpa [KeyHeld, step, hlost, hkey] using hheld
  | expire =>
      cases hkey : state.key with
      | none => simpa [KeyHeld, step, hkey] using hheld
      | some value => simp [KeyHeld, step, hkey]
  | watchLeader i fault => exact hheld
  | setMinionConfig i minions => exact hheld
  | bootEtcd i etcdIPs => exact hheld

/-- A win on an absent key starts the lease; a win on a present key is a
renewal by a minion whose flag is set. -/
theorem exclusive_step {state : Election ν} (hheld : KeyHeld state)
    (hexclusive : state.Exclusive) {event : Event ν}
    (hfresh : NoStaleUpdate state event) : (step state event).Exclusive := by
  cases event with
  | campaign i reread fault =>
      cases hwon : (campaign state.key (state.node i) reread fault).won with
      | false => simpa [Election.Exclusive, step, hwon] using hexclusive
      | true =>
          obtain ⟨hfault, hcontends, hflag⟩ := campaign_won_iff.mp hwon
          have hwinners : ∀ j ∈ state.winners, j = i := by
            intro j hj
            have hkey : state.key ≠ none := hheld.mpr (List.ne_nil_of_mem hj)
            have hi := hfresh hfault hcontends (hflag.mpr hkey) hkey
            exact hexclusive j hj i hi
          have hall : ∀ j ∈ (step state (.campaign i reread fault)).winners,
              j = i := by
            intro j hj
            simp only [step, hwon, if_true, List.mem_cons] at hj
            exact hj.elim id (hwinners j)
          intro j hj k hk
          rw [hall j hj, hall k hk]
  | expire =>
      cases hkey : state.key with
      | none => simpa [Election.Exclusive, step, hkey] using hexclusive
      | some value => simp [Election.Exclusive, step, hkey]
  | watchLeader i fault => exact hexclusive
  | setMinionConfig i minions => exact hexclusive
  | bootEtcd i etcdIPs => exact hexclusive

/-- Conversely, a stale update puts a second winner next to the minion that
holds the lease. -/
theorem noStaleUpdate_of_exclusive_step {state : Election ν}
    (hheld : KeyHeld state) {event : Event ν}
    (hnext : (step state event).Exclusive) : NoStaleUpdate state event := by
  cases event with
  | campaign i reread fault =>
      intro hfault hcontends hleader hkey
      have hwon : (campaign state.key (state.node i) reread fault).won = true :=
        campaign_won_iff.mpr
          ⟨hfault, hcontends, iff_of_true hleader hkey⟩
      obtain ⟨holder, hholder⟩ :=
        List.exists_mem_of_ne_nil _ (hheld.mp hkey)
      have hwinners : (step state (.campaign i reread fault)).winners =
          i :: state.winners := by
        simp [step, hwon]
      have heq : i = holder := by
        apply hnext
        · simp [hwinners]
        · simp [hwinners, hholder]
      exact heq ▸ hholder
  | expire => trivial
  | watchLeader i fault => trivial
  | setMinionConfig i minions => trivial
  | bootEtcd i etcdIPs => trivial

/-- In every run, each lease has a single winner in every state reached if and
only if no iteration of the run renews the key with a stale flag. -/
theorem leases_exclusive_iff_noStaleUpdate
    (node : ν → Node) (events : List (Event ν)) :
    (∀ visited ∈ GuardedRun.states step (initial node) events,
        visited.Exclusive) ↔
      GuardedRun.Guarded step NoStaleUpdate (initial node) events := by
  constructor
  · intro hsafe
    exact GuardedRun.guarded_of_safe
      (fun state event hheld _ _ => keyHeld_step hheld event)
      (fun state event hheld _ hnext =>
        noStaleUpdate_of_exclusive_step hheld hnext)
      (keyHeld_initial node) hsafe
  · intro hguard visited hvisited
    have hinvariant := GuardedRun.invariant_of_guarded
      (fun (state : Election ν) event
          (hinv : KeyHeld state ∧ state.Exclusive) hfresh =>
        And.intro (keyHeld_step hinv.1 event)
          (exclusive_step hinv.1 hinv.2 hfresh))
      ⟨keyHeld_initial node, by simp [Election.Exclusive, initial]⟩ hguard
    exact (hinvariant visited hvisited).2

/-! ## A leader that sleeps through its own expiry -/

/-- A configured master with an etcd row and a private address. -/
def bootedMaster (privateIP : String) : Node where
  minions := [{ ID := 1, role := .master, privateIP := privateIP }]
  etcdRows := [{ ID := 2 }]
  oldMaster := true

def twoMasters : Bool → Node
  | false => bootedMaster "10.0.0.2"
  | true => bootedMaster "10.0.0.3"

/-- The first master wins, its key expires unnoticed, the second master wins,
and the first one renews the key it no longer holds. -/
def sleepingLeader : List (Event Bool) :=
  [.campaign false [] false, .expire, .campaign true [] false,
    .campaign false [] false]

theorem sleepingLeader_two_winners :
    ¬ ∀ visited ∈ GuardedRun.states step (initial twoMasters) sleepingLeader,
      visited.Exclusive := by
  decide

end Elector
end Di
