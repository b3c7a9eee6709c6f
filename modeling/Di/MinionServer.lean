import Di.MinionPolicy

/-!
# The server of a minion

The foreman configures a minion by three calls.  `SetMinionConfig` and `BootEtcd`
answer at once and leave their transaction to a goroutine, so that the transactions
of several calls are executed in any order.  The configuration of the last call is
in force in the end, whatever the order, exactly if no other call could have been
told from it.
-/

namespace Di
namespace Minion

open Db Lang Reconcile

/-- `pb.MinionConfig`; its roles are numbered as those of the database are. -/
structure MinionConfig where
  ID : String := ""
  role : Role := .none
  privateIP : String := ""
  spec : String := ""
  deriving DecidableEq, Repr

/-! ## The handlers -/

/-- The row that a transaction changes: the only one of its table, or a new one.
`none` is the panic on several rows. -/
def soleRow (t : TableType) (order : IterOrder (RowOf t)) (view : Database) :
    Option (RowOf t × Database) :=
  match view.select t order fun _ => true with
  | [] => some (view.insertRow t)
  | [row] => some (row, view)
  | _ => none

def getMinionConfig (order : IterOrder Minion) (view : Database) : Option MinionConfig :=
  match view.select .minion order fun _ => true with
  | [] => some { role := .none }
  | [m] => some { ID := m.minionID, role := m.role, privateIP := m.privateIP }
  | _ => none

/-- The iteration orders of a transaction. -/
structure ServerOrders extends Orders where
  minion : IterOrder Minion
  etcd : IterOrder Etcd

def ServerOrders.asStored : ServerOrders := ⟨Orders.asStored, .asStored _, .asStored _⟩

def MinionConfig.rowFrom (msg : MinionConfig) (minion : Minion) : Minion :=
  { minion with minionID := msg.ID, role := msg.role, privateIP := msg.privateIP }

def setMinionConfig (rt : Runtime) (files : Files) (fuel : ℕ) (orders : ServerOrders)
    (msg : MinionConfig) (view : Database) : Option Database := do
  let (minion, view) ← soleRow .minion orders.minion view
  let minion := msg.rowFrom minion
  let view ← view.commit .minion minion
  updatePolicy rt files fuel orders.toOrders minion.role msg.spec view

/-- No address is the nil slice. -/
def bootEtcd (orders : ServerOrders) (members : List String) (view : Database) :
    Option Database := do
  let (etcdRow, view) ← soleRow .etcd orders.etcd view
  let etcdRow : Etcd :=
    { etcdRow with etcdIPs := if members = [] then none else some (sortStrings members) }
  view.commit .etcd etcdRow

/-! ## What the transactions do -/

theorem exists_soleRow {t : TableType} {view : Database}
    (hrows : (view.tables t).rows.length ≤ 1) (order : IterOrder (RowOf t)) :
    ∃ found, soleRow t order view = some found := by
  have hperm := (view.tables t).select_perm order fun _ => true
  rw [List.filter_true] at hperm
  rw [← hperm.length_eq] at hrows
  unfold soleRow Database.select
  cases hselect : (view.tables t).select order fun _ => true with
  | nil => exact ⟨_, rfl⟩
  | cons row rest =>
      rw [hselect, List.length_cons] at hrows
      have hrest : rest = [] := List.length_eq_zero_iff.mp (by omega)
      rw [hrest]
      exact ⟨_, rfl⟩

theorem soleRow_eq_some {t : TableType} {order : IterOrder (RowOf t)}
    {view next : Database} {row : RowOf t}
    (hsole : soleRow t order view = some (row, next)) :
    (next.tables t).rows = [row] ∧ SameElsewhere t view next := by
  have hperm := (view.tables t).select_perm order fun _ => true
  rw [List.filter_true] at hperm
  unfold soleRow Database.select at hsole
  cases hselect : (view.tables t).select order fun _ => true with
  | nil =>
      rw [hselect, List.nil_perm] at hperm
      rw [hselect, Option.some.injEq] at hsole
      have hrow : (view.insertRow t).1 = row := congrArg Prod.fst hsole
      have hnext : (view.insertRow t).2 = next := congrArg Prod.snd hsole
      rw [← hrow, ← hnext]
      refine ⟨?_, fun other hne => view.insertRow_other hne⟩
      rw [Database.insertRow_table, Table.insert_rows_of_fresh (view.blank_fresh t), hperm]
      rfl
  | cons first rest =>
      rw [hselect] at hsole hperm
      cases rest with
      | nil =>
          rw [Option.some.injEq, Prod.mk.injEq] at hsole
          rw [← hsole.1, ← hsole.2]
          exact ⟨List.perm_singleton.mp hperm.symm, fun _ _ => rfl⟩
      | cons second rest => contradiction

theorem getMinionConfig_of_row {view : Database} {row : Minion}
    (hrows : (view.tables .minion).rows = [row]) (order : IterOrder Minion) :
    getMinionConfig order view =
      some { ID := row.minionID, role := row.role, privateIP := row.privateIP } := by
  have hselect := Table.select_singleton hrows order fun _ => true
  rw [List.filter_true] at hselect
  simp only [getMinionConfig, Database.select, hselect]

/-- The minion row is the one that the message asks for. -/
def ShowsRow (msg : MinionConfig) (view : Database) : Prop :=
  ∃ row : Minion, (view.tables .minion).rows = [row] ∧
    row.minionID = msg.ID ∧ row.role = msg.role ∧ row.privateIP = msg.privateIP

theorem ShowsRow.of_same {msg : MinionConfig} {view after : Database}
    (hshows : ShowsRow msg view) (hsame : after.tables .minion = view.tables .minion) :
    ShowsRow msg after := by
  rw [ShowsRow, hsame]
  exact hshows

theorem ShowsRow.getMinionConfig {msg : MinionConfig} {view : Database}
    (hshows : ShowsRow msg view) (order : IterOrder Minion) :
    getMinionConfig order view = some { msg with spec := "" } := by
  rcases hshows with ⟨row, hrow, hID, hrole, hprivate⟩
  rw [getMinionConfig_of_row hrow, hID, hrole, hprivate]

theorem showsRow_of_getMinionConfig {order : IterOrder Minion} {view : Database}
    {msg : MinionConfig} (hreport : getMinionConfig order view = some msg) (hnamed : msg.ID ≠ "") :
    ShowsRow msg view := by
  have hperm := (view.tables .minion).select_perm order fun _ => true
  rw [List.filter_true] at hperm
  unfold getMinionConfig Database.select at hreport
  split at hreport
  next =>
    rw [Option.some.injEq] at hreport
    rw [← hreport] at hnamed
    contradiction
  next m hselect =>
    rw [hselect] at hperm
    rw [Option.some.injEq] at hreport
    rw [← hreport]
    exact ⟨m, List.perm_singleton.mp hperm.symm, rfl, rfl, rfl⟩
  next => contradiction

section Server

variable {rt : Runtime} {files : Files} {fuel : ℕ}

/-- What an executed `SetMinionConfig` did. -/
structure Applied (rt : Runtime) (files : Files) (fuel : ℕ) (msg : MinionConfig)
    (view after : Database) : Prop where
  row : ShowsRow msg after
  accepted : ∀ dsl, new rt files fuel { text := msg.spec.toList } = .ok dsl →
    ShowsPolicy dsl msg.role after
  rejected : ∀ err, new rt files fuel { text := msg.spec.toList } = .error err →
    after.tables .connection = view.tables .connection ∧
      after.tables .container = view.tables .container

theorem setMinionConfig_applied {orders : ServerOrders} {msg : MinionConfig}
    {view after : Database}
    (hset : setMinionConfig rt files fuel orders msg view = some after) :
    Applied rt files fuel msg view after := by
  simp only [setMinionConfig, Option.bind_eq_bind, Option.bind_eq_some_iff] at hset
  rcases hset with ⟨⟨minion, found⟩, hsole, next, hcommit, hpolicy⟩
  rcases soleRow_eq_some hsole with ⟨hrow, hfound⟩
  rcases commit_singleton (t := .minion) (msg.rowFrom minion) hrow rfl with
    ⟨stored, hstored, hrow, hnext, _⟩
  have hnext_eq : stored = next := Option.some.inj (hstored.symm.trans hcommit)
  rw [hnext_eq] at hrow hnext
  have hsame : SameElsewhere .minion view next := hfound.trans hnext
  replace hpolicy :
      updatePolicy rt files fuel orders.toOrders msg.role msg.spec next = some after := hpolicy
  -- the policy is applied to tables that hold the new row
  have hshows : ∀ final : Database, final.tables .minion = next.tables .minion →
      ShowsRow msg final := by
    intro final hkept
    exact ⟨msg.rowFrom minion, hkept ▸ hrow, rfl, rfl, rfl⟩
  cases hnew : new rt files fuel { text := msg.spec.toList } with
  | ok dsl =>
      rcases updatePolicy_accepted hnew orders.toOrders msg.role next with
        ⟨final, hfinal, hpolicies, hminion⟩
      rw [hfinal, Option.some.injEq] at hpolicy
      subst hpolicy
      refine ⟨hshows final hminion, ?_, ?_⟩
      · intro other hother
        rw [hnew, Outcome.ok.injEq] at hother
        exact hother ▸ hpolicies
      · intro err herr
        rw [hnew] at herr
        contradiction
  | error err =>
      rw [updatePolicy_eq, hnew, Option.some.injEq] at hpolicy
      subst hpolicy
      refine ⟨hshows next rfl, ?_, fun _ _ => ⟨hsame _ (by decide), hsame _ (by decide)⟩⟩
      intro dsl hdsl
      rw [hnew] at hdsl
      contradiction
  | panic =>
      rw [updatePolicy_eq, hnew] at hpolicy
      contradiction
  | timeout =>
      rw [updatePolicy_eq, hnew] at hpolicy
      contradiction

/-- The compiler accepts or rejects the specification. -/
def Decided (rt : Runtime) (files : Files) (fuel : ℕ) (msg : MinionConfig) : Prop :=
  (∃ dsl, new rt files fuel { text := msg.spec.toList } = .ok dsl) ∨
    ∃ err, new rt files fuel { text := msg.spec.toList } = .error err

theorem exists_setMinionConfig {msg : MinionConfig} {view : Database}
    (hrows : (view.tables .minion).rows.length ≤ 1) (hdecided : Decided rt files fuel msg)
    (orders : ServerOrders) :
    ∃ after, setMinionConfig rt files fuel orders msg view = some after := by
  rcases exists_soleRow hrows orders.minion with ⟨⟨minion, found⟩, hsole⟩
  rcases commit_singleton (t := .minion) (msg.rowFrom minion) (soleRow_eq_some hsole).1 rfl with
    ⟨next, hnext, _⟩
  simp only [setMinionConfig, hsole, Option.bind_eq_bind, Option.bind_some, hnext]
  rcases hdecided with ⟨dsl, hnew⟩ | ⟨err, hnew⟩
  · rcases updatePolicy_accepted hnew orders.toOrders msg.role next with ⟨after, hafter, _⟩
    exact ⟨after, hafter⟩
  · exact ⟨next, by rw [updatePolicy_eq, hnew]⟩

theorem bootEtcd_minion {orders : ServerOrders} {members : List String}
    {view after : Database} (hboot : bootEtcd orders members view = some after) :
    after.tables .minion = view.tables .minion := by
  simp only [bootEtcd, Option.bind_eq_bind, Option.bind_eq_some_iff] at hboot
  rcases hboot with ⟨⟨etcdRow, found⟩, hsole, hcommit⟩
  rcases soleRow_eq_some hsole with ⟨_, hfound⟩
  rcases Database.commit_eq_some hcommit with ⟨_, _, hother⟩
  rw [hother .minion (by decide), hfound .minion (by decide)]

/-! ## The order of execution -/

/-- A transaction that waits for its execution. -/
structure Spawned where
  msg : MinionConfig
  orders : ServerOrders

def execute (rt : Runtime) (files : Files) (fuel : ℕ) :
    List Spawned → Database → Option Database
  | [], view => some view
  | tx :: rest, view => do
      let view ← setMinionConfig rt files fuel tx.orders tx.msg view
      execute rt files fuel rest view

theorem execute_append (first second : List Spawned) (view : Database) :
    execute rt files fuel (first ++ second) view =
      (execute rt files fuel first view).bind (execute rt files fuel second) := by
  induction first generalizing view with
  | nil => rfl
  | cons tx first ih =>
      simp only [List.cons_append, execute, Option.bind_eq_bind, Option.bind_assoc, ih]

theorem ShowsRow.length_le {msg : MinionConfig} {view : Database} (hshows : ShowsRow msg view) :
    (view.tables .minion).rows.length ≤ 1 := by
  rcases hshows with ⟨row, hrow, _⟩
  rw [hrow]
  exact le_rfl

theorem exists_execute {executed : List Spawned} {view : Database}
    (hrows : (view.tables .minion).rows.length ≤ 1)
    (hdecided : ∀ tx ∈ executed, Decided rt files fuel tx.msg) :
    ∃ after, execute rt files fuel executed view = some after ∧
      (after.tables .minion).rows.length ≤ 1 := by
  induction executed generalizing view with
  | nil => exact ⟨view, rfl, hrows⟩
  | cons tx rest ih =>
      rcases exists_setMinionConfig hrows (hdecided tx List.mem_cons_self) tx.orders with
        ⟨next, hnext⟩
      have hone := (setMinionConfig_applied hnext).row.length_le
      rcases ih hone (fun other hother => hdecided other (List.mem_cons_of_mem _ hother)) with
        ⟨after, hafter, hlength⟩
      exact ⟨after, by simp only [execute, hnext, Option.bind_eq_bind, Option.bind_some, hafter],
        hlength⟩

/-- The tables are those that the message asks for.  A specification that does not
compile asks for nothing. -/
structure InForce (rt : Runtime) (files : Files) (fuel : ℕ) (msg : MinionConfig)
    (view : Database) : Prop where
  row : ShowsRow msg view
  policy : ∀ dsl, new rt files fuel { text := msg.spec.toList } = .ok dsl →
    ShowsPolicy dsl msg.role view

/-- What a call asks for is no different from what the last one asks for. -/
structure Indistinct (rt : Runtime) (files : Files) (fuel : ℕ)
    (msg last : MinionConfig) : Prop where
  row : msg.ID = last.ID ∧ msg.role = last.role ∧ msg.privateIP = last.privateIP
  policy : ∀ dsl other, new rt files fuel { text := last.spec.toList } = .ok dsl →
    new rt files fuel { text := msg.spec.toList } = .ok other →
      other.queryConnections.Perm dsl.queryConnections ∧
        (last.role = .master → (other.queryContainers.map containerTarget).Perm
          (dsl.queryContainers.map containerTarget))

theorem Indistinct.refl (msg : MinionConfig) : Indistinct rt files fuel msg msg := by
  refine ⟨⟨rfl, rfl, rfl⟩, ?_⟩
  intro dsl other hdsl hother
  rw [hdsl, Outcome.ok.injEq] at hother
  rw [hother]
  exact ⟨.rfl, fun _ => .rfl⟩

theorem Applied.inForce {msg : MinionConfig} {view after : Database}
    (happlied : Applied rt files fuel msg view after) : InForce rt files fuel msg after :=
  ⟨happlied.row, happlied.accepted⟩

theorem Indistinct.inForce {msg last : MinionConfig} {view after : Database}
    (hindistinct : Indistinct rt files fuel msg last) (hdecided : Decided rt files fuel msg)
    (hforce : InForce rt files fuel last view)
    (happlied : Applied rt files fuel msg view after) : InForce rt files fuel last after := by
  rcases hindistinct.row with ⟨hID, hrole, hprivate⟩
  constructor
  · rcases happlied.row with ⟨row, hrow, hshown⟩
    rw [hID, hrole, hprivate] at hshown
    exact ⟨row, hrow, hshown⟩
  · intro dsl hdsl
    rcases hdecided with ⟨other, hother⟩ | ⟨err, herr⟩
    · rcases happlied.accepted other hother with ⟨hconnections, hcontainers⟩
      rcases hindistinct.policy dsl other hdsl hother with ⟨hsame, htargets⟩
      refine ⟨hconnections.trans hsame, fun hmaster => ?_⟩
      exact (hcontainers (hrole.trans hmaster)).trans (htargets hmaster)
    · rcases happlied.rejected err herr with ⟨hconnections, hcontainers⟩
      rw [ShowsPolicy, hconnections, hcontainers]
      exact hforce.policy dsl hdsl

theorem InForce.indistinct {msg last : MinionConfig} {view after : Database}
    (happlied : Applied rt files fuel msg view after)
    (hforce : InForce rt files fuel last after) : Indistinct rt files fuel msg last := by
  rcases happlied.row with ⟨row, hrow, hID, hrole, hprivate⟩
  rcases hforce.row with ⟨same, hsame, hlastID, hlastRole, hlastPrivate⟩
  rw [hrow, List.singleton_inj] at hsame
  rw [← hsame] at hlastID hlastRole hlastPrivate
  have hroles : msg.role = last.role := hrole.symm.trans hlastRole
  refine ⟨⟨hID.symm.trans hlastID, hroles, hprivate.symm.trans hlastPrivate⟩, ?_⟩
  intro dsl other hdsl hother
  rcases happlied.accepted other hother with ⟨hconnections, hcontainers⟩
  rcases hforce.policy dsl hdsl with ⟨hlastConnections, hlastContainers⟩
  refine ⟨hconnections.symm.trans hlastConnections, fun hmaster => ?_⟩
  exact (hcontainers (hroles.trans hmaster)).symm.trans (hlastContainers hmaster)

theorem execute_inForce {last : MinionConfig} {executed : List Spawned} {view after : Database}
    (hindistinct : ∀ tx ∈ executed, Indistinct rt files fuel tx.msg last)
    (hdecided : ∀ tx ∈ executed, Decided rt files fuel tx.msg)
    (hforce : InForce rt files fuel last view)
    (hexecute : execute rt files fuel executed view = some after) :
    InForce rt files fuel last after := by
  induction executed generalizing view with
  | nil =>
      rw [execute, Option.some.injEq] at hexecute
      exact hexecute ▸ hforce
  | cons tx rest ih =>
      simp only [execute, Option.bind_eq_bind, Option.bind_eq_some_iff] at hexecute
      rcases hexecute with ⟨next, hnext, hrest⟩
      rw [List.forall_mem_cons] at hindistinct hdecided
      exact ih hindistinct.2 hdecided.2
        (hindistinct.1.inForce hdecided.1 hforce (setMinionConfig_applied hnext)) hrest

theorem exists_executed_last (before after : List MinionConfig) (msg : MinionConfig) :
    ∃ first : List Spawned, ((first ++ [Spawned.mk msg .asStored]).map Spawned.msg).Perm
      (before ++ msg :: after) := by
  refine ⟨(before ++ after).map fun m => ⟨m, .asStored⟩, ?_⟩
  have hmsgs : ((before ++ after).map fun m => Spawned.mk m .asStored).map Spawned.msg =
      before ++ after := by
    rw [List.map_map]
    exact List.map_id _
  rw [List.map_append, hmsgs]
  exact (List.perm_append_singleton msg _).trans List.perm_middle.symm

theorem indistinct_of_inForce {view : Database} {calls : List MinionConfig}
    {last msg : MinionConfig} (hmsg : msg ∈ calls)
    (hwins : ∀ executed : List Spawned, (executed.map Spawned.msg).Perm calls →
      ∃ after, execute rt files fuel executed view = some after ∧
        InForce rt files fuel last after) : Indistinct rt files fuel msg last := by
  rcases List.append_of_mem hmsg with ⟨before, after, rfl⟩
  rcases exists_executed_last before after msg with ⟨first, hfirst⟩
  rcases hwins _ hfirst with ⟨final, hfinal, hforce⟩
  rw [execute_append, Option.bind_eq_some_iff] at hfinal
  rcases hfinal with ⟨mid, _, hmid⟩
  simp only [execute, Option.bind_eq_bind, Option.bind_eq_some_iff, Option.some.injEq] at hmid
  rcases hmid with ⟨next, hnext, rfl⟩
  exact InForce.indistinct (setMinionConfig_applied hnext) hforce

theorem inForce_of_indistinct {view after : Database} {last : MinionConfig}
    {executed : List Spawned} (hlast : last ∈ executed.map Spawned.msg)
    (hindistinct : ∀ tx ∈ executed, Indistinct rt files fuel tx.msg last)
    (hdecided : ∀ tx ∈ executed, Decided rt files fuel tx.msg)
    (hexecute : execute rt files fuel executed view = some after) :
    InForce rt files fuel last after := by
  -- the transaction of the last call establishes it, those after it keep it
  rcases List.mem_map.mp hlast with ⟨tx, htx, rfl⟩
  rcases List.append_of_mem htx with ⟨early, late, rfl⟩
  rw [execute_append, Option.bind_eq_some_iff] at hexecute
  rcases hexecute with ⟨mid, _, hmid⟩
  simp only [execute, Option.bind_eq_bind, Option.bind_eq_some_iff] at hmid
  rcases hmid with ⟨next, hnext, hlate⟩
  have hlater : ∀ other ∈ late, other ∈ early ++ tx :: late := by
    intro other hother
    simp [hother]
  exact execute_inForce (fun other hother => hindistinct other (hlater other hother))
    (fun other hother => hdecided other (hlater other hother))
    (setMinionConfig_applied hnext).inForce hlate

/-- The last of several calls is in force once all transactions are executed, in
whatever order, exactly if no earlier call asks for anything different. -/
theorem lastCall_inForce_iff {view : Database}
    (hrows : (view.tables .minion).rows.length ≤ 1) {calls : List MinionConfig}
    {last : MinionConfig}
    (hdecided : ∀ msg ∈ calls ++ [last], Decided rt files fuel msg) :
    (∀ executed : List Spawned, (executed.map Spawned.msg).Perm (calls ++ [last]) →
      ∃ after, execute rt files fuel executed view = some after ∧
        InForce rt files fuel last after) ↔
      ∀ msg ∈ calls, Indistinct rt files fuel msg last := by
  constructor
  · intro hwins msg hmsg
    exact indistinct_of_inForce (List.mem_append_left _ hmsg) hwins
  · intro hindistinct executed hperm
    have hmem : ∀ tx ∈ executed, tx.msg ∈ calls ++ [last] := by
      intro tx htx
      exact hperm.mem_iff.mp (List.mem_map_of_mem htx)
    have hall : ∀ tx ∈ executed, Indistinct rt files fuel tx.msg last := by
      intro tx htx
      rcases List.mem_append.mp (hmem tx htx) with hcall | hlast
      · exact hindistinct _ hcall
      · rw [List.mem_singleton.mp hlast]
        exact .refl last
    have hends : ∀ tx ∈ executed, Decided rt files fuel tx.msg :=
      fun tx htx => hdecided _ (hmem tx htx)
    have hlast : last ∈ executed.map Spawned.msg := hperm.mem_iff.mpr (by simp)
    rcases exists_execute hrows hends with ⟨after, hafter, _⟩
    exact ⟨after, hafter, inForce_of_indistinct hlast hall hends hafter⟩

end Server

def redisConfig : MinionConfig := ⟨"i-1", .master, "10.0.0.2", "(docker \"redis\")"⟩

def nginxConfig : MinionConfig := ⟨"i-1", .master, "10.0.0.2", "(docker \"nginx\")"⟩

theorem configs_decided :
    ∀ msg ∈ [redisConfig, nginxConfig], Decided plainRuntime noFiles 10 msg := by
  refine List.forall_iff_forall_mem.mp ⟨.inl ?_, .inl ?_⟩
  · exact Outcome.exists_ok (by decide)
  · exact Outcome.exists_ok (by decide)

theorem lastCall_inForce_iff_configs :
    (∀ executed : List Spawned, (executed.map Spawned.msg).Perm ([redisConfig] ++ [nginxConfig]) →
      ∃ after, execute plainRuntime noFiles 10 executed Database.new = some after ∧
        InForce plainRuntime noFiles 10 nginxConfig after) ↔
      ∀ msg ∈ [redisConfig], Indistinct plainRuntime noFiles 10 msg nginxConfig :=
  lastCall_inForce_iff (by decide) configs_decided

/-- The images of the containers once the transactions of `calls` are executed. -/
def imagesAfter (calls : List MinionConfig) : Option (List String) :=
  (execute plainRuntime noFiles 10 (calls.map fun msg => ⟨msg, .asStored⟩) Database.new).map
    fun view => (view.tables .container).rows.map Db.Container.image

/-- The transaction of the first call may be executed last: the old specification
is then in force. -/
theorem redisConfig_wins :
    imagesAfter [redisConfig, nginxConfig] = some ["nginx"] ∧
      imagesAfter [nginxConfig, redisConfig] = some ["redis"] := by
  decide

end Minion
end Di
