import Di.EnginePolicy
import Di.ReconcileStability

/-!
# Applying the same policy twice

The controller runs `UpdatePolicy` every few seconds with the same
specification.  The score of a machine ignores its SSH keys, and a row without
a role matches a machine of any role, so a repeated run may exchange two rows
and rewrite both.  `updateTxn_idempotent_iff` gives the exact condition on the
machines of the specification under which a repeat writes nothing, in any order
of the selects.
-/

namespace Di
namespace Engine

open Db Join Reconcile

/-! ## The score of a machine -/

/-- `machineTxn` may write `early` into the row that shows `late`. -/
def Confusable (early late : Machine) : Prop :=
  late.provider = early.provider ∧ late.region = early.region ∧
    late.size = early.size ∧ late.diskSize = early.diskSize ∧
    (late.role = .none ∨ late.role = early.role)

instance (early late : Machine) : Decidable (Confusable early late) :=
  inferInstanceAs (Decidable (_ ∧ _))

/-- A machine that may take the row of a later one agrees with it on the role
and on the SSH keys. -/
def Unambiguous (machines : List Machine) : Prop :=
  machines.Pairwise fun early late => Confusable early late →
    early.role = late.role ∧ early.sshKeys = late.sshKeys

theorem machineScore_nonneg_iff {dslMachine dbMachine : Machine}
    (hsize : dbMachine.size ≠ "") :
    0 ≤ machineScore dslMachine dbMachine ↔ Confusable dslMachine dbMachine := by
  unfold machineScore Confusable
  constructor
  · intro hnonneg
    split_ifs at hnonneg with hprovider hregion hsizes hrole hdisk
    all_goals first
      | omega
      | (refine ⟨not_not.mp hprovider, not_not.mp hregion, ?_, not_not.mp hdisk, ?_⟩
         · by_contra hne
           exact hsizes ⟨hsize, fun heq => hne heq.symm⟩
         · by_contra hne
           rw [not_or] at hne
           exact hrole hne)
  · rintro ⟨hprovider, hregion, hsizes, hdisk, hrole⟩
    rw [if_neg (not_not.mpr hprovider), if_neg (not_not.mpr hregion),
      if_neg (fun h => h.2 hsizes.symm), if_neg (fun h => hrole.elim h.1 h.2),
      if_neg (not_not.mpr hdisk)]
    split_ifs <;> omega

theorem machineScore_le_two (dslMachine dbMachine : Machine) :
    machineScore dslMachine dbMachine ≤ 2 := by
  unfold machineScore
  split_ifs <;> omega

/-- Rows without a private address all have the same score. -/
theorem machineScore_of_unaddressed (dslMachine : Machine) {dbMachine : Machine}
    (hprivate : dbMachine.privateIP = "") :
    machineScore dslMachine dbMachine < 0 ∨
      machineScore dslMachine dbMachine = 2 := by
  unfold machineScore
  simp only [hprivate, if_true]
  split_ifs <;> simp

theorem confusable_of_policyFields {early late row : Machine}
    (hview : policyFields row = policyFields late) :
    Confusable early row ↔ Confusable early late := by
  simp only [policyFields, Prod.mk.injEq] at hview
  obtain ⟨hrole, hprovider, hregion, hsize, hdisk, _⟩ := hview
  simp only [Confusable, hrole, hprovider, hregion, hsize, hdisk]

theorem confusable_self (m : Machine) : Confusable m m :=
  ⟨rfl, rfl, rfl, rfl, .inr rfl⟩

theorem size_ne_of_policyFields {row late : Machine}
    (hview : policyFields row = policyFields late) (hsize : late.size ≠ "") :
    row.size ≠ "" := by
  simp only [policyFields, Prod.mk.injEq] at hview
  rw [hview.2.2.2.1]
  exact hsize

/-- For confusable machines, the fields left to agree on are the role and the
keys. -/
theorem policyFields_eq_iff {early late : Machine}
    (hconfusable : Confusable early late) :
    policyFields early = policyFields late ↔
      early.role = late.role ∧ early.sshKeys = late.sshKeys := by
  obtain ⟨hprovider, hregion, hsize, hdisk, _⟩ := hconfusable
  simp [policyFields, hprovider, hregion, hsize, hdisk]

theorem toDBMachine1_size {outside : Outside} {maxPrice : GoFloat}
    {dslm : Lang.Machine} {m : Machine}
    (hconvert : toDBMachine1 outside maxPrice dslm = some m) : m.size ≠ "" := by
  simp only [toDBMachine1, Option.bind_eq_bind, Option.bind_eq_some_iff] at hconvert
  obtain ⟨role, _, provider, _, hsome⟩ := hconvert
  rw [Option.ite_none_left_eq_some] at hsome
  rw [← Option.some.inj hsome.2]
  exact hsome.1

theorem mem_dslMachines_size {outside : Outside} {dsl : Lang.Dsl} {m : Machine}
    (hm : m ∈ dslMachines outside dsl) : m.size ≠ "" := by
  unfold dslMachines at hm
  simp only at hm
  split at hm
  next =>
    obtain ⟨dslm, _, hconvert⟩ := List.mem_filterMap.mp hm
    exact toDBMachine1_size hconvert
  next => simp at hm

theorem settled_of_unambiguous {outside : Outside} {dsl : Lang.Dsl}
    (hunambiguous : Unambiguous (dslMachines outside dsl)) :
    Settled machineScore 2 policyFields policyFields (dslMachines outside dsl) := by
  unfold Settled
  refine List.Pairwise.imp_of_mem ?_ hunambiguous
  intro early late _ hlate hagree row hview hnonneg _
  have hsize := size_ne_of_policyFields hview (mem_dslMachines_size hlate)
  have hconfusable : Confusable early late :=
    (confusable_of_policyFields hview).mp
      ((machineScore_nonneg_iff hsize).mp hnonneg)
  exact (policyFields_eq_iff hconfusable).mpr (hagree hconfusable)

/-! ## The second run -/

section Again

variable {outside : Outside} {dsl : Lang.Dsl} {before after : Database}
  {cluster : Cluster}

/-- The cluster part of a second run writes nothing. -/
theorem updateTxn_again (hname : NamesCluster dsl)
    (hreflects : Reflects outside dsl before after cluster) (orders : Orders) :
    updateTxn outside orders dsl after =
      (machineTxn outside orders dsl cluster.ID after).bind
        (aclTxn outside orders dsl cluster.ID) := by
  have hselect : after.select .cluster orders.cluster (fun _ => true) = [cluster] :=
    Table.select_singleton hreflects.clusterRow _ _
  have hsame : { cluster with
      namespaceName := dsl.queryString "Namespace", spec := dsl.code } = cluster := by
    rw [← hreflects.namespaceName, ← hreflects.spec]
  have hcommit : after.commit .cluster cluster = some after :=
    Database.commit_self (by simp [hreflects.clusterRow])
  unfold updateTxn clusterTxn
  simp only [if_neg ((namesCluster_iff dsl).mp hname), hselect, Option.bind_some,
    hsame, hcommit, Option.map_some]

theorem machineTxn_again
    (hreflects : Reflects outside dsl before after cluster)
    (hunambiguous : Unambiguous (dslMachines outside dsl)) (orders : Orders) :
    machineTxn outside orders dsl cluster.ID after = some after := by
  have hselect := (after.tables .machine).select_perm orders.machine
    (fun m => m.clusterID == cluster.ID)
  refine reconcile_settled ((hselect.map policyFields).trans hreflects.machines)
    ?_ ?_ (settled_of_unambiguous hunambiguous) ?_
  · intro l hl row _ hview
    have hsize := size_ne_of_policyFields hview (mem_dslMachines_size hl)
    refine ⟨(machineScore_nonneg_iff hsize).mpr ?_, machineScore_le_two l row⟩
    exact (confusable_of_policyFields hview).mpr (confusable_self l)
  · intro l _ row hrow hview
    have hcluster : row.clusterID = cluster.ID := by
      simpa using ((Table.mem_select _ _ _ _).mp hrow).2
    simp only [policyFields, Prod.mk.injEq] at hview
    obtain ⟨hrole, hprovider, hregion, hsize, hdisk, hkeys⟩ := hview
    simp [machineRule, ← hrole, ← hprovider, ← hregion, ← hsize, ← hdisk, ← hkeys,
      ← hcluster]
  · intro row hrow
    exact ((Table.mem_select _ _ _ _).mp hrow).1

theorem aclTxn_again
    (hreflects : Reflects outside dsl before after cluster) (orders : Orders) :
    aclTxn outside orders dsl cluster.ID after = some (.ok (), after) := by
  have hselect : after.select .cluster orders.aclCluster
      (fun c => c.ID == cluster.ID) = [cluster] := by
    have hsingle := Table.select_singleton hreflects.clusterRow orders.aclCluster
      (fun c => c.ID == cluster.ID)
    rw [List.filter_cons_of_pos (by simp), List.filter_nil] at hsingle
    exact hsingle
  have hacls : cluster.acls = accessList outside dsl
      (after.select .machine orders.aclMachine fun m =>
        m.clusterID == cluster.ID && m.publicIP != "") := by
    rw [hreflects.acls]
    apply accessList_eq_of_perm
    exact ((after.tables .machine).select_perm orders.aclMachine _).symm
  unfold aclTxn
  simp only [hselect]
  rw [if_pos hacls]

/-- What a second run does to the machine table is what its machine part does. -/
theorem updateTxn_again_machine {orders : Orders} {reply : Reply}
    {final : Database} (hname : NamesCluster dsl)
    (hreflects : Reflects outside dsl before after cluster)
    (htxn : updateTxn outside orders dsl after = some (reply, final)) :
    ∃ next, machineTxn outside orders dsl cluster.ID after = some next ∧
      final.tables .machine = next.tables .machine := by
  obtain ⟨next, hnext, _, hsame, _⟩ :=
    machineTxn_spec outside orders dsl cluster.ID after
  have hrow : (next.tables .cluster).rows = [cluster] := by
    rw [hsame .cluster (by decide), hreflects.clusterRow]
  obtain ⟨last, hacl, _, hsameLast, _⟩ := aclTxn_ok outside orders dsl hrow
  rw [updateTxn_again hname hreflects, hnext, Option.bind_some, hacl] at htxn
  obtain ⟨_, rfl⟩ := Prod.mk.inj (Option.some.inj htxn)
  exact ⟨next, hnext, hsameLast .machine (by decide)⟩

/-- The first update of a new database boots every machine of the policy. -/
theorem updateTxn_new (outside : Outside) (orders : Orders)
    (hname : NamesCluster dsl) :
    ∃ cluster after alloc,
      updateTxn outside orders dsl Database.new = some (.ok (), after) ∧
      Reflects outside dsl Database.new after cluster ∧
      (after.tables .machine).rows.Perm
        ((machineRule cluster.ID).rewritePairs
          (bootedFrom .machine alloc (dslMachines outside dsl))) := by
  have hone : AtMostOneCluster Database.new := by
    simp [AtMostOneCluster, Database.new]
  obtain ⟨cluster, named, booted, after, htxn, hmachines, hnamed, hafter, _, _,
    hrow, _⟩ := updateTxn_parts outside orders hone hname
  obtain ⟨cluster', after', htxn', hreflects⟩ := updateTxn_ok outside orders hone hname
  rw [htxn, Option.some.injEq, Prod.mk.injEq] at htxn'
  obtain ⟨_, rfl⟩ := htxn'
  have hcluster : cluster = cluster' := by
    simpa using hrow.symm.trans hreflects.clusterRow
  subst hcluster
  refine ⟨cluster, after, named.idAlloc, htxn, hreflects, ?_⟩
  have hempty : (named.tables .machine).rows = [] := by
    rw [hnamed]
    rfl
  have hselect : dbMachines orders cluster.ID named = [] := by
    have hperm := (named.tables .machine).select_perm orders.machine
      (fun m => m.clusterID == cluster.ID)
    rw [hempty] at hperm
    exact List.perm_nil.mp hperm
  obtain ⟨found, hfound, hperm, _⟩ :=
    machineTxn_spec outside orders dsl cluster.ID named
  rw [hmachines, Option.some.injEq] at hfound
  subst hfound
  rw [hafter]
  simpa [otherMachines, hempty, machinePairs, written, hselect] using hperm

/-- Some order of the second run exchanges rows of an ambiguous policy, if the
first run booted all its machines. -/
theorem exists_exchange {clusterID alloc : ℕ} {db : Database}
    (hrows : (db.tables .machine).rows.Perm
      ((machineRule clusterID).rewritePairs
        (bootedFrom .machine alloc (dslMachines outside dsl))))
    (hambiguous : ¬ Unambiguous (dslMachines outside dsl)) :
    ∃ orders : Orders, ∀ next,
      machineTxn outside orders dsl clusterID db = some next →
        next.tables .machine ≠ db.tables .machine := by
  set pairs : List (Machine × Machine) :=
    bootedFrom .machine alloc (dslMachines outside dsl) with hpairs
  have hlefts : pairs.map Prod.fst = dslMachines outside dsl :=
    bootedFrom_map_fst (t := .machine) alloc _
  have hleft : ∀ pair ∈ pairs, pair.1 ∈ dslMachines outside dsl := by
    intro pair hpair
    exact hlefts ▸ List.mem_map_of_mem hpair
  have hscore : ∀ left ∈ pairs, ∀ right ∈ pairs,
      machineScore left.1 ((machineRule clusterID).row right) < 0 ∨
        machineScore left.1 ((machineRule clusterID).row right) = 2 := by
    intro left _ right hright
    obtain ⟨i, hblank⟩ := mem_bootedFrom_blank hright
    apply machineScore_of_unaddressed
    simp [Rule.row, machineRule, hblank, blank]
  have htakes : ∀ left ∈ pairs, ∀ right ∈ pairs,
      Confusable left.1 right.1 →
        machineScore left.1 ((machineRule clusterID).row right) = 2 := by
    intro left hl right hr hconfusable
    have hview : policyFields ((machineRule clusterID).row right) =
        policyFields right.1 := policyFields_rewrite clusterID right.1 right.2
    have hsize := size_ne_of_policyFields hview (mem_dslMachines_size (hleft right hr))
    have hnonneg := (machineScore_nonneg_iff hsize).mpr
      ((confusable_of_policyFields hview).mpr hconfusable)
    rcases hscore left hl right hr with hneg | htwo
    · omega
    · exact htwo
  have hmin : ∀ left ∈ pairs, ∀ right ∈ pairs,
      (machineRule clusterID).score left.1 ((machineRule clusterID).row right) < 0 ∨
        2 ≤ (machineRule clusterID).score left.1 ((machineRule clusterID).row right) :=
    fun left hl right hr => (hscore left hl right hr).imp_right ge_of_eq
  have hunsettled : ¬ pairs.Pairwise fun early late =>
      (machineRule clusterID).score early.1 ((machineRule clusterID).row late) = 2 →
        policyFields early.1 = policyFields late.1 := by
    intro hpairwise
    apply hambiguous
    rw [← hlefts, Unambiguous, List.pairwise_map]
    refine List.Pairwise.imp_of_mem ?_ hpairwise
    intro early late hearly hlate hagree hconfusable
    exact (policyFields_eq_iff hconfusable).mp
      (hagree (htakes early hearly late hlate hconfusable))
  have hall : (db.tables .machine).rows.Perm
      ((machineRule clusterID).rewritePairs pairs ++ []) := by
    simpa using hrows
  obtain ⟨rights, hperm, hchanges⟩ := reconcile_unsettled
    (policyFields_rewrite clusterID) hall (by omega)
    (fun pair hpair => htakes pair hpair pair hpair (confusable_self pair.1))
    hmin hunsettled
  obtain ⟨order, hvisit⟩ := IterOrder.exists_visit_eq (hperm.trans hrows.symm)
  refine ⟨{ Orders.asStored with machine := order }, ?_⟩
  intro next hnext
  apply hchanges next
  rw [hlefts]
  have hselect : db.select .machine order (fun m => m.clusterID == clusterID) =
      rights := by
    unfold Database.select Table.select
    rw [hvisit, List.filter_eq_self]
    intro row hrow
    obtain ⟨pair, _, rfl⟩ := List.mem_map.mp (hperm.mem_iff.mp hrow)
    simp [machineRule]
  rw [← hselect]
  exact hnext

end Again

/-- Repeating an update with the same specification never writes anything, in
any database and any order of the selects, exactly if the specification names
no cluster or its machines are unambiguous. -/
theorem updateTxn_idempotent_iff (outside : Outside) (dsl : Lang.Dsl) :
    (∀ (db after : Database) (orders again : Orders) (reply : Reply),
      updateTxn outside orders dsl db = some (reply, after) →
        ∃ reply', updateTxn outside again dsl after = some (reply', after)) ↔
      (NamesCluster dsl → Unambiguous (dslMachines outside dsl)) := by
  constructor
  · intro hidempotent hname
    by_contra hambiguous
    obtain ⟨cluster, booted, _, hfirst, hreflects, hrows⟩ :=
      updateTxn_new outside Orders.asStored hname
    obtain ⟨again, hchanges⟩ := exists_exchange hrows hambiguous
    obtain ⟨reply', hagain⟩ := hidempotent _ _ _ again _ hfirst
    obtain ⟨next, hmachines, hafter⟩ :=
      updateTxn_again_machine hname hreflects hagain
    exact hchanges next hmachines hafter.symm
  · intro hcondition db after orders again reply hfirst
    by_cases hname : NamesCluster dsl
    · have hone : AtMostOneCluster db := atMostOneCluster_of_updateTxn hname hfirst
      obtain ⟨cluster, found, hfound, hreflects⟩ := updateTxn_ok outside orders hone hname
      rw [hfirst, Option.some.injEq, Prod.mk.injEq] at hfound
      obtain ⟨_, rfl⟩ := hfound
      refine ⟨.ok (), ?_⟩
      rw [updateTxn_again hname hreflects,
        machineTxn_again hreflects (hcondition hname) again, Option.bind_some,
        aclTxn_again hreflects again]
    · rw [updateTxn_error hname] at hfirst
      obtain ⟨_, rfl⟩ := Prod.mk.inj (Option.some.inj hfirst)
      exact ⟨_, updateTxn_error hname⟩

/-- The machine rows with the keys they carry. -/
def keysOf (db : Database) : List (ℕ × List String) :=
  (db.tables .machine).rows.map fun m => (m.ID, m.sshKeys)

/-- The second update visits the machine rows backwards and exchanges the keys
of the two workers. -/
theorem twoKeys_exchanged :
    (updateTxn .quiet .asStored twoKeys Database.new).map
        (fun first => keysOf first.2) =
      some [(2, []), (3, ["alice"]), (4, ["bob"])] ∧
    ((updateTxn .quiet .asStored twoKeys Database.new).bind fun first =>
        updateTxn .quiet { Orders.asStored with machine := .backwards _ } twoKeys
          first.2).map (fun second => keysOf second.2) =
      some [(2, []), (3, ["bob"]), (4, ["alice"])] := by
  decide +kernel

end Engine
end Di
