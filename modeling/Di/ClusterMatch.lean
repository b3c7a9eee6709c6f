import Di.ClusterSync
import Di.JoinOwners

/-!
# Rows that keep their machine

`syncDB` pairs machine rows with the machines of the cloud one row after another.
A row whose `CloudID` names a live machine that fits has a score of zero with that
machine only; it may still lose it to an earlier row without a machine of its own.
`runningMachine_kept_iff` says for which rows and machines this happens in some
order.
-/

namespace Di
namespace ClusterSync

open Db Join Reconcile Engine

/-- The conditions of `scoreFun` under which a row and a machine can be paired. -/
def Compatible (dbm : Machine) (m : CloudMachine) : Prop :=
  dbm.provider = m.provider ∧ (m.region ≠ "" → dbm.region = m.region) ∧
    (m.size ≠ "" → dbm.size = m.size) ∧ (m.diskSize ≠ 0 → dbm.diskSize = m.diskSize)

instance (dbm : Machine) (m : CloudMachine) : Decidable (Compatible dbm m) :=
  inferInstanceAs (Decidable (_ ∧ _))

theorem syncScore_of_compatible {dbm : Machine} {m : CloudMachine} (hfits : Compatible dbm m) :
    syncScore dbm m =
      if dbm.cloudID = m.ID then 0
      else if dbm.publicIP = m.publicIP then 1
      else if dbm.privateIP = m.privateIP then 2
      else 3 := by
  rcases hfits with ⟨hprovider, hregion, hsize, hdisk⟩
  unfold syncScore
  rw [if_neg (not_not.mpr hprovider), if_neg fun h => h.2 (hregion h.1),
    if_neg fun h => h.2 (hsize h.1), if_neg fun h => h.2 (hdisk h.1)]

theorem syncScore_of_incompatible {dbm : Machine} {m : CloudMachine}
    (hmisfit : ¬ Compatible dbm m) : syncScore dbm m = -1 := by
  unfold syncScore
  by_cases hprovider : dbm.provider = m.provider
  · rw [if_neg (not_not.mpr hprovider)]
    split
    · rfl
    next hregion =>
      split
      · rfl
      next hsize =>
        split
        · rfl
        next hdisk =>
          rw [not_and_not_right] at hregion hsize hdisk
          exact absurd ⟨hprovider, hregion, hsize, hdisk⟩ hmisfit
  · rw [if_pos hprovider]

theorem syncScore_nonneg_iff (dbm : Machine) (m : CloudMachine) :
    0 ≤ syncScore dbm m ↔ Compatible dbm m := by
  by_cases hfits : Compatible dbm m
  · rw [syncScore_of_compatible hfits]
    split_ifs <;> simp [hfits]
  · simp [syncScore_of_incompatible hfits, hfits]

theorem syncScore_zero_iff (dbm : Machine) (m : CloudMachine) :
    syncScore dbm m = 0 ↔ Compatible dbm m ∧ dbm.cloudID = m.ID := by
  by_cases hfits : Compatible dbm m
  · rw [syncScore_of_compatible hfits]
    split_ifs <;> simp_all
  · simp [syncScore_of_incompatible hfits, hfits]

/-! ## Keeping a running machine -/

/-- The live machine that the `CloudID` of a row names, if it fits the row. -/
def runningFor (cloudMachines : List CloudMachine) (dbm : Machine) : Option CloudMachine :=
  cloudMachines.find? fun m => dbm.cloudID ≠ "" ∧ dbm.cloudID = m.ID ∧ Compatible dbm m

theorem runningFor_eq_some_iff {cloudMachines : List CloudMachine}
    (hdistinct : (cloudMachines.map CloudMachine.ID).Nodup) (dbm : Machine) (m : CloudMachine) :
    runningFor cloudMachines dbm = some m ↔
      m ∈ cloudMachines ∧ dbm.cloudID ≠ "" ∧ dbm.cloudID = m.ID ∧ Compatible dbm m := by
  constructor
  · intro hfound
    exact ⟨List.mem_of_find?_eq_some hfound, by simpa using List.find?_some hfound⟩
  · rintro ⟨hmem, hruns⟩
    cases hfound : runningFor cloudMachines dbm with
    | none =>
        have hnone := List.find?_eq_none.mp hfound m hmem
        exact absurd hruns (by simpa using hnone)
    | some other =>
        have hother : dbm.cloudID ≠ "" ∧ dbm.cloudID = other.ID ∧ Compatible dbm other := by
          simpa using List.find?_some hfound
        have hsame : other.ID = m.ID := hother.2.1.symm.trans hruns.2.1
        rw [List.inj_on_of_nodup_map hdistinct (List.mem_of_find?_eq_some hfound) hmem hsame]

/-- No two rows share a `CloudID`, except that many may have none. -/
def DistinctCloudIDs (dbMachines : List Machine) : Prop :=
  dbMachines.Pairwise fun a b => a.cloudID ≠ "" → a.cloudID ≠ b.cloudID

theorem owning_runningFor {cloudMachines : List CloudMachine} {dbMachines : List Machine}
    (hrows : DistinctCloudIDs dbMachines)
    (hdistinct : (cloudMachines.map CloudMachine.ID).Nodup) :
    Owning syncScore (runningFor cloudMachines) dbMachines cloudMachines where
  listed := fun dbm _ m hm => ((runningFor_eq_some_iff hdistinct dbm m).mp hm).1
  zero := by
    intro dbm _ m hm
    have hruns := (runningFor_eq_some_iff hdistinct dbm m).mp hm
    exact (syncScore_zero_iff dbm m).mpr ⟨hruns.2.2.2, hruns.2.2.1⟩
  only := by
    intro dbm _ m hm other hother hzero
    have hruns := (runningFor_eq_some_iff hdistinct dbm m).mp hm
    have hid := ((syncScore_zero_iff dbm other).mp hzero).2
    exact List.inj_on_of_nodup_map hdistinct hother hruns.1 (hid.symm.trans hruns.2.2.1)
  apart := by
    apply hrows.imp
    intro a b hab m ha hb
    have ha := (runningFor_eq_some_iff hdistinct a m).mp ha
    have hb := (runningFor_eq_some_iff hdistinct b m).mp hb
    exact hab ha.2.1 (ha.2.2.1.trans hb.2.2.1.symm)

/-- In every order of the rows and of the machines, each row whose `CloudID` names
a live machine that fits is paired with it, exactly if no sequence of rows without
such a machine, each taking a machine of best score among those that are left,
comes to a machine that some row has. -/
theorem runningMachine_kept_iff (dbMachines : List Machine) (cloudMachines : List CloudMachine)
    (hrows : DistinctCloudIDs dbMachines)
    (hdistinct : (cloudMachines.map CloudMachine.ID).Nodup) :
    (∀ rows machines, rows.Perm dbMachines → machines.Perm cloudMachines →
      ∀ dbm ∈ rows, ∀ m ∈ machines, dbm.cloudID ≠ "" → dbm.cloudID = m.ID →
        Compatible dbm m → (dbm, m) ∈ (syncDB machines rows).pairs) ↔
      ¬ Contested syncScore (runningFor cloudMachines) dbMachines cloudMachines := by
  rw [← keepsOwn_iff (owning_runningFor hrows hdistinct) (List.Nodup.of_map _ hdistinct)]
  constructor
  · intro hkept rows machines hrowsPerm hmachinesPerm dbm hdbm m hm
    rcases (runningFor_eq_some_iff hdistinct dbm m).mp hm with ⟨hmem, hsome, hid, hfits⟩
    exact hkept rows machines hrowsPerm hmachinesPerm dbm hdbm m
      (hmachinesPerm.mem_iff.mpr hmem) hsome hid hfits
  · intro hkeeps rows machines hrowsPerm hmachinesPerm dbm hdbm m hm hsome hid hfits
    apply hkeeps rows machines hrowsPerm hmachinesPerm dbm hdbm
    exact (runningFor_eq_some_iff hdistinct dbm m).mpr
      ⟨hmachinesPerm.mem_iff.mp hm, hsome, hid, hfits⟩

def owner : Machine :=
  { ID := 1, provider := .amazonSpot, size := "m4.large", cloudID := "i-1",
    publicIP := "54.0.0.1", privateIP := "172.16.0.1" }

/-- A row that the policy has just added, for another size. -/
def otherSize : Machine := { ID := 2, provider := .amazonSpot, size := "m4.xlarge" }

theorem runningMachine_kept_otherSize :
    (owner, runningMachine) ∈ (syncDB [runningMachine] [otherSize, owner]).pairs := by
  have hrows : DistinctCloudIDs [otherSize, owner] := by
    simp [DistinctCloudIDs, otherSize, owner]
  have hapart : ¬ Contested syncScore (runningFor [runningMachine]) [otherSize, owner]
      [runningMachine] := by
    apply not_contested_of_incompatible
    decide
  exact (runningMachine_kept_iff [otherSize, owner] [runningMachine] hrows (by simp)).mpr hapart
    _ _ .rfl .rfl owner (by simp) runningMachine (by simp) (by decide) (by decide) (by decide)

/-- A row that the policy has just added, for the same size. -/
def newcomer : Machine := { ID := 2, provider := .amazonSpot, size := "m4.large" }

/-- The newcomer comes first and takes the running machine of the owner. -/
theorem newcomer_takes_running :
    owner.cloudID = runningMachine.ID ∧ Compatible owner runningMachine ∧
      (syncDB [runningMachine] [newcomer, owner]).pairs = [(newcomer, runningMachine)] := by
  decide

end ClusterSync
end Di
