import Di.ClusterLoop

/-!
# Convergence of the cloud sync

If all attributes are filled in, a row and a machine fit exactly if their
attributes agree, so booting for the rows and stopping the machines that are left
over makes them agree as multisets.  From then on `sync` pairs everything, and once
it has, every row keeps its machine.
-/

namespace Di
namespace ClusterSync

open Db Join Reconcile Engine

/-! ## What an iteration achieves -/

/-- As many rows ask for each kind of machine as there are live ones. -/
def Balanced (clusterID : ℕ) (s : CloudState) : Prop :=
  (s.live.map CloudMachine.attributes).Perm ((clusterRows clusterID s.db).map demand)

/-- Each row has a live machine of its own. -/
def Settled (clusterID : ℕ) (s : CloudState) : Prop :=
  ((clusterRows clusterID s.db).map fun row => (row.cloudID, demand row)).Perm
    (s.live.map CloudMachine.identity)

def assignments (clusterID : ℕ) (s : CloudState) : List (ℕ × String) :=
  (clusterRows clusterID s.db).map fun row => (row.ID, row.cloudID)

theorem map_attributes (machines : List CloudMachine) :
    machines.map CloudMachine.attributes =
      (machines.map CloudMachine.identity).map Prod.snd := by
  rw [List.map_map]
  rfl

theorem map_ID (machines : List CloudMachine) :
    machines.map CloudMachine.ID = (machines.map CloudMachine.identity).map Prod.fst := by
  rw [List.map_map]
  rfl

theorem Settled.balanced {clusterID : ℕ} {s : CloudState} (hsettled : Settled clusterID s) :
    Balanced clusterID s := by
  have hdemands := (hsettled.map Prod.snd).symm
  rw [← map_attributes, List.map_map] at hdemands
  exact hdemands

section Step

variable {clusterID : ℕ} {turn : Turn} {s : CloudState} {dbMachines : List Machine}
  {listing : List CloudMachine} {first : Pass}

theorem Passed.listing_live (hpassed : Passed clusterID s dbMachines listing first)
    {m : CloudMachine} (hm : m ∈ listing) : ∃ other ∈ s.live, other.identity = m.identity :=
  List.mem_map.mp (hpassed.listed.mem_iff.mp (List.mem_map_of_mem hm))

theorem Passed.listing_filled (hpassed : Passed clusterID s dbMachines listing first)
    (hready : Ready clusterID turn s) {m : CloudMachine} (hm : m ∈ listing) :
    Filled m.attributes := by
  rcases hpassed.listing_live hm with ⟨other, hother, hsame⟩
  have hattributes : other.attributes = m.attributes := congrArg Prod.snd hsame
  exact hattributes ▸ hready.liveFilled other hother

theorem Passed.listing_distinct (hpassed : Passed clusterID s dbMachines listing first)
    (hready : Ready clusterID turn s) : (listing.map CloudMachine.ID).Nodup := by
  have hids := hpassed.listed.map Prod.fst
  rw [← map_ID, ← map_ID] at hids
  exact hids.nodup_iff.mpr hready.distinct

theorem Passed.pair_demand (hpassed : Passed clusterID s dbMachines listing first)
    (hready : Ready clusterID turn s) :
    ∀ pair ∈ first.diff.pairs, demand pair.1 = pair.2.attributes := by
  rw [hpassed.diff]
  intro pair hpair
  have hfilled := hpassed.listing_filled hready (join_pair_right_mem syncScore hpair)
  rw [← compatible_iff hfilled, ← syncScore_nonneg_iff]
  exact join_pairs_nonneg syncScore dbMachines listing pair hpair

theorem Passed.demands (hpassed : Passed clusterID s dbMachines listing first)
    (hready : Ready clusterID turn s) :
    ((clusterRows clusterID first.after.db).map demand).Perm
      ((clusterRows clusterID s.db).map demand) := by
  have hpairs := hpassed.pair_demand hready
  have hwritten : first.diff.rows.map demand = (first.diff.pairs.map Prod.fst).map demand := by
    rw [Diff.rows, List.map_map, List.map_map]
    apply List.map_congr_left
    intro pair hpair
    have hdemand := hpairs pair hpair
    exact (demand_cloudWritten hdemand).trans hdemand.symm
  have hall := hpassed.committed.map demand
  rw [List.map_append, hwritten, ← List.map_append, hpassed.diff] at hall
  have hlefts := (join_lefts_perm syncScore dbMachines listing).trans hpassed.read
  exact hall.trans (hlefts.map demand)

theorem Passed.balanced (hpassed : Passed clusterID s dbMachines listing first)
    (hready : Ready clusterID turn s) : Balanced clusterID first.after := by
  rcases hpassed.live with ⟨created, hlive, hattributes, _⟩
  have hpairs : (first.diff.pairs.map Prod.snd).map CloudMachine.attributes =
      (first.diff.pairs.map Prod.fst).map demand := by
    rw [List.map_map, List.map_map]
    apply List.map_congr_left
    intro pair hpair
    exact (hpassed.pair_demand hready pair hpair).symm
  have hrequests : first.diff.bootSet.map CloudMachine.attributes =
      (join syncScore dbMachines listing).lonelyLefts.map demand := by
    rw [hpassed.diff]
    simp only [syncDB, List.map_map]
    rfl
  have hall := hlive.map Prod.snd
  rw [← map_attributes, ← map_attributes, List.map_append, hpairs] at hall
  rw [hrequests] at hattributes
  refine (hall.trans (hattributes.append_left _)).trans ?_
  rw [← List.map_append, hpassed.diff]
  have hlefts := (join_lefts_perm syncScore dbMachines listing).trans hpassed.read
  exact (hlefts.map demand).trans (hpassed.demands hready).symm

theorem Passed.ready (hpassed : Passed clusterID s dbMachines listing first)
    (hready : Ready clusterID turn s) : Ready clusterID turn first.after := by
  have hbefore : ∀ row ∈ clusterRows clusterID first.after.db,
      ∃ old ∈ clusterRows clusterID s.db, demand old = demand row := by
    intro row hrow
    exact List.mem_map.mp ((hpassed.demands hready).mem_iff.mp (List.mem_map_of_mem hrow))
  have hlive : ∀ m ∈ first.after.live,
      ∃ old ∈ clusterRows clusterID s.db, demand old = m.attributes := by
    intro m hm
    rcases List.mem_map.mp ((hpassed.balanced hready).mem_iff.mp (List.mem_map_of_mem hm)) with
      ⟨row, hrow, hdemand⟩
    rcases hbefore row hrow with ⟨old, hold, hsame⟩
    exact ⟨old, hold, hsame.trans hdemand⟩
  rcases hpassed.live with ⟨created, hsurvivors, _, hfresh⟩
  have hids := hsurvivors.map Prod.fst
  rw [← map_ID, ← map_ID, List.map_append] at hids
  have hpaired : ((first.diff.pairs.map Prod.snd).map CloudMachine.ID).Nodup ∧
      ∀ id ∈ (first.diff.pairs.map Prod.snd).map CloudMachine.ID,
        id ∈ s.live.map CloudMachine.ID := by
    have hrights := ((join_rights_perm syncScore dbMachines listing).map CloudMachine.ID)
    have hlisted := hpassed.listed.map Prod.fst
    rw [← map_ID, ← map_ID] at hlisted
    have hall := hrights.trans hlisted
    rw [List.map_append] at hall
    rw [hpassed.diff]
    exact ⟨(List.nodup_append.mp (hall.nodup_iff.mpr hready.distinct)).1,
      fun id hid => hall.mem_iff.mp (List.mem_append_left _ hid)⟩
  constructor
  · exact hready.reliable
  · intro row hrow
    rcases hbefore row hrow with ⟨old, hold, hsame⟩
    exact hsame ▸ hready.rowsFilled old hold
  · intro row hrow
    rcases hbefore row hrow with ⟨old, hold, hsame⟩
    have hprovider : old.provider = row.provider := congrArg Prod.fst hsame
    exact hprovider ▸ hready.rowsAvailable old hold
  · intro m hm
    rcases hlive m hm with ⟨old, hold, hsame⟩
    exact hsame ▸ hready.rowsFilled old hold
  · intro m hm
    rcases hlive m hm with ⟨old, hold, hsame⟩
    have hprovider : old.provider = m.provider := congrArg Prod.fst hsame
    exact hprovider ▸ hready.rowsAvailable old hold
  · intro m hm
    rcases List.mem_append.mp (hids.mem_iff.mp (List.mem_map_of_mem hm)) with hid | hid
    · rcases List.mem_map.mp (hpaired.2 _ hid) with ⟨other, hother, hsame⟩
      exact hsame ▸ hready.named other hother
    · rcases List.mem_map.mp hid with ⟨other, hother, hsame⟩
      exact hsame ▸ hfresh.named other hother
  · rw [hids.nodup_iff, List.nodup_append]
    refine ⟨hpaired.1, hfresh.distinct, ?_⟩
    rintro id hid other hother rfl
    rcases List.mem_map.mp hother with ⟨m, hm, rfl⟩
    exact hfresh.unused m hm (hpaired.2 _ hid)

/-- An iteration that finds a balanced state pairs everything. -/
theorem Passed.complete (hpassed : Passed clusterID s dbMachines listing first)
    (hready : Ready clusterID turn s) (hbalanced : Balanced clusterID s) :
    first.diff.bootSet = [] ∧ first.diff.terminateSet = [] ∧
      Settled clusterID first.after := by
  have hclasses : (dbMachines.map demand).Perm (listing.map CloudMachine.attributes) := by
    have hlisted := hpassed.listed.map Prod.snd
    rw [← map_attributes, ← map_attributes] at hlisted
    exact (hpassed.read.map demand).trans (hlisted.trans hbalanced).symm
  have hscore : ∀ row ∈ dbMachines, ∀ m ∈ listing,
      0 ≤ syncScore row m ↔ demand row = m.attributes := by
    intro row _ m hm
    rw [syncScore_nonneg_iff, compatible_iff (hpassed.listing_filled hready hm)]
  rcases join_complete_of_classes hscore hclasses with ⟨hlefts, hrights⟩
  have hboot : first.diff.bootSet = [] := by
    rw [hpassed.diff]
    simp [syncDB, hlefts]
  refine ⟨hboot, by simp [hpassed.diff, syncDB, hrights], ?_⟩
  rcases hpassed.live with ⟨created, hlive, hattributes, _⟩
  have hnone : created = [] := by
    rw [hboot] at hattributes
    simpa using hattributes
  rw [hnone, List.append_nil] at hlive
  have hcommitted := hpassed.committed
  rw [hlefts, List.append_nil] at hcommitted
  refine ((hcommitted.map _).trans ?_).trans hlive.symm
  rw [Diff.rows, List.map_map, List.map_map]
  apply List.Perm.of_eq
  apply List.map_congr_left
  intro pair hpair
  have hdemand := demand_cloudWritten (hpassed.pair_demand hready pair hpair)
  exact congrArg (Prod.mk pair.2.ID) hdemand

theorem Passed.pair_own (hpassed : Passed clusterID s dbMachines listing first)
    (hready : Ready clusterID turn s) (hsettled : Settled clusterID s) :
    ∀ pair ∈ first.diff.pairs, pair.2.ID = pair.1.cloudID := by
  have hdistinct := hpassed.listing_distinct hready
  have hrows : (dbMachines.map Machine.cloudID).Nodup := by
    have hids := hsettled.map Prod.fst
    rw [← map_ID, List.map_map] at hids
    exact ((hpassed.read.map Machine.cloudID).trans hids).nodup_iff.mpr hready.distinct
  have howns : ∀ row ∈ dbMachines, ∃ m, runningFor listing row = some m := by
    intro row hrow
    have hmem := List.mem_map_of_mem (f := fun row => (row.cloudID, demand row))
      (hpassed.read.mem_iff.mp hrow)
    rcases List.mem_map.mp ((hsettled.trans hpassed.listed.symm).mem_iff.mp hmem) with
      ⟨m, hm, hsame⟩
    rcases Prod.mk.inj hsame with ⟨hid, hattributes⟩
    rcases hpassed.listing_live hm with ⟨other, hother, hidentity⟩
    have hsameID : other.ID = m.ID := congrArg Prod.fst hidentity
    have hnamed : m.ID ≠ "" := hsameID ▸ hready.named other hother
    have hfits := (compatible_iff (hpassed.listing_filled hready hm)).mpr hattributes.symm
    exact ⟨m, (runningFor_eq_some_iff hdistinct row m).mpr ⟨hm, hid ▸ hnamed, hid.symm, hfits⟩⟩
  have hcontested : ¬ Contested syncScore (runningFor listing) dbMachines listing := by
    apply not_contested_of_incompatible
    intro row hrow hnone
    rcases howns row hrow with ⟨m, hm⟩
    rw [hm] at hnone
    cases hnone
  have hpairwise : DistinctCloudIDs dbMachines := by
    apply (List.pairwise_map.mp hrows).imp
    intro a b hne _
    exact hne
  have hkeeps := (keepsOwn_iff (owning_runningFor hpairwise hdistinct)
    (List.Nodup.of_map _ hdistinct)).mpr hcontested dbMachines listing .rfl .rfl
  rw [hpassed.diff]
  intro pair hpair
  rcases howns pair.1 (join_pair_left_mem syncScore hpair) with ⟨m, hm⟩
  have hown := hkeeps pair.1 (join_pair_left_mem syncScore hpair) m hm
  have hlefts : ((join syncScore dbMachines listing).pairs.map Prod.fst).Nodup :=
    (join_pairs_sublist syncScore dbMachines listing).nodup (List.Nodup.of_map _ hrows)
  rw [List.inj_on_of_nodup_map hlefts hpair hown rfl]
  exact ((runningFor_eq_some_iff hdistinct pair.1 m).mp hm).2.2.1.symm

theorem Passed.assignments (hpassed : Passed clusterID s dbMachines listing first)
    (hready : Ready clusterID turn s) (hsettled : Settled clusterID s) :
    (assignments clusterID first.after).Perm (assignments clusterID s) := by
  have hown := hpassed.pair_own hready hsettled
  have hlefts := (join_lefts_perm syncScore dbMachines listing).trans hpassed.read
  have hwritten : first.diff.rows.map (fun row => (row.ID, row.cloudID)) =
      (first.diff.pairs.map Prod.fst).map fun row => (row.ID, row.cloudID) := by
    rw [Diff.rows, List.map_map, List.map_map]
    apply List.map_congr_left
    intro pair hpair
    exact congrArg (Prod.mk pair.1.ID) (hown pair hpair)
  have hall := hpassed.committed.map fun row => (row.ID, row.cloudID)
  rw [List.map_append, hwritten, ← List.map_append, hpassed.diff] at hall
  exact hall.trans (hlefts.map _)

end Step

/-! ## Convergence -/

/-- The `CloudID`s of the rows are a bijection between the rows and the live machines. -/
structure Matched (clusterID : ℕ) (s : CloudState) : Prop where
  distinct : (s.live.map CloudMachine.ID).Nodup
  bijective : Set.BijOn Machine.cloudID {row | row ∈ clusterRows clusterID s.db}
    {id | id ∈ s.live.map CloudMachine.ID}

theorem Settled.matched {clusterID : ℕ} {s : CloudState} (hsettled : Settled clusterID s)
    (hdistinct : (s.live.map CloudMachine.ID).Nodup) : Matched clusterID s := by
  have hids : ((clusterRows clusterID s.db).map Machine.cloudID).Perm
      (s.live.map CloudMachine.ID) := by
    have hfirst := hsettled.map Prod.fst
    rwa [← map_ID, List.map_map] at hfirst
  refine ⟨hdistinct, ?_, ?_, ?_⟩
  · intro row hrow
    exact hids.mem_iff.mp (List.mem_map_of_mem hrow)
  · intro a ha b hb hsame
    exact List.inj_on_of_nodup_map (hids.nodup_iff.mpr hdistinct) ha hb hsame
  · intro id hid
    rcases List.mem_map.mp (hids.mem_iff.mpr hid) with ⟨row, hrow, hsame⟩
    exact ⟨row, hrow, hsame⟩

/-- An iteration with nothing to do. -/
structure Quiet (clusterID : ℕ) (p : Pass) : Prop where
  boot : p.diff.bootSet = []
  terminate : p.diff.terminateSet = []
  matched : Matched clusterID p.after

theorem sync_cons {clusterID : ℕ} {turn : Turn} {turns : List Turn} {s : CloudState}
    (hready : ∀ later ∈ turn :: turns, Ready clusterID later s) :
    ∃ dbMachines listing first, Passed clusterID s dbMachines listing first ∧
      (∀ later ∈ turns, Ready clusterID later first.after) ∧
      ∀ rest, sync clusterID turns first.after = some rest →
        sync clusterID (turn :: turns) s = some (first :: rest) := by
  rcases pass_spec (hready turn (by simp)) with
    ⟨listing, first, dbMachines, hget, hpass, hpassed⟩
  refine ⟨dbMachines, listing, first, hpassed, ?_, ?_⟩
  · intro later hlater
    exact hpassed.ready (hready later (List.mem_cons_of_mem turn hlater))
  · intro rest hrest
    rw [sync, hget]
    simp [hpass, hrest]

theorem sync_settled {clusterID : ℕ} {turns : List Turn} {s : CloudState}
    (hready : ∀ turn ∈ turns, Ready clusterID turn s) (hsettled : Settled clusterID s) :
    ∃ passes, sync clusterID turns s = some passes ∧ passes.length = turns.length ∧
      ∀ p ∈ passes, Quiet clusterID p ∧
        (assignments clusterID p.after).Perm (assignments clusterID s) := by
  induction turns generalizing s with
  | nil => exact ⟨[], rfl, rfl, by simp⟩
  | cons turn turns ih =>
      rcases sync_cons hready with ⟨dbMachines, listing, first, hpassed, hlater, hsync⟩
      have hturn := hready turn (by simp)
      rcases hpassed.complete hturn hsettled.balanced with ⟨hboot, hterminate, hnext⟩
      have hsame := hpassed.assignments hturn hsettled
      rcases ih hlater hnext with ⟨rest, hrest, hlength, hquiet⟩
      refine ⟨first :: rest, hsync rest hrest, by simp [hlength], ?_⟩
      intro p hp
      rcases List.mem_cons.mp hp with rfl | hp
      · exact ⟨⟨hboot, hterminate, hnext.matched (hpassed.ready hturn).distinct⟩, hsame⟩
      · exact ⟨(hquiet p hp).1, (hquiet p hp).2.trans hsame⟩

theorem sync_balanced {clusterID : ℕ} {turns : List Turn} {s : CloudState}
    (hready : ∀ turn ∈ turns, Ready clusterID turn s) (hbalanced : Balanced clusterID s) :
    ∃ passes, sync clusterID turns s = some passes ∧ passes.length = turns.length ∧
      (∀ p ∈ passes, Quiet clusterID p) ∧
      ∀ p ∈ passes, ∀ q ∈ passes,
        (assignments clusterID p.after).Perm (assignments clusterID q.after) := by
  cases turns with
  | nil => exact ⟨[], rfl, rfl, by simp, by simp⟩
  | cons turn turns =>
      rcases sync_cons hready with ⟨dbMachines, listing, first, hpassed, hlater, hsync⟩
      have hturn := hready turn (by simp)
      rcases hpassed.complete hturn hbalanced with ⟨hboot, hterminate, hnext⟩
      rcases sync_settled hlater hnext with ⟨rest, hrest, hlength, hquiet⟩
      have hsame : ∀ p ∈ first :: rest,
          (assignments clusterID p.after).Perm (assignments clusterID first.after) := by
        intro p hp
        rcases List.mem_cons.mp hp with rfl | hp
        · exact .rfl
        · exact (hquiet p hp).2
      refine ⟨first :: rest, hsync rest hrest, by simp [hlength], ?_, ?_⟩
      · intro p hp
        rcases List.mem_cons.mp hp with rfl | hp
        · exact ⟨hboot, hterminate, hnext.matched (hpassed.ready hturn).distinct⟩
        · exact (hquiet p hp).1
      · intro p hp q hq
        exact (hsame p hp).trans (hsame q hq).symm

/-- From the second iteration on `sync` neither boots nor stops a machine, each row
has a live machine of its own, and no row changes its machine any more. -/
theorem sync_converges (clusterID : ℕ) (turns : List Turn) (s : CloudState)
    (hready : ∀ turn ∈ turns, Ready clusterID turn s) :
    ∃ passes, sync clusterID turns s = some passes ∧ passes.length = turns.length ∧
      (∀ p ∈ passes.tail, p.diff.bootSet = [] ∧ p.diff.terminateSet = [] ∧
        Matched clusterID p.after) ∧
      ∀ p ∈ passes.tail, ∀ q ∈ passes.tail,
        (assignments clusterID p.after).Perm (assignments clusterID q.after) := by
  cases turns with
  | nil => exact ⟨[], rfl, rfl, by simp, by simp⟩
  | cons turn turns =>
      rcases sync_cons hready with ⟨dbMachines, listing, first, hpassed, hlater, hsync⟩
      have hbalanced := hpassed.balanced (hready turn (by simp))
      rcases sync_balanced hlater hbalanced with ⟨rest, hrest, hlength, hquiet, hsame⟩
      refine ⟨first :: rest, hsync rest hrest, by simp [hlength], ?_, hsame⟩
      intro p hp
      exact ⟨(hquiet p hp).boot, (hquiet p hp).terminate, (hquiet p hp).matched⟩

/-! ## A simulated provider -/

def unusedID (machines : List CloudMachine) : String :=
  String.ofList (List.replicate ((machines.map fun m => m.ID.length).sum + 1) 'i')

def create (live : List CloudMachine) : List CloudMachine → List CloudMachine
  | [] => []
  | m :: requests =>
      { m with ID := unusedID (live ++ create live requests) } :: create live requests

def simulated (p : Provider) : CloudProvider where
  get := fun live => some (live.filter fun m => m.provider = p)
  boot := fun requests live => live ++ create live requests
  stop := fun machines live => live.filter fun m => m.ID ∉ machines.map CloudMachine.ID

theorem unusedID_notMem (machines : List CloudMachine) :
    unusedID machines ∉ machines.map CloudMachine.ID := by
  intro hmem
  rcases List.mem_map.mp hmem with ⟨m, hm, hid⟩
  have hle : m.ID.length ≤ (machines.map fun m => m.ID.length).sum :=
    List.le_sum_of_mem (List.mem_map_of_mem (f := fun m => m.ID.length) hm)
  rw [hid] at hle
  simp [unusedID] at hle

theorem fresh_create (live requests : List CloudMachine) : Fresh (create live requests) live := by
  induction requests with
  | nil => constructor <;> simp [create]
  | cons m requests ih =>
      have hunused := unusedID_notMem (live ++ create live requests)
      rw [List.map_append, List.mem_append, not_or] at hunused
      constructor
      · exact List.nodup_cons.mpr ⟨hunused.2, ih.distinct⟩
      · intro new hnew
        rcases List.mem_cons.mp hnew with rfl | hnew
        · intro hempty
          have hlength := congrArg String.length hempty
          simp [unusedID] at hlength
        · exact ih.named new hnew
      · intro new hnew
        rcases List.mem_cons.mp hnew with rfl | hnew
        · exact hunused.1
        · exact ih.unused new hnew

theorem simulated_reliable (p : Provider) : (simulated p).Reliable p where
  get := fun live => ⟨_, rfl, .rfl⟩
  boot := by
    intro requests live _
    refine ⟨create live requests, .rfl, ?_, fresh_create live requests⟩
    apply List.Perm.of_eq
    clear * -
    induction requests with
    | nil => rfl
    | cons m requests ih => exact congrArg (List.cons m.attributes) ih
  stop := fun _ _ _ => .rfl

def simulatedTurn : Turn where
  providers := AList.singleton .amazonSpot (simulated .amazonSpot)
  rowOrder := .asStored _
  bootOrder := .asStored _
  stopOrder := .asStored _

def wanted : Machine :=
  { ID := 1, clusterID := 7, provider := .amazonSpot, region := "us-west-1", size := "m4.large",
    diskSize := 32 }

/-- A row without a machine, and a machine of another size. -/
def resized : CloudState where
  db := ((Database.new.insertRow .machine).2.commit .machine wanted).getD Database.new
  live := [{ ID := "i-1", provider := .amazonSpot, region := "us-west-1", size := "m4.xlarge",
             diskSize := 32 }]

theorem sync_converges_resized :
    ∃ passes, sync 7 (List.replicate 8 simulatedTurn) resized = some passes ∧
      passes.length = 8 := by
  have hrows : clusterRows 7 resized.db = [wanted] := by decide
  have hproviders : Provider.amazonSpot ∈ simulatedTurn.providers :=
    List.mem_singleton.mpr rfl
  have hready : ∀ turn ∈ List.replicate 8 simulatedTurn, Ready 7 turn resized := by
    intro turn hturn
    rw [List.eq_of_mem_replicate hturn]
    constructor
    · intro p inst hinst
      have hentry := List.mem_singleton.mp (AList.mem_lookup_iff.mp hinst)
      cases hentry
      exact simulated_reliable .amazonSpot
    · simp [hrows, wanted, Filled, demand]
    · simpa [hrows, wanted] using hproviders
    · simp [resized, Filled, CloudMachine.attributes]
    · simpa [resized] using hproviders
    · simp [resized]
    · simp [resized]
  rcases sync_converges 7 _ resized hready with ⟨passes, hsync, hlength, _⟩
  exact ⟨passes, hsync, hlength⟩

end ClusterSync
end Di
