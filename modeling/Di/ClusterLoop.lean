import Di.ClusterMatch

/-!
# The loop of the cloud sync

`sync` lists the live machines, pairs them with the rows of the cluster, writes the
pairs back and boots and stops machines at their providers.  A provider is modelled
by what its calls do to the live machines; `Reliable` is what the rest of the
development expects of one.  `pass_spec` says what an iteration does then.
-/

namespace Di
namespace ClusterSync

open Db Join Reconcile Engine

/-! ## The loop of `sync` -/

/-- The calls of a `provider.Provider`, as functions of the live machines. -/
structure CloudProvider where
  /-- `none` is an error. -/
  get : List CloudMachine → Option (List CloudMachine)
  /-- The live machines after the call, given the argument and those before it. -/
  boot : List CloudMachine → List CloudMachine → List CloudMachine
  stop : List CloudMachine → List CloudMachine → List CloudMachine

/-- `clst.providers`. -/
abbrev Providers := AList fun _ : Provider => CloudProvider

def getMachines (live : List CloudMachine) :
    List (Σ _ : Provider, CloudProvider) → Option (List CloudMachine)
  | [] => some []
  | p :: rest => do
      let providerMachines ← p.2.get live
      let cloudMachines ← getMachines live rest
      some (providerMachines ++ cloudMachines)

def get (providers : Providers) (live : List CloudMachine) : Option (List CloudMachine) :=
  getMachines live providers.entries

def updateProvider (providers : Providers) (boot : Bool) (machines live : List CloudMachine)
    (p : Provider) : List CloudMachine :=
  let providerMachines := machines.filter fun m => m.provider = p
  match providers.lookup p with
  -- the provider is unavailable
  | none => live
  | some inst => if boot then inst.boot providerMachines live else inst.stop providerMachines live

/-- `order` traverses the map that `GroupBy` returns. -/
def updateCloud (providers : Providers) (order : IterOrder Provider) (boot : Bool)
    (machines live : List CloudMachine) : List CloudMachine :=
  (order.visit (machines.map CloudMachine.provider).dedup).foldl
    (updateProvider providers boot machines) live

/-- What an iteration of the loop does not determine itself. -/
structure Turn where
  providers : Providers
  rowOrder : IterOrder Machine
  bootOrder : IterOrder Provider
  stopOrder : IterOrder Provider

structure CloudState where
  db : Database
  live : List CloudMachine

structure Pass where
  diff : Diff
  after : CloudState

def pass (clusterID : ℕ) (turn : Turn) (s : CloudState) (cloudMachines : List CloudMachine) :
    Option Pass := do
  let dbMachines := s.db.select .machine turn.rowOrder fun m => m.clusterID == clusterID
  let diff := syncDB cloudMachines dbMachines
  let db ← commitAll (t := .machine) diff.rows s.db
  let booted := updateCloud turn.providers turn.bootOrder true diff.bootSet s.live
  let live := updateCloud turn.providers turn.stopOrder false diff.terminateSet booted
  some ⟨diff, ⟨db, live⟩⟩

/-- `sync` with one turn for each iteration of its loop, of which the source makes
eight; `none` is a panic. -/
def sync (clusterID : ℕ) : List Turn → CloudState → Option (List Pass)
  | [], _ => some []
  | turn :: turns, s =>
      match get turn.providers s.live with
      | none => some []
      | some cloudMachines => do
          let first ← pass clusterID turn s cloudMachines
          let rest ← sync clusterID turns first.after
          some (first :: rest)

/-! ## What is expected of the providers -/

/-- What a row asks for, and what a machine has. -/
def demand (dbm : Machine) : Provider × String × String × ℤ :=
  (dbm.provider, dbm.region, dbm.size, dbm.diskSize)

def CloudMachine.attributes (m : CloudMachine) : Provider × String × String × ℤ :=
  (m.provider, m.region, m.size, m.diskSize)

/-- The addresses of a machine may change, this does not. -/
def CloudMachine.identity (m : CloudMachine) : String × Provider × String × String × ℤ :=
  (m.ID, m.attributes)

def Filled : Provider × String × String × ℤ → Prop
  | (_, region, size, diskSize) => region ≠ "" ∧ size ≠ "" ∧ diskSize ≠ 0

structure Fresh (created live : List CloudMachine) : Prop where
  distinct : (created.map CloudMachine.ID).Nodup
  named : ∀ m ∈ created, m.ID ≠ ""
  unused : ∀ m ∈ created, m.ID ∉ live.map CloudMachine.ID

/-- `Get` lists exactly the live machines, `Boot` creates one machine for each request,
and `Stop` removes exactly the given machines. -/
structure CloudProvider.Reliable (inst : CloudProvider) (p : Provider) : Prop where
  get : ∀ live, ∃ listed, inst.get live = some listed ∧
    (listed.map CloudMachine.identity).Perm
      ((live.filter fun m => m.provider = p).map CloudMachine.identity)
  boot : ∀ requests live, (∀ m ∈ requests, m.provider = p) →
    ∃ created, (inst.boot requests live).Perm (live ++ created) ∧
      (created.map CloudMachine.attributes).Perm (requests.map CloudMachine.attributes) ∧
      Fresh created live
  stop : ∀ machines live, (∀ m ∈ machines, m.provider = p) →
    (inst.stop machines live).Perm
      (live.filter fun m => m.ID ∉ machines.map CloudMachine.ID)

def clusterRows (clusterID : ℕ) (db : Database) : List Machine :=
  (db.tables .machine).rows.filter fun m => m.clusterID == clusterID

/-- A state in which the iteration finds everything filled in and every provider. -/
structure Ready (clusterID : ℕ) (turn : Turn) (s : CloudState) : Prop where
  reliable : ∀ p, ∀ inst ∈ turn.providers.lookup p, inst.Reliable p
  rowsFilled : ∀ row ∈ clusterRows clusterID s.db, Filled (demand row)
  rowsAvailable : ∀ row ∈ clusterRows clusterID s.db, row.provider ∈ turn.providers
  liveFilled : ∀ m ∈ s.live, Filled m.attributes
  liveAvailable : ∀ m ∈ s.live, m.provider ∈ turn.providers
  named : ∀ m ∈ s.live, m.ID ≠ ""
  distinct : (s.live.map CloudMachine.ID).Nodup

/-! ## The calls of one iteration -/

theorem perm_flatMap_filter {β γ : Type*} [DecidableEq γ] (f : β → γ) {keys : List γ}
    (hkeys : keys.Nodup) {items : List β} (hitems : ∀ x ∈ items, f x ∈ keys) :
    (keys.flatMap fun k => items.filter fun x => f x = k).Perm items := by
  induction keys generalizing items with
  | nil =>
      have hnil : items = [] := List.eq_nil_iff_forall_not_mem.mpr (by simpa using hitems)
      simp [hnil]
  | cons k keys ih =>
      rcases List.nodup_cons.mp hkeys with ⟨hk, hrest⟩
      have hothers : ∀ x ∈ items.filter (fun x => ¬ f x = k), f x ∈ keys := by
        intro x hx
        rcases List.mem_filter.mp hx with ⟨hmem, hne⟩
        exact (List.mem_cons.mp (hitems x hmem)).resolve_left (by simpa using hne)
      have hgroups : (keys.flatMap fun j => items.filter fun x => f x = j) =
          keys.flatMap fun j => (items.filter fun x => ¬ f x = k).filter fun x => f x = j := by
        apply List.flatMap_congr
        intro j hj
        rw [List.filter_filter]
        apply List.filter_congr
        intro x _
        have hjk : j ≠ k := fun heq => hk (heq ▸ hj)
        by_cases hx : f x = j
        · simp [hx, hjk]
        · simp [hx]
      rw [List.flatMap_cons, hgroups]
      refine ((ih hrest hothers).append_left _).trans ?_
      have hsplit := List.filter_append_perm (fun x => decide (f x = k)) items
      simpa using hsplit

section Calls

variable {providers : Providers}

theorem getMachines_spec (live : List CloudMachine) {entries : List (Σ _ : Provider, CloudProvider)}
    (hreliable : ∀ entry ∈ entries, entry.2.Reliable entry.1) :
    ∃ listing, getMachines live entries = some listing ∧
      (listing.map CloudMachine.identity).Perm
        ((entries.keys.flatMap fun p => live.filter fun m => m.provider = p).map
          CloudMachine.identity) := by
  induction entries with
  | nil => exact ⟨[], rfl, .rfl⟩
  | cons entry rest ih =>
      rcases (hreliable entry (by simp)).get live with ⟨listed, hget, hlisted⟩
      rcases ih fun other hother => hreliable other (List.mem_cons_of_mem entry hother) with
        ⟨listing, hrest, hlisting⟩
      refine ⟨listed ++ listing, by simp [getMachines, hget, hrest], ?_⟩
      rw [List.map_append, List.keys_cons, List.flatMap_cons, List.map_append]
      exact hlisted.append hlisting

theorem get_spec (hreliable : ∀ p, ∀ inst ∈ providers.lookup p, inst.Reliable p)
    {live : List CloudMachine} (havailable : ∀ m ∈ live, m.provider ∈ providers) :
    ∃ listing, get providers live = some listing ∧
      (listing.map CloudMachine.identity).Perm (live.map CloudMachine.identity) := by
  have hentries : ∀ entry ∈ providers.entries, entry.2.Reliable entry.1 := by
    intro entry hentry
    exact hreliable entry.1 entry.2 (AList.mem_lookup_iff.mpr hentry)
  rcases getMachines_spec live hentries with ⟨listing, hget, hlisting⟩
  have hall := perm_flatMap_filter CloudMachine.provider providers.keys_nodup havailable
  exact ⟨listing, hget, hlisting.trans (hall.map _)⟩

theorem filter_provider (machines : List CloudMachine) (p : Provider) :
    ∀ m ∈ machines.filter (fun m => m.provider = p), m.provider = p := by
  intro m hm
  simpa using (List.mem_filter.mp hm).2

theorem bootGroups_spec (hreliable : ∀ p, ∀ inst ∈ providers.lookup p, inst.Reliable p)
    (requests : List CloudMachine) {groups : List Provider} (hgroups : ∀ p ∈ groups, p ∈ providers)
    (live : List CloudMachine) :
    ∃ created, (groups.foldl (updateProvider providers true requests) live).Perm
        (live ++ created) ∧
      (created.map CloudMachine.attributes).Perm
        ((groups.flatMap fun p => requests.filter fun m => m.provider = p).map
          CloudMachine.attributes) ∧
      Fresh created live := by
  induction groups generalizing live with
  | nil => exact ⟨[], by simp, .rfl, by constructor <;> simp⟩
  | cons p groups ih =>
      rcases Option.isSome_iff_exists.mp (AList.lookup_isSome.mpr (hgroups p (by simp))) with
        ⟨inst, hinst⟩
      rcases (hreliable p inst hinst).boot (requests.filter fun m => m.provider = p) live
        (filter_provider requests p) with ⟨first, hfirst, hattributes, hfresh⟩
      rcases ih (fun q hq => hgroups q (List.mem_cons_of_mem p hq))
        (updateProvider providers true requests live p) with
        ⟨others, hothers, hattributes', hfresh'⟩
      have hstep : (updateProvider providers true requests live p).Perm (live ++ first) := by
        simpa [updateProvider, hinst] using hfirst
      have hunused : ∀ m ∈ others,
          m.ID ∉ live.map CloudMachine.ID ∧ m.ID ∉ first.map CloudMachine.ID := by
        intro m hm
        have hnot := hfresh'.unused m hm
        rwa [(hstep.map CloudMachine.ID).mem_iff, List.map_append, List.mem_append,
          not_or] at hnot
      refine ⟨first ++ others, ?_, ?_, ?_, ?_, ?_⟩
      · rw [List.foldl_cons, ← List.append_assoc]
        exact hothers.trans (hstep.append_right others)
      · rw [List.map_append, List.flatMap_cons, List.map_append]
        exact hattributes.append hattributes'
      · rw [List.map_append, List.nodup_append]
        refine ⟨hfresh.distinct, hfresh'.distinct, ?_⟩
        rintro id hid other hother rfl
        rcases List.mem_map.mp hother with ⟨m, hm, rfl⟩
        exact (hunused m hm).2 hid
      · intro m hm
        rcases List.mem_append.mp hm with hm | hm
        · exact hfresh.named m hm
        · exact hfresh'.named m hm
      · intro m hm
        rcases List.mem_append.mp hm with hm | hm
        · exact hfresh.unused m hm
        · exact (hunused m hm).1

theorem stopGroups_spec (hreliable : ∀ p, ∀ inst ∈ providers.lookup p, inst.Reliable p)
    (machines : List CloudMachine) {groups : List Provider} (hgroups : ∀ p ∈ groups, p ∈ providers)
    (live : List CloudMachine) :
    (groups.foldl (updateProvider providers false machines) live).Perm
      (live.filter fun m => m.ID ∉
        (groups.flatMap fun p => machines.filter fun m => m.provider = p).map CloudMachine.ID) := by
  induction groups generalizing live with
  | nil => simp
  | cons p groups ih =>
      rcases Option.isSome_iff_exists.mp (AList.lookup_isSome.mpr (hgroups p (by simp))) with
        ⟨inst, hinst⟩
      have hstop := (hreliable p inst hinst).stop (machines.filter fun m => m.provider = p) live
        (filter_provider machines p)
      have hstep : (updateProvider providers false machines live p).Perm
          (live.filter fun m =>
            m.ID ∉ (machines.filter fun m => m.provider = p).map CloudMachine.ID) := by
        simpa [updateProvider, hinst] using hstop
      rw [List.foldl_cons]
      refine ((ih (fun q hq => hgroups q (List.mem_cons_of_mem p hq)) _).trans
        (hstep.filter _)).trans ?_
      rw [List.filter_filter]
      apply List.Perm.of_eq
      apply List.filter_congr
      intro m _
      simp only [List.flatMap_cons, List.map_append, List.mem_append, not_or, Bool.decide_and]
      exact Bool.and_comm _ _

theorem perm_groups (order : IterOrder Provider) (machines : List CloudMachine) :
    ((order.visit (machines.map CloudMachine.provider).dedup).flatMap fun p =>
      machines.filter fun m => m.provider = p).Perm machines := by
  apply perm_flatMap_filter CloudMachine.provider
  · exact (order.perm _).nodup_iff.mpr (List.nodup_dedup _)
  · intro m hm
    rw [IterOrder.mem_visit, List.mem_dedup]
    exact List.mem_map_of_mem hm

theorem available_groups {machines : List CloudMachine}
    (havailable : ∀ m ∈ machines, m.provider ∈ providers) (order : IterOrder Provider) :
    ∀ p ∈ order.visit (machines.map CloudMachine.provider).dedup, p ∈ providers := by
  intro p hp
  rw [IterOrder.mem_visit, List.mem_dedup] at hp
  rcases List.mem_map.mp hp with ⟨m, hm, rfl⟩
  exact havailable m hm

theorem updateCloud_boot (hreliable : ∀ p, ∀ inst ∈ providers.lookup p, inst.Reliable p)
    (order : IterOrder Provider) {requests : List CloudMachine}
    (havailable : ∀ m ∈ requests, m.provider ∈ providers) (live : List CloudMachine) :
    ∃ created, (updateCloud providers order true requests live).Perm (live ++ created) ∧
      (created.map CloudMachine.attributes).Perm (requests.map CloudMachine.attributes) ∧
      Fresh created live := by
  rcases bootGroups_spec hreliable requests (available_groups havailable order) live with
    ⟨created, hlive, hattributes, hfresh⟩
  exact ⟨created, hlive, hattributes.trans ((perm_groups order requests).map _), hfresh⟩

theorem updateCloud_stop (hreliable : ∀ p, ∀ inst ∈ providers.lookup p, inst.Reliable p)
    (order : IterOrder Provider) {machines : List CloudMachine}
    (havailable : ∀ m ∈ machines, m.provider ∈ providers) (live : List CloudMachine) :
    (updateCloud providers order false machines live).Perm
      (live.filter fun m => m.ID ∉ machines.map CloudMachine.ID) := by
  refine (stopGroups_spec hreliable machines (available_groups havailable order) live).trans ?_
  apply List.Perm.of_eq
  apply List.filter_congr
  intro m _
  simp only [((perm_groups order machines).map CloudMachine.ID).mem_iff]

end Calls

/-! ## One iteration -/

theorem compatible_iff {dbm : Machine} {m : CloudMachine} (hfilled : Filled m.attributes) :
    Compatible dbm m ↔ demand dbm = m.attributes := by
  rcases hfilled with ⟨hregion, hsize, hdisk⟩
  simp [Compatible, demand, CloudMachine.attributes, hregion, hsize, hdisk]

theorem demand_cloudWritten {dbm : Machine} {m : CloudMachine}
    (hdemand : demand dbm = m.attributes) : demand (cloudWritten dbm m) = m.attributes := by
  simp only [demand, CloudMachine.attributes, Prod.mk.injEq] at hdemand ⊢
  rcases hdemand with ⟨hprovider, hregion, hsize, hdisk⟩
  simp [cloudWritten, hregion, hsize, hdisk]

/-- What an iteration has done that read `dbMachines` and was given `listing`. -/
structure Passed (clusterID : ℕ) (s : CloudState) (dbMachines : List Machine)
    (listing : List CloudMachine) (first : Pass) : Prop where
  read : dbMachines.Perm (clusterRows clusterID s.db)
  listed : (listing.map CloudMachine.identity).Perm (s.live.map CloudMachine.identity)
  diff : first.diff = syncDB listing dbMachines
  committed : (clusterRows clusterID first.after.db).Perm
    (first.diff.rows ++ (join syncScore dbMachines listing).lonelyLefts)
  live : ∃ created, (first.after.live.map CloudMachine.identity).Perm
      ((first.diff.pairs.map Prod.snd ++ created).map CloudMachine.identity) ∧
    (created.map CloudMachine.attributes).Perm
      (first.diff.bootSet.map CloudMachine.attributes) ∧
    Fresh created s.live

theorem clusterRows_nodup (clusterID : ℕ) (db : Database) :
    ((clusterRows clusterID db).map Machine.ID).Nodup :=
  (List.filter_sublist.map Machine.ID).nodup (db.tables .machine).nodup

theorem clusterRows_commit {clusterID : ℕ} {db after : Database} {dbMachines : List Machine}
    {listing : List CloudMachine} (hread : dbMachines.Perm (clusterRows clusterID db))
    (hcommit : commitAll (t := .machine) (syncDB listing dbMachines).rows db = some after) :
    (clusterRows clusterID after).Perm ((syncDB listing dbMachines).rows ++
      (join syncScore dbMachines listing).lonelyLefts) := by
  set joined := join syncScore dbMachines listing with hjoined
  have hlefts := (join_lefts_perm syncScore dbMachines listing).trans hread
  rw [← hjoined] at hlefts
  have hids : ((joined.pairs.map Prod.fst ++ joined.lonelyLefts).map Machine.ID).Nodup :=
    (hlefts.map Machine.ID).nodup_iff.mpr (clusterRows_nodup clusterID db)
  have hdistinct : ((syncDB listing dbMachines).pairs.map fun pair => pair.1.ID).Nodup := by
    rw [List.map_append, List.map_map] at hids
    exact (List.nodup_append.mp hids).1
  have hwritten : ((syncDB listing dbMachines).rows ++ joined.lonelyLefts).map Machine.ID =
      (joined.pairs.map Prod.fst ++ joined.lonelyLefts).map Machine.ID := by
    simp [Diff.rows, syncDB, ← hjoined, cloudWritten]
  rw [List.perm_ext_iff_of_nodup]
  · intro row
    rw [clusterRows, List.mem_filter, mem_write hdistinct hcommit, List.mem_append]
    constructor
    · rintro ⟨⟨pair, hpair, rfl⟩ | ⟨hrow, hunpaired⟩, hcluster⟩
      · exact .inl (List.mem_map.mpr ⟨pair, hpair, rfl⟩)
      · have hold := hlefts.mem_iff.mpr (List.mem_filter.mpr ⟨hrow, hcluster⟩)
        apply (List.mem_append.mp hold).imp_left
        intro hpaired
        rcases List.mem_map.mp hpaired with ⟨pair, hpair, rfl⟩
        exact absurd (List.mem_map.mpr ⟨pair, hpair, rfl⟩) hunpaired
    · rintro (hrow | hlonely)
      · rcases List.mem_map.mp hrow with ⟨pair, hpair, rfl⟩
        have hold : pair.1 ∈ clusterRows clusterID db :=
          hread.mem_iff.mp (join_pair_left_mem syncScore hpair)
        exact ⟨.inl ⟨pair, hpair, rfl⟩, (List.mem_filter.mp hold).2⟩
      · have hold : row ∈ clusterRows clusterID db :=
          hlefts.mem_iff.mp (List.mem_append_right _ hlonely)
        rcases List.mem_filter.mp hold with ⟨hrow, hcluster⟩
        refine ⟨.inr ⟨hrow, ?_⟩, hcluster⟩
        intro hpaired
        rw [List.map_append, List.map_map, List.nodup_append] at hids
        exact hids.2.2 _ hpaired _ (List.mem_map_of_mem hlonely) rfl
  · exact List.Nodup.of_map _ (clusterRows_nodup clusterID after)
  · exact List.Nodup.of_map Machine.ID (hwritten ▸ hids)

theorem identity_survivors {listing live booted stopped paired lonely created : List CloudMachine}
    (hlisted : (listing.map CloudMachine.identity).Perm (live.map CloudMachine.identity))
    (hsplit : (paired ++ lonely).Perm listing) (hdistinct : (live.map CloudMachine.ID).Nodup)
    (hbooted : booted.Perm (live ++ created)) (hfresh : Fresh created live)
    (hstopped : stopped.Perm (booted.filter fun m => m.ID ∉ lonely.map CloudMachine.ID)) :
    (stopped.map CloudMachine.identity).Perm ((paired ++ created).map CloudMachine.identity) := by
  set kept : CloudMachine → Bool := fun m => m.ID ∉ lonely.map CloudMachine.ID with hkept
  have hid : ∀ machines : List CloudMachine, machines.map CloudMachine.ID =
      (machines.map CloudMachine.identity).map Prod.fst := by
    intro machines
    rw [List.map_map]
    rfl
  have hids : ((paired ++ lonely).map CloudMachine.ID).Perm (live.map CloudMachine.ID) := by
    rw [hid live]
    refine (hsplit.map _).trans ?_
    rw [hid listing]
    exact hlisted.map Prod.fst
  have hnodup := hids.nodup_iff.mpr hdistinct
  rw [List.map_append, List.nodup_append] at hnodup
  have hcreated : created.filter kept = created := by
    apply List.filter_eq_self.mpr
    intro m hm
    simp only [hkept, decide_eq_true_eq]
    intro hlonely
    apply hfresh.unused m hm
    rw [← hids.mem_iff, List.map_append]
    exact List.mem_append_right _ hlonely
  have hpaired : (paired ++ lonely).filter kept = paired := by
    rw [List.filter_append, List.filter_eq_self.mpr, List.filter_eq_nil_iff.mpr, List.append_nil]
    · intro m hm
      simpa [hkept] using ⟨m, hm, rfl⟩
    · intro m hm
      simp only [hkept, decide_eq_true_eq]
      intro hlonely
      exact hnodup.2.2 _ (List.mem_map_of_mem hm) _ hlonely rfl
  -- whether a machine is kept depends on its identity only
  have hfilter : ∀ machines : List CloudMachine,
      (machines.filter kept).map CloudMachine.identity =
        (machines.map CloudMachine.identity).filter fun identity =>
          identity.1 ∉ lonely.map CloudMachine.ID := by
    intro machines
    rw [List.filter_map]
    rfl
  have hlive : ((live.filter kept).map CloudMachine.identity).Perm
      (paired.map CloudMachine.identity) := by
    rw [hfilter live, ← hpaired, hfilter]
    exact (hlisted.symm.trans (hsplit.map _).symm).filter _
  have hall := (hstopped.trans (hbooted.filter _)).map CloudMachine.identity
  rw [List.filter_append, hcreated, List.map_append] at hall
  rw [List.map_append]
  exact hall.trans (hlive.append_right _)

theorem pass_spec {clusterID : ℕ} {turn : Turn} {s : CloudState}
    (hready : Ready clusterID turn s) :
    ∃ listing first dbMachines, get turn.providers s.live = some listing ∧
      pass clusterID turn s listing = some first ∧
      Passed clusterID s dbMachines listing first := by
  rcases get_spec hready.reliable hready.liveAvailable with ⟨listing, hget, hlisted⟩
  set dbMachines := s.db.select .machine turn.rowOrder fun m => m.clusterID == clusterID
    with hdbMachines
  have hread : dbMachines.Perm (clusterRows clusterID s.db) := Table.select_perm _ _ _
  set diff := syncDB listing dbMachines with hdiff
  set joined := join syncScore dbMachines listing with hjoined
  have hstored : ∀ row ∈ diff.rows, row.ID ∈ (s.db.tables .machine).ids := by
    apply Diff.rows_stored
    intro pair hpair
    have hrow := hread.mem_iff.mp (join_pair_left_mem syncScore hpair)
    exact ⟨pair.1, (List.mem_filter.mp hrow).1, rfl⟩
  rcases exists_commitAll (t := .machine) hstored with ⟨after, hcommit⟩
  -- the providers of what is booted or stopped are those of rows and live machines
  have hrequests : ∀ m ∈ diff.bootSet, m.provider ∈ turn.providers := by
    intro m hm
    rcases List.mem_map.mp hm with ⟨row, hrow, rfl⟩
    have hleft := (join_lefts_perm syncScore dbMachines listing).mem_iff.mp
      (List.mem_append_right _ hrow)
    exact hready.rowsAvailable row (hread.mem_iff.mp hleft)
  have hstopped : ∀ m ∈ diff.terminateSet, m.provider ∈ turn.providers := by
    intro m hm
    have hidentity := hlisted.mem_iff.mp
      (List.mem_map_of_mem (join_lonelyRight_mem syncScore hm))
    rcases List.mem_map.mp hidentity with ⟨other, hother, hsame⟩
    simp only [CloudMachine.identity, CloudMachine.attributes, Prod.mk.injEq] at hsame
    exact hsame.2.1 ▸ hready.liveAvailable other hother
  rcases updateCloud_boot hready.reliable turn.bootOrder hrequests s.live with
    ⟨created, hbooted, hattributes, hfresh⟩
  set booted := updateCloud turn.providers turn.bootOrder true diff.bootSet s.live with hboot
  have hstop := updateCloud_stop hready.reliable turn.stopOrder hstopped booted
  set live := updateCloud turn.providers turn.stopOrder false diff.terminateSet booted with hlive
  refine ⟨listing, ⟨diff, ⟨after, live⟩⟩, dbMachines, hget, ?_, ?_⟩
  · simp only [pass, ← hdbMachines, ← hdiff, hcommit, ← hboot, ← hlive]
    rfl
  · have hsplit := join_rights_perm syncScore dbMachines listing
    exact ⟨hread, hlisted, rfl, clusterRows_commit hread hcommit, created,
      identity_survivors hlisted hsplit hready.distinct hbooted hfresh hstop, hattributes, hfresh⟩

end ClusterSync
end Di
