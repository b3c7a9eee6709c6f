import Di.LabelStore

/-!
# Writing the labels again

After a round of `writeStoreLabels` in which every store operation succeeds, the
entries are those of the labels and the marks are right.  If every label with several
containers got its address as well, the only operations of a second round on the same
containers are those of `setSingleIPs`, which compares the address of a container with
that of an entry that is named like the address.

A label is part of the paths of its entry, and `getDirectory` reads the nodes directly
below the directory of the labels.  A label that is no single path element is therefore
never found again, and its entry is made in every round.  The second round leaves the
store alone exactly if there is no such label and the comparisons succeed.
-/

namespace Di
namespace LabelStore

open Db NetworkStore
open NetworkAcl (labelDbcs)

/-! ## The entries after a round -/

theorem mem_writeStoreLabels (w : World) (round : LabelRound) (k : String) :
    k ∈ (writeStoreLabels w round).store ↔ k ∈ round.ids := by
  rcases writeStoreLabels_prepared w round with ⟨dir, single, hprepared, heq⟩
  rw [heq]
  rcases syncIPs_attempts labelPrefix_aligned round.shared (hideSingles dir) single with
    ⟨names, given, hnames, _, hattempted⟩
  have hstored : ∀ name ∈ names, name ∈ single.store := by
    intro name hname
    have hhidden := ((hnames name).mp hname).1
    rw [hprepared.memStore, ← hprepared.memDir]
    exact ((mem_hideSingles _ _).mp hhidden).1
  rw [hattempted.memStore hstored, hprepared.memStore]

/-! ## Reading the store -/

/-- The node of a path that ends with the name is directly below the directory and is listed;
the store hides nodes that begin with an underscore. -/
def IsNode (name : String) : Prop :=
  name ∉ ["", ".", ".."] ∧ '/' ∉ name.toList ∧ name.toList.head? ≠ some '_'

instance : DecidablePred IsNode := fun name =>
  inferInstanceAs (Decidable (name ∉ ["", ".", ".."] ∧ '/' ∉ name.toList ∧
    name.toList.head? ≠ some '_'))

/-- What `getDirectory` returns: it finds nodes only, and all entries if all of them are
nodes. -/
structure Reads (store dir : Directory) : Prop where
  nodes : ∀ k ∈ dir, IsNode k
  complete : (∀ k ∈ store, IsNode k) → ∀ k, dir.lookup k = store.lookup k

theorem Reads.refl {store : Directory} (hnodes : ∀ k ∈ store, IsNode k) : Reads store store :=
  ⟨hnodes, fun _ _ => rfl⟩

/-! ## A round on a store that is up to date -/

/-- The store after a round in which every allocation succeeded, except for the
addresses of the labels with one container. -/
structure Current (round : LabelRound) (dir : Directory) : Prop where
  entries : ∀ k, k ∈ dir ↔ k ∈ round.ids
  marks : ∀ k, hasMark dir k = round.isMH k
  assigned : ∀ k, round.isMH k = true → parseIP (ipOf dir k) labelPrefix ≠ 0

theorem Current.of_lookup {round : LabelRound} {dir store : Directory}
    (hcurrent : Current round store) (hlookup : ∀ k, dir.lookup k = store.lookup k) :
    Current round dir := by
  have hchildren : ∀ k, children dir k = children store k := by
    intro k
    rw [children, hlookup k]
    rfl
  constructor
  · intro k
    rw [← hcurrent.entries k, ← AList.lookup_isSome, ← AList.lookup_isSome, hlookup k]
  · intro k
    rw [← hcurrent.marks k, hasMark, hchildren k]
    rfl
  · intro k hmulti
    rw [ipOf, hchildren k]
    exact hcurrent.assigned k hmulti

theorem makeEntries_of_mem {ids : List String} {dir : Directory}
    (hids : ∀ id ∈ ids, id ∈ dir) (faults : Faults) (i : ℕ) (w : World) :
    makeEntries faults i ids dir w = (dir, w) := by
  induction ids generalizing i with
  | nil => rfl
  | cons id rest ih =>
      rw [List.forall_mem_cons] at hids
      rw [makeEntries, if_pos hids.1]
      exact ih hids.2 (i + 1)

section Current

variable {round : LabelRound} {dir : Directory} (hcurrent : Current round dir) (w : World)
include hcurrent

theorem Current.syncDir : syncDir round.shared round.ids dir w = (dir, w) := by
  have hvisited : (round.keyOrder.visit dir.keys).Nodup :=
    (round.keyOrder.perm dir.keys).nodup_iff.mpr dir.keys_nodup
  unfold NetworkStore.syncDir
  set joined := Join.join keyScore (round.shared.keyOrder.visit dir.keys) round.ids
  have hlefts : joined.lonelyLefts = [] := by
    apply List.eq_nil_iff_forall_not_mem.mpr
    intro k hlonely
    apply not_mem_ids_of_lonely hvisited hlonely
    apply (hcurrent.entries k).mp
    have hkey : k ∈ round.keyOrder.visit dir.keys :=
      (Join.join_lefts_perm keyScore _ _).mem_iff.mp (List.mem_append_right _ hlonely)
    rw [IterOrder.mem_visit] at hkey
    exact hkey
  have hrights : ∀ id ∈ joined.lonelyRights, id ∈ dir := by
    intro id hid
    rw [hcurrent.entries, mem_ids_iff hvisited]
    exact .inr hid
  simp only [hlefts, deleteEntries]
  exact makeEntries_of_mem hrights _ 0 w

omit hcurrent in
theorem markLabels_of_marked (hmarks : ∀ k, hasMark dir k = round.isMH k) (labels : List String) :
    markLabels round labels dir w = (dir, w) := by
  induction labels with
  | nil => rfl
  | cons label rest ih =>
      rw [markLabels_cons, if_pos (hmarks label)]
      exact ih

theorem Current.syncIPs : (syncIPs round.shared labelPrefix (hideSingles dir) w).2 = w := by
  have hnone : ((round.shared.ipOrder.visit (hideSingles dir).keys).filter fun k =>
      parseIP (ipOf (hideSingles dir) k) labelPrefix = 0) = [] := by
    rw [List.filter_eq_nil_iff]
    intro k hk
    rw [IterOrder.mem_visit] at hk
    have hmark : hasMark dir k = true := ((mem_hideSingles _ _).mp hk).2
    rw [decide_eq_true_eq, ipOf, children_hideSingles, if_pos hmark, ← ipOf]
    exact hcurrent.assigned k ((hcurrent.marks k).symm.trans hmark)
  rw [syncIPs_eq, hnone, allocate_nil]

theorem Current.writeLabelDir :
    writeLabelDir dir w round =
      setSingleIPs .none round dir (round.singleOrder.visit round.labels) w := by
  simp only [writeLabelDir_eq, hcurrent.syncDir, markLabels_of_marked _ hcurrent.marks]
  exact hcurrent.syncIPs _

end Current

/-! ## Operations in the history -/

theorem op_history (w : World) (fails : Bool) (effect : Directory → Option Directory) :
    (w.op fails effect).2.history.length = w.history.length + 1 := by
  rcases op_cases w fails effect with hstay | ⟨_, store, _, hmove⟩
  · simp [hstay]
  · simp [hmove]

theorem op_history_le (w : World) (fails : Bool) (effect : Directory → Option Directory) :
    w.history.length ≤ (w.op fails effect).2.history.length := by
  rw [op_history]
  exact Nat.le_succ _

theorem deleteEntries_history_le (faults : Faults) (ids : List String) (dir : Directory)
    (w : World) : w.history.length ≤ (deleteEntries faults ids dir w).2.history.length := by
  induction ids generalizing dir w with
  | nil => exact le_rfl
  | cons id rest ih => exact (op_history_le _ _ _).trans (ih _ _)

theorem mem_of_mem_undeleted {faults : Faults} {ids : List String} {dir : Directory} {w : World}
    {k : String} (hk : k ∈ (deleteEntries faults ids dir w).1) : k ∈ dir := by
  induction ids generalizing dir w with
  | nil => exact hk
  | cons id rest ih => exact (AList.mem_erase.mp (ih hk)).2

theorem makeEntries_history_le (faults : Faults) (i : ℕ) (ids : List String) (dir : Directory)
    (w : World) : w.history.length ≤ (makeEntries faults i ids dir w).2.history.length := by
  induction ids generalizing i dir w with
  | nil => exact le_rfl
  | cons id rest ih =>
      have hop := op_history_le w (faults.mkdir i) (mkdir id)
      rw [makeEntries]
      split
      · exact ih _ _ _
      · split
        next hrefused =>
          rw [hrefused] at hop
          exact hop.trans (ih _ _ _)
        next hmade =>
          rw [hmade] at hop
          exact hop.trans (ih _ _ _)

theorem makeEntries_history_lt (faults : Faults) (i : ℕ) {ids : List String} {dir : Directory}
    {id : String} (hid : id ∈ ids) (hdir : id ∉ dir) (w : World) :
    w.history.length < (makeEntries faults i ids dir w).2.history.length := by
  induction ids generalizing i dir w with
  | nil => cases hid
  | cons other rest ih =>
      have hop := op_history w (faults.mkdir i) (mkdir other)
      rw [makeEntries]
      split
      next hother =>
        have hrest : id ∈ rest := (List.mem_cons.mp hid).resolve_left fun h => hdir (h ▸ hother)
        exact ih _ hrest hdir _
      · split
        next next hrefused =>
          rw [hrefused] at hop
          have hmore := makeEntries_history_le faults (i + 1) rest dir next
          simp only at hop
          omega
        next next hmade =>
          rw [hmade] at hop
          have hmore := makeEntries_history_le faults (i + 1) rest (dir.insert other ∅) next
          simp only at hop
          omega

theorem markLabels_history_le (round : LabelRound) (labels : List String) (dir : Directory)
    (w : World) : w.history.length ≤ (markLabels round labels dir w).2.history.length := by
  induction labels generalizing dir w with
  | nil => exact le_rfl
  | cons label rest ih =>
      rw [markLabels_cons]
      split
      · exact ih _ _
      · split
        · exact (op_history_le _ _ _).trans (ih _ _)
        · exact (op_history_le _ _ _).trans (ih _ _)

theorem setSingleIPs_history_le (round : LabelRound) (dir : Directory) (labels : List String)
    (w : World) : w.history.length ≤ (setSingleIPs .none round dir labels w).history.length := by
  induction labels generalizing w with
  | nil => exact le_rfl
  | cons label rest ih =>
      rw [setSingleIPs, LabelFaults.none_single]
      split
      · split
        · exact ih w
        · exact (op_history_le _ _ _).trans (ih _)
      · exact ih w

theorem allocate_history_le (faults : Faults) (prefixIP : ℕ) (names : List String)
    (ipSet : Finset ℕ) (draws : List ℕ) (dir : Directory) (w : World) :
    w.history.length ≤ (allocate faults prefixIP names ipSet draws dir w).2.history.length := by
  induction names generalizing ipSet draws dir w with
  | nil => exact le_rfl
  | cons k rest ih =>
      rw [allocate_cons]
      dsimp only
      split
      · exact (op_history_le _ _ _).trans (ih _ _ _ _)
      · have hop := op_history_le w (faults.ip k)
          (setKey k "IP" (GoNet.ipString (randomIP ipSet prefixIP 256 draws).1))
        split
        next hrefused =>
          rw [hrefused] at hop
          exact hop.trans (ih _ _ _ _)
        next hset =>
          rw [hset] at hop
          exact hop.trans (ih _ _ _ _)

/-- A label that is not read is made again. -/
theorem writeLabelDir_history_lt {round : LabelRound} {dir : Directory} {label : String}
    (hlabel : label ∈ round.ids) (hdir : label ∉ dir) (w : World) :
    w.history.length < (writeLabelDir dir w round).history.length := by
  have hvisited : (round.keyOrder.visit dir.keys).Nodup :=
    (round.keyOrder.perm dir.keys).nodup_iff.mpr dir.keys_nodup
  have hsynced : w.history.length <
      (syncDir round.shared round.ids dir w).2.history.length := by
    unfold NetworkStore.syncDir
    dsimp only
    set joined := Join.join keyScore (round.shared.keyOrder.visit dir.keys) round.ids
    have hright : label ∈ joined.lonelyRights := by
      apply ((mem_ids_iff hvisited label).mp hlabel).resolve_left
      intro hleft
      have hkey := hleft.1
      rw [IterOrder.mem_visit] at hkey
      exact hdir hkey
    exact (deleteEntries_history_le _ _ _ _).trans_lt
      (makeEntries_history_lt _ 0 hright (mt mem_of_mem_undeleted hdir) _)
  exact hsynced.trans_le (((markLabels_history_le _ _ _ _).trans
    (setSingleIPs_history_le _ _ _ _)).trans (allocate_history_le _ _ _ _ _ _ _))

theorem setSingleIPs_history_iff (round : LabelRound) (dir : Directory) (labels : List String)
    (w : World) :
    (setSingleIPs .none round dir labels w).history = w.history ↔
      ∀ label ∈ labels, ∀ dbc, labelDbcs round.containers label = [dbc] →
        dbc.ip = "" ∨ ipOf dir dbc.ip = dbc.ip := by
  induction labels generalizing w with
  | nil => simp [setSingleIPs]
  | cons label rest ih =>
      rw [List.forall_mem_cons]
      rw [setSingleIPs, LabelFaults.none_single]
      split
      next dbc hsingle =>
        by_cases hskips : dbc.ip = "" ∨ ipOf dir dbc.ip = dbc.ip
        · rw [if_pos hskips, ih w]
          refine (and_iff_right ?_).symm
          intro found hfound
          rw [hsingle, List.singleton_inj] at hfound
          exact hfound ▸ hskips
        · rw [if_neg hskips]
          -- the operation is in the history for good
          refine iff_of_false ?_ fun hall => hskips (hall.1 dbc hsingle)
          intro hsame
          have hlonger := setSingleIPs_history_le round dir rest
            (w.op false (setKey label "IP" dbc.ip)).2
          rw [hsame, op_history] at hlonger
          omega
      next hseveral =>
        rw [ih w]
        refine (and_iff_right ?_).symm
        intro dbc hsingle
        exact absurd hsingle (hseveral dbc)

/-! ## Two rounds -/

theorem writeStoreLabels_current {w : World} {round : LabelRound}
    (hassigned : ∀ label, round.isMH label = true →
      parseIP (ipOf (writeStoreLabels w round).store label) labelPrefix ≠ 0) :
    Current round (writeStoreLabels w round).store :=
  ⟨mem_writeStoreLabels w round, (writeStoreLabels_written w round).marks, hassigned⟩

theorem Current.of_containers {first second : LabelRound} {store : Directory}
    (hsame : second.containers = first.containers) (hcurrent : Current first store) :
    Current second store := by
  have hids : second.ids = first.ids := by
    rw [LabelRound.ids, hsame]
    rfl
  have hmulti : ∀ k, second.isMH k = first.isMH k := by
    intro k
    rw [LabelRound.isMH, hsame]
    rfl
  constructor
  · intro k
    rw [hids]
    exact hcurrent.entries k
  · intro k
    rw [hmulti]
    exact hcurrent.marks k
  · intro k
    rw [hmulti]
    exact hcurrent.assigned k

/-- After a round in which no allocation is exhausted, a second round on the same
containers performs no operation exactly if every label is a single path element and, for
every label with one container, the container has no address or the entry named like this
address has it. -/
theorem writeStoreLabels_quiet_iff {w : World} {first second : LabelRound} {dir : Directory}
    (hsame : second.containers = first.containers)
    (hassigned : ∀ label, first.isMH label = true →
      parseIP (ipOf (writeStoreLabels w first).store label) labelPrefix ≠ 0)
    (hreads : Reads (writeStoreLabels w first).store dir) :
    (writeLabelDir dir (writeStoreLabels w first) second).history =
        (writeStoreLabels w first).history ↔
      (∀ label ∈ first.ids, IsNode label) ∧
        ∀ label ∈ first.ids, ∀ dbc, labelDbcs first.containers label = [dbc] →
          dbc.ip = "" ∨ ipOf dir dbc.ip = dbc.ip := by
  have hids : second.ids = first.ids := by
    rw [LabelRound.ids, hsame]
    rfl
  by_cases hnodes : ∀ label ∈ first.ids, IsNode label
  · have hstored := hreads.complete fun k hk => hnodes k ((mem_writeStoreLabels w first k).mp hk)
    have hcurrent := ((writeStoreLabels_current hassigned).of_containers hsame).of_lookup hstored
    rw [hcurrent.writeLabelDir, setSingleIPs_history_iff, and_iff_right hnodes]
    simp only [mem_visit_labels, hids, hsame]
  · refine iff_of_false ?_ fun hquiet => hnodes hquiet.1
    intro hquiet
    rcases not_forall₂.mp hnodes with ⟨label, hlabel, hnode⟩
    have hlonger := writeLabelDir_history_lt (hids ▸ hlabel) (mt (hreads.nodes label) hnode)
      (writeStoreLabels w first)
    rw [hquiet] at hlonger
    exact absurd hlonger (lt_irrefl _)

/-- Label "web" has one container and "db" has two. -/
def webAndDb : LabelRound where
  containers :=
    [{ ID := 1, ip := "10.0.0.5", labels := ["web", "db"] },
     { ID := 2, ip := "10.0.0.6", labels := ["db"] }]
  draws := [7]
  keyOrder := .asStored _
  markOrder := .asStored _
  singleOrder := .asStored _
  ipOrder := .asStored _

theorem writeStoreLabels_quiet_iff_webAndDb :
    webAndDb.isMH "db" = true ∧
      ((writeStoreLabels (writeStoreLabels initial webAndDb) webAndDb).history =
          (writeStoreLabels initial webAndDb).history ↔
        (∀ label ∈ webAndDb.ids, IsNode label) ∧
          ∀ label ∈ webAndDb.ids, ∀ dbc, labelDbcs webAndDb.containers label = [dbc] →
            dbc.ip = "" ∨ ipOf (writeStoreLabels initial webAndDb).store dbc.ip = dbc.ip) := by
  have hassigned : ∀ label ∈ webAndDb.ids, webAndDb.isMH label = true →
      parseIP (ipOf (writeStoreLabels initial webAndDb).store label) labelPrefix ≠ 0 := by
    decide
  have hnodes : ∀ label ∈ webAndDb.ids, IsNode label := by decide
  exact ⟨rfl, writeStoreLabels_quiet_iff rfl
    (fun label hmulti => hassigned label (mem_ids_of_isMH hmulti) hmulti)
    (.refl fun k hk => hnodes k ((mem_writeStoreLabels initial webAndDb k).mp hk))⟩

/-- The second round sets the address of "web" to what it is. -/
theorem webAndDb_rewritten :
    let once := writeStoreLabels initial webAndDb
    let twice := writeStoreLabels once webAndDb
    ipOf once.store "web" = "10.0.0.5" ∧ ipOf once.store "db" = "10.1.0.7" ∧
      twice.history.length = once.history.length + 1 := by
  decide

end LabelStore
end Di
