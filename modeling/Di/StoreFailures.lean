import Di.LabelStore

/-!
# A failing store

The leader works on copies of two directories of the consensus store while any of its
store operations may fail without effect.  An assignment to a key of an entry that
is not in the copy panics, since the map of such an entry is `nil`.  Here the functions
run with writes that check for it.  Writing the containers never runs into the panic.
Writing the labels does exactly if a label with several containers has no directory in
the store and every attempt to make one fails.
-/

namespace Di
namespace StoreFailures

open Db NetworkStore LabelStore
open NetworkAcl (labelDbcs)

theorem assign_of_mem {dir : Directory} {name : String} (hname : name ∈ dir) (key value : String) :
    Writes.checked.assign dir name key value =
      some (dir.insert name ((children dir name).insert key value)) := if_pos hname

theorem unassign_of_mem {dir : Directory} {name : String} (hname : name ∈ dir) (key : String) :
    Writes.checked.unassign dir name key = dir.insert name ((children dir name).erase key) :=
  if_pos hname

/-! ## Addresses and container labels -/

/-- `writeStoreContainers` with its panics. -/
def writeStoreContainersChecked (marshal : List String → String) (w : World) (round : Round) :
    Option World := writeStoreContainersM .checked marshal w round

theorem mem_insert_of_mem {dir : Directory} {name k : String} (kids : Children)
    (hname : name ∈ dir) : name ∈ dir.insert k kids :=
  (AList.mem_insert dir).mpr (.inr hname)

/-- The allocator assigns to entries of its copy only. -/
theorem allocateM_checked (faults : Faults) (prefixIP : ℕ) {names : List String}
    {dir : Directory} (hnames : ∀ k ∈ names, k ∈ dir) (ipSet : Finset ℕ) (draws : List ℕ)
    (w : World) :
    allocateM .checked faults prefixIP names ipSet draws dir w =
      some (allocate faults prefixIP names ipSet draws dir w) := by
  induction names generalizing ipSet draws dir w with
  | nil => rfl
  | cons k rest ih =>
      rw [List.forall_mem_cons] at hnames
      have hrest : ∀ kids, ∀ name ∈ rest, name ∈ dir.insert k kids :=
        fun kids name hname => mem_insert_of_mem kids (hnames.2 name hname)
      rw [allocateM, allocate_cons]
      dsimp only
      by_cases hexhausted : (randomIP ipSet prefixIP 256 draws).1 = 0
      · rw [if_pos hexhausted, if_pos hexhausted, unassign_of_mem hnames.1, ih (hrest _)]
      · rw [if_neg hexhausted, if_neg hexhausted]
        rcases w.op (faults.ip k)
          (setKey k "IP" (GoNet.ipString (randomIP ipSet prefixIP 256 draws).1)) with ⟨ok, next⟩
        cases ok with
        | false => exact ih hnames.2 _ _ _
        | true =>
            change (Writes.checked.assign dir k "IP" _).bind _ = _
            rw [assign_of_mem hnames.1, Option.bind_some, ih (hrest _)]

theorem syncIPsM_checked (round : Round) (prefixIP : ℕ) (dir : Directory) (w : World) :
    syncIPsM .checked round prefixIP dir w = some (syncIPs round prefixIP dir w) := by
  apply allocateM_checked
  intro k hk
  exact (round.ipOrder.mem_visit).mp (List.mem_filter.mp hk).1

theorem writeLabelsM_checked (marshal : List String → String) (round : Round)
    {names : List String} {dir : Directory} (hnames : ∀ k ∈ names, k ∈ dir) (w : World) :
    writeLabelsM .checked marshal round names dir w =
      some (writeLabels marshal round names dir w) := by
  induction names generalizing dir w with
  | nil => rfl
  | cons id rest ih =>
      rw [List.forall_mem_cons] at hnames
      rw [writeLabelsM, writeLabels_cons]
      dsimp only
      split
      · exact ih hnames.2 w
      · rcases w.op (round.faults.labels id) (setKey id "Labels"
          (marshal (sortStrings (labelsFor round.containers id)))) with ⟨ok, next⟩
        cases ok with
        | false => exact ih hnames.2 next
        | true =>
            change (Writes.checked.assign dir id "Labels" _).bind _ = _
            rw [assign_of_mem hnames.1, Option.bind_some]
            exact ih (fun name hname => mem_insert_of_mem _ (hnames.2 name hname)) next

theorem writeStoreContainersChecked_eq (marshal : List String → String) (w : World)
    (round : Round) :
    writeStoreContainersChecked marshal w round = some (writeStoreContainers marshal w round) := by
  rw [writeStoreContainersChecked, writeStoreContainersM, writeStoreContainers_eq]
  dsimp only
  rcases (w.op true some).2.op round.faults.getTree some with ⟨ok, next⟩
  cases ok with
  | false => rfl
  | true =>
      change (syncIPsM .checked round containerPrefix _ _).bind _ = _
      rw [syncIPsM_checked, Option.bind_some]
      apply writeLabelsM_checked
      intro k hk
      exact (round.labelOrder.mem_visit).mp hk

/-! ## Labels -/

structure FaultyRound extends LabelRound where
  faults : LabelFaults

/-- The labels that `syncDir` makes directories for, in order and with repetitions. -/
def FaultyRound.missing (round : FaultyRound) (store : Directory) : List String :=
  (Join.join keyScore (round.keyOrder.visit store.keys) round.ids).lonelyRights

/-- The attempt at position `i` counts the earlier ones for the same label. -/
def mkdirAt (mkdir : String → ℕ → Bool) (names : List String) (i : ℕ) : Bool :=
  match names[i]? with
  | some name => mkdir name ((names.take i).count name)
  | none => false

def FaultyRound.shared (round : FaultyRound) (store : Directory) : Round :=
  { round.toLabelRound.shared with
    faults :=
      { getTree := round.faults.getTree
        delete := round.faults.delete
        mkdir := mkdirAt round.faults.mkdir (round.missing store)
        ip := round.faults.ip
        labels := fun _ => false } }

/-- `writeStoreLabels` with its panics and with operations that may fail. -/
def writeStoreLabelsChecked (w : World) (round : FaultyRound) : Option World :=
  if round.faults.getTree then some w
  else
    writeLabelDirM .checked round.faults (round.shared w.store) round.toLabelRound w.store w

/-- What follows the marks never panics. -/
def afterMarks (round : FaultyRound) (store : Directory) (marked : Directory × World) : World :=
  (syncIPs (round.shared store) labelPrefix (hideSingles marked.1)
    (setSingleIPs round.faults round.toLabelRound marked.1
      (round.singleOrder.visit round.labels) marked.2)).2

theorem writeStoreLabelsChecked_eq {round : FaultyRound} (hread : round.faults.getTree = false)
    (w : World) :
    writeStoreLabelsChecked w round =
      (markLabelsM .checked round.faults round.toLabelRound
        (round.markOrder.visit round.labels)
        (syncDir (round.shared w.store) round.ids w.store w).1
        (syncDir (round.shared w.store) round.ids w.store w).2).map
          (afterMarks round w.store) := by
  have hread : ¬round.faults.getTree = true := by simp [hread]
  rw [writeStoreLabelsChecked, if_neg hread, Option.map_eq_bind, writeLabelDirM]
  dsimp only
  congr 1
  funext marked
  rw [syncIPsM_checked]
  rfl

/-! ## A store that works -/

theorem mkdirAt_none (names : List String) :
    mkdirAt LabelFaults.none.mkdir names = Faults.none.mkdir := by
  funext i
  unfold mkdirAt
  split
  · rfl
  · rfl

theorem shared_none (round : LabelRound) (store : Directory) :
    FaultyRound.shared ⟨round, LabelFaults.none⟩ store = round.shared := by
  rw [FaultyRound.shared, mkdirAt_none]
  rfl

theorem markLabelsM_checked (round : LabelRound) {labels : List String} {dir : Directory}
    (hlabels : ∀ label ∈ labels, label ∈ dir) (w : World) :
    markLabelsM .checked .none round labels dir w =
      some (markLabels round labels dir w) := by
  induction labels generalizing dir w with
  | nil => rfl
  | cons label rest ih =>
      rw [List.forall_mem_cons] at hlabels
      have hrest : ∀ kids, ∀ name ∈ rest, name ∈ dir.insert label kids :=
        fun kids name hname => mem_insert_of_mem kids (hlabels.2 name hname)
      rw [markLabelsM, markLabels_cons]
      split
      · exact ih hlabels.2 w
      · split
        · rw [assign_of_mem hlabels.1, Option.bind_eq_bind, Option.bind_some]
          exact ih (hrest _) _
        · rw [unassign_of_mem hlabels.1]
          exact ih (hrest _) _

/-- Without failures this is the function of the previous module. -/
theorem writeStoreLabelsChecked_none (w : World) (round : LabelRound) :
    writeStoreLabelsChecked w ⟨round, LabelFaults.none⟩ = some (writeStoreLabels w round) := by
  have hmade : ∀ label ∈ round.markOrder.visit round.labels,
      label ∈ (syncDir round.shared round.ids w.store w).1 := by
    intro label hlabel
    exact (mem_syncDir round w label).mpr ((mem_visit_labels round _ label).mp hlabel)
  rw [writeStoreLabelsChecked_eq rfl, shared_none, markLabelsM_checked round hmade,
    Option.map_some, afterMarks, shared_none]
  rfl

/-! ## The entries that are missing -/

theorem mem_of_mem_deleteEntries {faults : Faults} {names : List String} {dir : Directory}
    {w : World} {k : String} (hk : k ∈ (deleteEntries faults names dir w).2.store) :
    k ∈ w.store := by
  induction names generalizing dir w with
  | nil => exact hk
  | cons id rest ih =>
      have hnext := ih hk
      rcases op_cases w (faults.delete id) (delete id) with
        hstay | ⟨_, store, hdelete, hmove⟩
      · rwa [hstay] at hnext
      · rw [hmove] at hnext
        unfold delete at hdelete
        split at hdelete
        · rw [← Option.some.inj hdelete] at hnext
          exact (AList.mem_erase.mp hnext).2
        · contradiction

/-- The positions of an element are numbered by the occurrences before them. -/
theorem exists_occurrence_iff (names : List String) (k : String) (fails : ℕ → Bool) :
    (∃ j, names[j]? = some k ∧ fails ((names.take j).count k) = false) ↔
      ∃ n < names.count k, fails n = false := by
  induction names generalizing fails with
  | nil => simp
  | cons name rest ih =>
      rw [← Nat.or_exists_add_one]
      by_cases hname : name = k
      · subst hname
        have hrest := ih fun n => fails (n + 1)
        simp only [List.getElem?_cons_zero, List.take_zero, List.count_nil, true_and,
          List.getElem?_cons_succ, List.take_succ_cons, List.count_cons_self, hrest]
        rw [← Nat.or_exists_add_one (p := fun n => n < rest.count name + 1 ∧ fails n = false)]
        simp
      · have hrest := ih fails
        simpa [List.count_cons_of_ne hname, hname] using hrest

theorem count_missing (round : FaultyRound) {store : Directory} {label : String}
    (hlabel : label ∉ store) :
    (round.missing store).count label = round.ids.count label := by
  have hrights := (Join.join_rights_perm keyScore (round.keyOrder.visit store.keys)
    round.ids).count_eq label
  rw [List.count_append] at hrights
  have hpaired : ((Join.join keyScore (round.keyOrder.visit store.keys)
      round.ids).pairs.map Prod.snd).count label = 0 := by
    rw [List.count_eq_zero]
    intro hmem
    rcases List.mem_map.mp hmem with ⟨pair, hpair, hright⟩
    have hequal := keyScore_pair_eq hpair
    have hleft := Join.join_pair_left_mem keyScore hpair
    rw [hequal, hright, IterOrder.mem_visit] at hleft
    exact hlabel hleft
  rw [FaultyRound.missing]
  omega

/-- A label has a directory after `syncDir` if it had one or one attempt to make it works. -/
theorem mem_syncDir_faulty (round : FaultyRound) (w : World) {label : String}
    (hlabel : label ∈ round.ids) :
    label ∈ (syncDir (round.shared w.store) round.ids w.store w).1 ↔
      label ∈ w.store ∨ ∃ n < round.ids.count label, round.faults.mkdir label n = false := by
  have hvisited : (round.keyOrder.visit w.store.keys).Nodup :=
    (round.keyOrder.perm w.store.keys).nodup_iff.mpr w.store.keys_nodup
  have hstays : ∀ name ∈ round.ids, name ∉ (Join.join keyScore
      (round.keyOrder.visit w.store.keys) round.ids).lonelyLefts :=
    fun name hname hlonely => not_mem_ids_of_lonely hvisited hlonely hname
  have hcopy : ∀ name ∈ round.missing w.store,
      name ∈ (deleteEntries (round.shared w.store).faults (Join.join keyScore
        (round.keyOrder.visit w.store.keys) round.ids).lonelyLefts w.store w).2.store →
      name ∈ (deleteEntries (round.shared w.store).faults (Join.join keyScore
        (round.keyOrder.visit w.store.keys) round.ids).lonelyLefts w.store w).1 := by
    intro name hmissing hstored
    rw [mem_deleteEntries]
    exact ⟨mem_of_mem_deleteEntries hstored,
      hstays name (Join.join_lonelyRight_mem keyScore hmissing)⟩
  refine (mem_makeEntries _ 0 hcopy label).trans ?_
  rw [mem_deleteEntries, and_iff_left (hstays label hlabel)]
  by_cases hstored : label ∈ w.store
  · simp [hstored]
  · rw [← count_missing round hstored, ← exists_occurrence_iff]
    simp only [Nat.zero_add]
    apply or_congr_right
    apply exists_congr
    intro j
    apply and_congr_right
    intro hj
    change mkdirAt round.faults.mkdir (round.missing w.store) j = false ↔ _
    rw [mkdirAt, hj]

/-! ## The panic -/

/-- A mark panics exactly if it is given to a label without directory. -/
theorem markLabelsM_isSome (faults : LabelFaults) (round : LabelRound) (labels : List String)
    (dir : Directory) (w : World) :
    (markLabelsM .checked faults round labels dir w).isSome ↔
      ∀ label ∈ labels, round.isMH label → label ∈ dir := by
  induction labels generalizing dir w with
  | nil => simp [markLabelsM]
  | cons label rest ih =>
      rw [markLabelsM, List.forall_mem_cons]
      by_cases hmark : hasMark dir label = round.isMH label
      · rw [if_pos hmark, ih]
        have hhead : round.isMH label → label ∈ dir := by
          intro hMH
          exact mem_of_hasMark (hmark.trans hMH)
        exact (and_iff_right hhead).symm
      · rw [if_neg hmark]
        by_cases hMH : round.isMH label = true
        · rw [if_pos hMH]
          by_cases hmem : label ∈ dir
          · rw [assign_of_mem hmem, Option.bind_eq_bind, Option.bind_some, ih]
            simp only [mem_insert_iff_of_mem hmem]
            exact (and_iff_right fun _ => hmem).symm
          · simp [Writes.checked, hmem, hMH]
        · have hmarked : hasMark dir label = true := by
            cases hcase : hasMark dir label <;> simp_all
          have hmem := mem_of_hasMark hmarked
          rw [if_neg hMH, unassign_of_mem hmem, ih]
          simp only [mem_insert_iff_of_mem hmem]
          exact (and_iff_right fun hother => absurd hother hMH).symm

theorem writeStoreLabelsChecked_isSome (w : World) (round : FaultyRound) :
    (writeStoreLabelsChecked w round).isSome ↔
      round.faults.getTree = true ∨
        ∀ label, 1 < (labelDbcs round.containers label).length →
          label ∈ w.store ∨
            ∃ n < round.ids.count label, round.faults.mkdir label n = false := by
  cases hread : round.faults.getTree with
  | true => simp [writeStoreLabelsChecked, hread]
  | false =>
      rw [writeStoreLabelsChecked_eq hread, Option.isSome_map, markLabelsM_isSome]
      simp only [Bool.false_eq_true, false_or]
      constructor
      · intro hmarks label hseveral
        have hMH : round.isMH label = true := decide_eq_true hseveral
        have hids := mem_ids_of_isMH hMH
        exact (mem_syncDir_faulty round w hids).mp
          (hmarks label ((mem_visit_labels round.toLabelRound _ label).mpr hids) hMH)
      · intro hmade label _ hMH
        exact (mem_syncDir_faulty round w (mem_ids_of_isMH hMH)).mpr
          (hmade label (of_decide_eq_true hMH))

/-- The leader survives a failing store exactly if it could not read the labels, or every
label of several containers has a directory or gets one. -/
theorem leader_survives_iff (marshal : List String → String) (containerWorld labelWorld : World)
    (round : Round) (labelRound : FaultyRound) :
    ((writeStoreContainersChecked marshal containerWorld round).isSome ∧
        (writeStoreLabelsChecked labelWorld labelRound).isSome) ↔
      labelRound.faults.getTree = true ∨
        ∀ label, 1 < (labelDbcs labelRound.containers label).length →
          label ∈ labelWorld.store ∨
            ∃ n < labelRound.ids.count label, labelRound.faults.mkdir label n = false := by
  rw [writeStoreContainersChecked_eq, writeStoreLabelsChecked_isSome, Option.isSome_some]
  exact and_iff_right rfl

/-- Two containers of one label; its directory can not be made. -/
def unmadeLabel : FaultyRound where
  containers := [{ ID := 1, labels := ["web"] }, { ID := 2, labels := ["web"] }]
  draws := []
  keyOrder := .asStored _
  markOrder := .asStored _
  singleOrder := .asStored _
  ipOrder := .asStored _
  faults := { LabelFaults.none with mkdir := fun _ _ => true }

theorem unmadeLabel_panics : writeStoreLabelsChecked ⟨∅, []⟩ unmadeLabel = none := by
  decide

end StoreFailures
end Di
