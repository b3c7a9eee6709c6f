import Di.AddressSync
import Di.NetworkAcl

/-!
# Label addresses in the consensus store

The leader also keeps one directory per label.  A label with several containers
is marked by a `MultiHost` key and has an address of its own in 10.1.0.0/16; a
label with one container has the address of that container, as soon as it has
one.  Addresses are handed out so that they differ from those of the labels
that are marked in the same round.

A label that loses its mark while its only container has no address yet keeps
its old address in the store, where the allocator does not see it.  The main
theorem says when this matters: the addresses of the marked labels stay distinct
as long as no label is marked again with an address that another one holds.
All operations on the store succeed.
-/

namespace Di
namespace LabelStore

open Db NetworkStore
open NetworkAcl (labelDbcs)

structure LabelRound where
  containers : List Container
  /-- What `rand32` returns during the round. -/
  draws : List ℕ
  keyOrder : IterOrder String
  markOrder : IterOrder String
  singleOrder : IterOrder String
  ipOrder : IterOrder String

/-- The arguments of the functions that both directories share. -/
def LabelRound.shared (round : LabelRound) : Round where
  containers := round.containers
  faults := Faults.none
  draws := round.draws
  keyOrder := round.keyOrder
  ipOrder := round.ipOrder
  labelOrder := .asStored _

def LabelRound.ids (round : LabelRound) : List String :=
  round.containers.flatMap Container.labels

/-- The keys of `labelMap`. -/
def LabelRound.labels (round : LabelRound) : List String := round.ids.dedup

def LabelRound.isMH (round : LabelRound) (label : String) : Bool :=
  1 < (labelDbcs round.containers label).length

def hasMark (dir : Directory) (label : String) : Bool := "MultiHost" ∈ children dir label

/-- Which operations of a label round fail. -/
structure LabelFaults where
  getTree : Bool
  delete : String → Bool
  /-- Whether the attempt of that number to make the directory of the label fails. -/
  mkdir : String → ℕ → Bool
  mark : String → Bool
  single : String → Bool
  ip : String → Bool

def LabelFaults.none : LabelFaults :=
  ⟨false, fun _ => false, fun _ _ => false, fun _ => false, fun _ => false, fun _ => false⟩

theorem LabelFaults.none_single (label : String) : LabelFaults.none.single label = false := rfl

/-- `dir` is changed before the store is, and stays changed if that fails. -/
def markLabelsM {m : Type → Type} [Monad m] (writes : Writes m) (faults : LabelFaults)
    (round : LabelRound) : List String → Directory → World → m (Directory × World)
  | [], dir, w => pure (dir, w)
  | label :: rest, dir, w =>
      if hasMark dir label = round.isMH label then markLabelsM writes faults round rest dir w
      else if round.isMH label then do
        let dir ← writes.assign dir label "MultiHost" "true"
        markLabelsM writes faults round rest dir
          (w.op (faults.mark label) (setKey label "MultiHost" "true")).2
      else
        markLabelsM writes faults round rest (writes.unassign dir label "MultiHost")
          (w.op (faults.mark label) (deleteKey label "MultiHost")).2

/-- The comparison looks up an entry by the address instead of the label. -/
def setSingleIPs (faults : LabelFaults) (round : LabelRound) (dir : Directory) :
    List String → World → World
  | [], w => w
  | label :: rest, w =>
      match labelDbcs round.containers label with
      | [dbc] =>
          if dbc.ip = "" ∨ ipOf dir dbc.ip = dbc.ip then setSingleIPs faults round dir rest w
          else
            setSingleIPs faults round dir rest
              (w.op (faults.single label) (setKey label "IP" dbc.ip)).2
      | _ => setSingleIPs faults round dir rest w

def hideSingles (dir : Directory) : Directory :=
  (dir.keys.filter fun label => !hasMark dir label).foldl (fun rest label => rest.erase label) dir

/-- The prefix 10.1.0.0. -/
def labelPrefix : ℕ := 10 * 2 ^ 24 + 2 ^ 16

theorem labelPrefix_aligned : labelPrefix % 2 ^ 16 = 0 := rfl

/-- `writeStoreLabels` after it has read `dir`; `shared` are the arguments of the functions
that both directories share. -/
def writeLabelDirM {m : Type → Type} [Monad m] (writes : Writes m) (faults : LabelFaults)
    (shared : Round) (round : LabelRound) (dir : Directory) (w : World) : m World := do
  let synced := syncDir shared round.ids dir w
  let marked ← markLabelsM writes faults round (round.markOrder.visit round.labels)
    synced.1 synced.2
  let w := setSingleIPs faults round marked.1 (round.singleOrder.visit round.labels) marked.2
  let addressed ← syncIPsM writes shared labelPrefix (hideSingles marked.1) w
  pure addressed.2

/-- `syncDir` has made an entry for every label that is marked here. -/
def markLabels (round : LabelRound) (labels : List String) (dir : Directory) (w : World) :
    Directory × World :=
  Id.run (markLabelsM .direct .none round labels dir w)

/-- The round on a store that works and from which `dir` has been read. -/
def writeLabelDir (dir : Directory) (w : World) (round : LabelRound) : World :=
  Id.run (writeLabelDirM .direct .none round.shared round dir w)

def writeStoreLabels (w : World) (round : LabelRound) : World := writeLabelDir w.store w round

theorem markLabels_nil (round : LabelRound) (dir : Directory) (w : World) :
    markLabels round [] dir w = (dir, w) := rfl

theorem markLabels_cons (round : LabelRound) (label : String) (rest : List String)
    (dir : Directory) (w : World) :
    markLabels round (label :: rest) dir w =
      if hasMark dir label = round.isMH label then markLabels round rest dir w
      else if round.isMH label then
        markLabels round rest
          (dir.insert label ((children dir label).insert "MultiHost" "true"))
          (w.op false (setKey label "MultiHost" "true")).2
      else
        markLabels round rest
          (dir.insert label ((children dir label).erase "MultiHost"))
          (w.op false (deleteKey label "MultiHost")).2 := rfl

theorem writeLabelDir_eq (dir : Directory) (w : World) (round : LabelRound) :
    writeLabelDir dir w round =
      let synced := syncDir round.shared round.ids dir w
      let marked := markLabels round (round.markOrder.visit round.labels) synced.1 synced.2
      let w := setSingleIPs .none round marked.1 (round.singleOrder.visit round.labels) marked.2
      (syncIPs round.shared labelPrefix (hideSingles marked.1) w).2 := rfl

/-! ## Operations that succeed -/

theorem op_store (w : World) (effect : Directory → Option Directory) :
    (w.op false effect).2.store = (effect w.store).getD w.store := by
  unfold World.op
  cases effect w.store <;> simp

theorem op_setKey_store (w : World) (name key value : String) :
    (w.op false (setKey name key value)).2.store =
      w.store.insert name ((children w.store name).insert key value) := by
  rw [op_store]
  rfl

theorem op_delete_store (w : World) (name : String) :
    (w.op false (delete name)).2.store = w.store.erase name := by
  rw [op_store, delete]
  split
  · rfl
  next hname => exact (erase_of_not_mem hname).symm

theorem children_erase (dir : Directory) (name k : String) :
    children (dir.erase name) k = if k = name then ∅ else children dir k := by
  unfold children
  by_cases hk : k = name
  · subst hk
    simp
  · simp [hk]

theorem mem_of_hasMark {dir : Directory} {label : String} (hmark : hasMark dir label = true) :
    label ∈ dir := by
  by_contra hlabel
  rw [hasMark, children_of_not_mem hlabel] at hmark
  simp at hmark

/-! ## The entries of a round -/

theorem children_foldl_erase (names : List String) (dir : Directory) (k : String) :
    children (names.foldl (fun rest name => rest.erase name) dir) k =
      if k ∈ names then ∅ else children dir k := by
  induction names generalizing dir with
  | nil => simp
  | cons name names ih =>
      rw [List.foldl_cons, ih, children_erase]
      by_cases hk : k = name
      · simp [hk]
      · simp [hk]

theorem deleteEntries_exact (names : List String) (w : World) :
    (deleteEntries Faults.none names w.store w).1 =
        names.foldl (fun rest name => rest.erase name) w.store ∧
      (deleteEntries Faults.none names w.store w).2.store =
        names.foldl (fun rest name => rest.erase name) w.store := by
  induction names generalizing w with
  | nil => simp [deleteEntries]
  | cons id rest ih =>
      have hnext := ih (w.op (Faults.none.delete id) (delete id)).2
      have hstore : (w.op (Faults.none.delete id) (delete id)).2.store = w.store.erase id :=
        op_delete_store w id
      rw [hstore] at hnext
      exact hnext

theorem makeEntries_exact (i : ℕ) (ids : List String) (w : World) :
    (makeEntries Faults.none i ids w.store w).1 =
        (makeEntries Faults.none i ids w.store w).2.store ∧
      ∀ k, children (makeEntries Faults.none i ids w.store w).1 k = children w.store k := by
  induction ids generalizing i w with
  | nil => simp [makeEntries]
  | cons id rest ih =>
      rw [makeEntries]
      by_cases hmem : id ∈ w.store
      · rw [if_pos hmem]
        exact ih (i + 1) w
      · rw [if_neg hmem]
        have hmade : w.op (Faults.none.mkdir i) (mkdir id) =
            (true, ⟨w.store.insert id ∅, w.history ++ [w.store.insert id ∅]⟩) := by
          simp [World.op, Faults.none, mkdir, hmem]
        rw [hmade]
        rcases ih (i + 1) ⟨w.store.insert id ∅, w.history ++ [w.store.insert id ∅]⟩ with
          ⟨hsame, hkids⟩
        refine ⟨hsame, ?_⟩
        intro k
        rw [hkids k, children_insert]
        by_cases hk : k = id
        · rw [if_pos hk, hk, children_of_not_mem hmem]
        · rw [if_neg hk]

theorem mem_ids_of_not_lonely {keys ids : List String} {k : String} (hk : k ∈ keys)
    (hpaired : k ∉ (Join.join keyScore keys ids).lonelyLefts) : k ∈ ids := by
  rcases List.mem_append.mp ((Join.join_lefts_perm keyScore keys ids).mem_iff.mpr hk) with
    hpair | hlonely
  · rcases List.mem_map.mp hpair with ⟨pair, hjoined, rfl⟩
    rw [keyScore_pair_eq hjoined]
    exact Join.join_pair_right_mem keyScore hjoined
  · exact absurd hlonely hpaired

theorem syncDir_exact (round : LabelRound) (w : World) :
    (syncDir round.shared round.ids w.store w).1 =
        (syncDir round.shared round.ids w.store w).2.store ∧
      ∀ k, children (syncDir round.shared round.ids w.store w).1 k =
        if k ∈ round.ids then children w.store k else ∅ := by
  unfold syncDir
  set names := (Join.join keyScore (round.shared.keyOrder.visit w.store.keys)
    round.ids).lonelyLefts
  have hdeleted := deleteEntries_exact names w
  have hcopy : (deleteEntries Faults.none names w.store w).1 =
      (deleteEntries Faults.none names w.store w).2.store := hdeleted.1.trans hdeleted.2.symm
  have hmade := makeEntries_exact 0
    (Join.join keyScore (round.shared.keyOrder.visit w.store.keys) round.ids).lonelyRights
    (deleteEntries Faults.none names w.store w).2
  rw [← hcopy] at hmade
  refine ⟨hmade.1, ?_⟩
  intro k
  have hkids : children (deleteEntries Faults.none names w.store w).1 k =
      if k ∈ names then ∅ else children w.store k := by
    rw [hdeleted.1, children_foldl_erase]
  refine (hmade.2 k).trans (hkids.trans ?_)
  have hvisited : (round.shared.keyOrder.visit w.store.keys).Nodup :=
    (round.shared.keyOrder.perm w.store.keys).nodup_iff.mpr w.store.keys_nodup
  by_cases hids : k ∈ round.ids
  · rw [if_pos hids, if_neg fun hlonely => not_mem_ids_of_lonely hvisited hlonely hids]
  · rw [if_neg hids]
    by_cases hlonely : k ∈ names
    · rw [if_pos hlonely]
    · rw [if_neg hlonely]
      apply children_of_not_mem
      intro hmem
      apply hids
      apply mem_ids_of_not_lonely _ hlonely
      rw [IterOrder.mem_visit]
      exact hmem

theorem isMH_of_not_mem {round : LabelRound} {label : String} (hlabel : label ∉ round.ids) :
    round.isMH label = false := by
  have hnone : labelDbcs round.containers label = [] := by
    apply List.eq_nil_iff_forall_not_mem.mpr
    intro dbc hmem
    rw [NetworkAcl.mem_labelDbcs] at hmem
    exact hlabel (List.mem_flatMap.mpr ⟨dbc, hmem⟩)
  simp [LabelRound.isMH, hnone]

theorem mem_ids_of_isMH {round : LabelRound} {label : String}
    (hmulti : round.isMH label = true) : label ∈ round.ids := by
  by_contra hlabel
  rw [isMH_of_not_mem hlabel] at hmulti
  contradiction

/-! ## The marks -/

theorem hasMark_insert (dir : Directory) (k : String) (kids : Children) (name : String) :
    hasMark (dir.insert k kids) name =
      if name = k then decide ("MultiHost" ∈ kids) else hasMark dir name := by
  rw [hasMark, children_insert]
  by_cases hname : name = k
  · simp [hname]
  · simp [hname, hasMark]

theorem ipOf_insert_other (dir : Directory) (k : String) {kids : Children}
    (hkids : kids.lookup "IP" = (children dir k).lookup "IP") (name : String) :
    ipOf (dir.insert k kids) name = ipOf dir name := by
  rw [ipOf_insert]
  by_cases hname : name = k
  · rw [if_pos hname, hkids, hname]
    rfl
  · rw [if_neg hname]

theorem markLabels_spec (round : LabelRound) (labels : List String) (w : World) :
    (markLabels round labels w.store w).1 = (markLabels round labels w.store w).2.store ∧
      (∀ k, ipOf (markLabels round labels w.store w).1 k = ipOf w.store k) ∧
      ∀ k, hasMark (markLabels round labels w.store w).1 k =
        if k ∈ labels then round.isMH k else hasMark w.store k := by
  induction labels generalizing w with
  | nil => simp [markLabels_nil]
  | cons label rest ih =>
      -- one step changes the mark of the label and no address
      have hfrom : ∀ (next : World),
          (∀ k, ipOf next.store k = ipOf w.store k) →
          (∀ k, hasMark next.store k =
            if k = label then round.isMH label else hasMark w.store k) →
          (markLabels round rest next.store next).1 =
              (markLabels round rest next.store next).2.store ∧
            (∀ k, ipOf (markLabels round rest next.store next).1 k = ipOf w.store k) ∧
            ∀ k, hasMark (markLabels round rest next.store next).1 k =
              if k ∈ label :: rest then round.isMH k else hasMark w.store k := by
        intro next hips hmarks
        rcases ih next with ⟨hsame, hip, hmark⟩
        refine ⟨hsame, fun k => (hip k).trans (hips k), ?_⟩
        intro k
        rw [hmark k, hmarks k]
        by_cases hrest : k ∈ rest
        · simp [hrest]
        · by_cases hk : k = label
          · simp [hk]
          · simp [hrest, hk]
      rw [markLabels_cons]
      by_cases hdone : hasMark w.store label = round.isMH label
      · rw [if_pos hdone]
        apply hfrom w (fun _ => rfl)
        intro k
        by_cases hk : k = label
        · rw [if_pos hk, hk, hdone]
        · rw [if_neg hk]
      · rw [if_neg hdone]
        by_cases hmulti : round.isMH label = true
        · rw [if_pos hmulti, ← op_setKey_store]
          apply hfrom
          · intro k
            rw [op_setKey_store]
            exact ipOf_insert_other _ _ (AList.lookup_insert_ne (by decide)) k
          · intro k
            rw [op_setKey_store, hasMark_insert, hmulti]
            simp
        · rw [if_neg hmulti]
          rw [Bool.not_eq_true] at hmulti
          have hmark : "MultiHost" ∈ children w.store label := by
            rw [hmulti, Bool.not_eq_false] at hdone
            exact of_decide_eq_true hdone
          have hstore : (w.op false (deleteKey label "MultiHost")).2.store =
              w.store.insert label ((children w.store label).erase "MultiHost") := by
            rw [op_store, deleteKey, if_pos hmark]
            rfl
          rw [← hstore]
          apply hfrom
          · intro k
            rw [hstore]
            exact ipOf_insert_other _ _ (AList.lookup_erase_ne (by decide)) k
          · intro k
            rw [hstore, hasMark_insert, hmulti]
            simp

theorem setSingleIPs_spec (round : LabelRound) (dir : Directory) (labels : List String)
    (w : World) :
    (∀ k, hasMark (setSingleIPs .none round dir labels w).store k = hasMark w.store k) ∧
      ∀ k, round.isMH k = true →
        ipOf (setSingleIPs .none round dir labels w).store k = ipOf w.store k := by
  induction labels generalizing w with
  | nil => simp [setSingleIPs]
  | cons label rest ih =>
      rw [setSingleIPs, LabelFaults.none_single]
      split
      next dbc hsingle =>
        split
        · exact ih w
        · rcases ih (w.op false (setKey label "IP" dbc.ip)).2 with ⟨hmarks, hips⟩
          constructor
          · intro k
            rw [hmarks k, op_setKey_store, hasMark_insert]
            by_cases hk : k = label
            · simp [hk, hasMark]
            · rw [if_neg hk]
          · intro k hmulti
            have hk : k ≠ label := by
              rintro rfl
              simp [LabelRound.isMH, hsingle] at hmulti
            rw [hips k hmulti, op_setKey_store, ipOf_setKey_ip, if_neg hk]
      · exact ih w

theorem children_hideSingles (dir : Directory) (k : String) :
    children (hideSingles dir) k = if hasMark dir k then children dir k else ∅ := by
  rw [hideSingles, children_foldl_erase]
  by_cases hmark : hasMark dir k = true
  · simp [hmark]
  · rw [Bool.not_eq_true] at hmark
    by_cases hk : k ∈ dir.keys
    · simp [hmark, hk]
    · have hnone : children dir k = ∅ := children_of_not_mem hk
      simp [hmark, hnone]

/-! ## Which labels have an entry -/

theorem mem_foldl_erase (names : List String) (dir : Directory) (k : String) :
    k ∈ names.foldl (fun rest name => rest.erase name) dir ↔ k ∈ dir ∧ k ∉ names := by
  induction names generalizing dir with
  | nil => simp
  | cons name names ih =>
      rw [List.foldl_cons, ih, AList.mem_erase, List.mem_cons, not_or]
      tauto

/-- The copy has an entry afterwards exactly if it had one or one attempt to make it is not
made to fail. -/
theorem mem_makeEntries (faults : Faults) (i : ℕ) {names : List String} {dir : Directory}
    {w : World} (hcopy : ∀ name ∈ names, name ∈ w.store → name ∈ dir) (k : String) :
    k ∈ (makeEntries faults i names dir w).1 ↔
      k ∈ dir ∨ ∃ j, names[j]? = some k ∧ faults.mkdir (i + j) = false := by
  induction names generalizing i dir w with
  | nil => simp [makeEntries]
  | cons id rest ih =>
      rw [List.forall_mem_cons] at hcopy
      -- the attempt at the head is number zero
      have hsplit : (∃ j, (id :: rest)[j]? = some k ∧ faults.mkdir (i + j) = false) ↔
          (id = k ∧ faults.mkdir i = false) ∨
            ∃ j, rest[j]? = some k ∧ faults.mkdir (i + 1 + j) = false := by
        rw [← Nat.or_exists_add_one]
        simp [Nat.add_assoc, Nat.add_comm 1]
      rw [makeEntries, hsplit]
      by_cases hmem : id ∈ dir
      · rw [if_pos hmem, ih (i + 1) hcopy.2]
        constructor
        · intro hk
          exact hk.imp_right .inr
        · intro hk
          rcases hk with hk | ⟨rfl, _⟩ | hk
          · exact .inl hk
          · exact .inl hmem
          · exact .inr hk
      · rw [if_neg hmem]
        have hstore : id ∉ w.store := fun hid => hmem (hcopy.1 hid)
        cases hfails : faults.mkdir i with
        | true =>
            have hop : w.op true (mkdir id) = (false, ⟨w.store, w.history ++ [w.store]⟩) := rfl
            rw [hop]
            refine (ih (w := ⟨w.store, w.history ++ [w.store]⟩) (i + 1) hcopy.2).trans ?_
            simp
        | false =>
            have hop : w.op false (mkdir id) =
                (true, ⟨w.store.insert id ∅, w.history ++ [w.store.insert id ∅]⟩) := by
              simp [World.op, mkdir, hstore]
            have hnext : ∀ name ∈ rest, name ∈ w.store.insert id ∅ →
                name ∈ dir.insert id ∅ := by
              intro name hname hinserted
              rw [AList.mem_insert] at hinserted ⊢
              exact hinserted.imp_right (hcopy.2 name hname)
            rw [hop]
            refine (ih (i + 1) hnext).trans ?_
            rw [AList.mem_insert, eq_comm]
            tauto

theorem mem_ids_iff {keys ids : List String} (hkeys : keys.Nodup) (k : String) :
    k ∈ ids ↔ (k ∈ keys ∧ k ∉ (Join.join keyScore keys ids).lonelyLefts) ∨
      k ∈ (Join.join keyScore keys ids).lonelyRights := by
  have hrights := (Join.join_rights_perm keyScore keys ids).mem_iff (a := k)
  rw [List.mem_append] at hrights
  constructor
  · intro hids
    rcases hrights.mpr hids with hpaired | hlonely
    · left
      rcases List.mem_map.mp hpaired with ⟨pair, hpair, hright⟩
      have hequal := keyScore_pair_eq hpair
      refine ⟨?_, fun hlonely => not_mem_ids_of_lonely hkeys hlonely hids⟩
      apply (Join.join_lefts_perm keyScore keys ids).mem_iff.mp
      exact List.mem_append_left _ (List.mem_map.mpr ⟨pair, hpair, hequal.trans hright⟩)
    · exact .inr hlonely
  · intro hk
    rcases hk with ⟨hkey, hpaired⟩ | hlonely
    · exact mem_ids_of_not_lonely hkey hpaired
    · exact hrights.mp (.inr hlonely)

theorem mem_syncDir (round : LabelRound) (w : World) (k : String) :
    k ∈ (syncDir round.shared round.ids w.store w).1 ↔ k ∈ round.ids := by
  have hvisited : (round.keyOrder.visit w.store.keys).Nodup :=
    (round.keyOrder.perm w.store.keys).nodup_iff.mpr w.store.keys_nodup
  unfold syncDir
  set joined := Join.join keyScore (round.shared.keyOrder.visit w.store.keys) round.ids
    with hjoined
  have hdeleted := deleteEntries_exact joined.lonelyLefts w
  have hcopy : (deleteEntries Faults.none joined.lonelyLefts w.store w).1 =
      (deleteEntries Faults.none joined.lonelyLefts w.store w).2.store :=
    hdeleted.1.trans hdeleted.2.symm
  have hfaults : round.shared.faults = Faults.none := rfl
  rw [hfaults, mem_makeEntries Faults.none 0 (fun name _ hname => hcopy ▸ hname), hdeleted.1,
    mem_foldl_erase]
  simp only [Faults.none, and_true, ← List.mem_iff_getElem?]
  have hids : k ∈ round.ids ↔ _ := mem_ids_iff hvisited k
  rw [IterOrder.mem_visit] at hids
  exact hids.symm

theorem mem_op_setKey {w : World} {name : String} (hname : name ∈ w.store) (key value k : String) :
    k ∈ (w.op false (setKey name key value)).2.store ↔ k ∈ w.store := by
  rw [op_setKey_store]
  exact mem_insert_iff_of_mem hname _ k

theorem mem_markLabels {round : LabelRound} {labels : List String} {w : World}
    (hlabels : ∀ label ∈ labels, label ∈ w.store) (dir : Directory) (k : String) :
    k ∈ (markLabels round labels dir w).2.store ↔ k ∈ w.store := by
  induction labels generalizing dir w with
  | nil => rfl
  | cons label rest ih =>
      rw [List.forall_mem_cons] at hlabels
      rw [markLabels_cons]
      split
      · exact ih hlabels.2 dir
      · split
        · have hsame := mem_op_setKey hlabels.1 "MultiHost" "true"
          rw [ih (fun other hother => (hsame other).mpr (hlabels.2 other hother)), hsame]
        · have hsame := mem_op_deleteKey hlabels.1 false "MultiHost"
          rw [ih (fun other hother => (hsame other).mpr (hlabels.2 other hother)), hsame]

theorem mem_setSingleIPs {round : LabelRound} {labels : List String} {w : World}
    (hlabels : ∀ label ∈ labels, label ∈ w.store) (dir : Directory) (k : String) :
    k ∈ (setSingleIPs .none round dir labels w).store ↔ k ∈ w.store := by
  induction labels generalizing w with
  | nil => rfl
  | cons label rest ih =>
      rw [List.forall_mem_cons] at hlabels
      rw [setSingleIPs, LabelFaults.none_single]
      split
      next dbc _ =>
        split
        · exact ih hlabels.2
        · have hsame := mem_op_setKey hlabels.1 "IP" dbc.ip
          rw [ih (fun other hother => (hsame other).mpr (hlabels.2 other hother)), hsame]
      next => exact ih hlabels.2

theorem mem_visit_labels (round : LabelRound) (order : IterOrder String) (k : String) :
    k ∈ order.visit round.labels ↔ k ∈ round.ids := by
  rw [IterOrder.mem_visit, LabelRound.labels, List.mem_dedup]

theorem mem_hideSingles (dir : Directory) (k : String) :
    k ∈ hideSingles dir ↔ k ∈ dir ∧ hasMark dir k = true := by
  rw [hideSingles, mem_foldl_erase, List.mem_filter, Bool.not_eq_true', not_and,
    Bool.not_eq_false]
  constructor
  · intro hk
    exact ⟨hk.1, hk.2 hk.1⟩
  · intro hk
    exact ⟨hk.1, fun _ => hk.2⟩

/-! ## The allocation -/

/-- What the allocation does to the store when it starts with the conflicts `ipSet`. -/
structure Allocated (names : List String) (ipSet : Finset ℕ) (before after : Directory) :
    Prop where
  marks : ∀ k, hasMark after k = hasMark before k
  others : ∀ k ∉ names, ipOf after k = ipOf before k
  fresh : ∀ k ∈ names, ∀ ip, GoNet.parse4 (ipOf after k) = some ip →
    ip ∉ ipSet ∧ ip / 2 ^ 16 * 2 ^ 16 = labelPrefix
  distinct : ∀ j ∈ names, ∀ k ∈ names, j ≠ k → ∀ ip,
    GoNet.parse4 (ipOf after j) = some ip → GoNet.parse4 (ipOf after k) ≠ some ip

theorem mem_attemptStore (fails : Bool) (given : Option ℕ) (kids : Children) :
    "MultiHost" ∈ attemptStore fails given kids ↔ "MultiHost" ∈ kids := by
  cases fails with
  | true => rfl
  | false =>
      cases given with
      | none => simp [attemptStore]
      | some ip => simp [attemptStore]

theorem allocated_of_attempted {names : List String} {ipSet : Finset ℕ}
    {given : String → Option ℕ} {dir store : Directory} {result : Directory × World}
    (hdraws : Draws labelPrefix Faults.none.ip names ipSet given)
    (hattempted : Attempted Faults.none.ip names given dir store result) :
    Allocated names ipSet store result.2.store := by
  -- an address that can be read was drawn
  have hgiven : ∀ k ∈ names, ∀ ip, GoNet.parse4 (ipOf result.2.store k) = some ip →
      given k = some ip := by
    intro k hk ip hip
    rw [ipOf, hattempted.inStore k, if_pos hk] at hip
    cases hdrawn : given k with
    | none =>
        simp [attemptStore, Faults.none, hdrawn, parse4_empty] at hip
    | some found =>
        have hrange := (hdraws.fresh k hk found hdrawn).2.2
        have hsmall : found < 2 ^ 32 := by
          unfold labelPrefix at hrange
          omega
        simpa [attemptStore, Faults.none, hdrawn, GoNet.parse4_ipString hsmall] using hip
  constructor
  · intro k
    rw [hasMark, hasMark, hattempted.inStore k]
    by_cases hk : k ∈ names
    · simp only [if_pos hk, mem_attemptStore]
    · rw [if_neg hk]
  · intro k hk
    rw [ipOf, hattempted.inStore k, if_neg hk]
    rfl
  · intro k hk ip hip
    rcases hdraws.fresh k hk ip (hgiven k hk ip hip) with ⟨hfree, _, hrange⟩
    exact ⟨hfree, hrange⟩
  · intro j hj k hk hne ip hip hother
    exact hdraws.distinct j hj k hk hne rfl rfl ip (hgiven j hj ip hip) (hgiven k hk ip hother)

/-! ## One round -/

structure Written (round : LabelRound) (before after : Directory) : Prop where
  marks : ∀ k, hasMark after k = round.isMH k
  kept : ∀ k, round.isMH k = true → parseIP (ipOf before k) labelPrefix ≠ 0 →
    ipOf after k = ipOf before k
  fresh : ∀ k, round.isMH k = true → parseIP (ipOf before k) labelPrefix = 0 →
    ∀ j ≠ k, round.isMH j = true → ∀ ip, GoNet.parse4 (ipOf after k) = some ip →
      GoNet.parse4 (ipOf after j) ≠ some ip

/-- The directory and the store when `syncIPs` is called. -/
structure Prepared (round : LabelRound) (before dir store : Directory) : Prop where
  marks : ∀ k, hasMark dir k = round.isMH k
  ips : ∀ k, round.isMH k = true → ipOf dir k = ipOf before k
  storeMarks : ∀ k, hasMark store k = hasMark dir k
  storeIps : ∀ k, round.isMH k = true → ipOf store k = ipOf dir k
  memDir : ∀ k, k ∈ dir ↔ k ∈ round.ids
  memStore : ∀ k, k ∈ store ↔ k ∈ round.ids

theorem writeStoreLabels_prepared (w : World) (round : LabelRound) :
    ∃ dir single, Prepared round w.store dir single.store ∧
      writeStoreLabels w round =
        (syncIPs round.shared labelPrefix (hideSingles dir) single).2 := by
  rcases syncDir_exact round w with ⟨hsame, hkids⟩
  have hsynced := mem_syncDir round w
  set synced := syncDir round.shared round.ids w.store w
  rw [hsame] at hsynced
  have hlabels : ∀ order : IterOrder String, ∀ label ∈ order.visit round.labels,
      label ∈ synced.2.store :=
    fun order label hlabel => (hsynced label).mpr ((mem_visit_labels _ _ _).mp hlabel)
  have hspec := markLabels_spec round (round.markOrder.visit round.labels) synced.2
  have hmarked : ∀ name, name ∈ (markLabels round (round.markOrder.visit round.labels)
      synced.1 synced.2).2.store ↔ name ∈ synced.2.store :=
    mem_markLabels (hlabels _) synced.1
  rw [← hsame] at hspec
  set marked := markLabels round (round.markOrder.visit round.labels) synced.1 synced.2
  rcases hspec with ⟨hcopy, hips, hmarks⟩
  have hsingle := setSingleIPs_spec round marked.1 (round.singleOrder.visit round.labels)
    marked.2
  have hstored : ∀ name, name ∈ (setSingleIPs .none round marked.1
      (round.singleOrder.visit round.labels) marked.2).store ↔ name ∈ marked.2.store :=
    mem_setSingleIPs (fun label hlabel => (hmarked label).mpr (hlabels _ label hlabel)) marked.1
  refine ⟨marked.1,
    setSingleIPs .none round marked.1 (round.singleOrder.visit round.labels) marked.2, ?_, rfl⟩
  rw [← hcopy] at hsingle hmarked hstored
  constructor
  · intro k
    rw [hmarks k]
    by_cases hk : k ∈ round.ids
    · rw [if_pos ((mem_visit_labels _ _ _).mpr hk)]
    · rw [if_neg (mt (mem_visit_labels _ _ _).mp hk), isMH_of_not_mem hk, hasMark, hkids k,
        if_neg hk]
      rfl
  · intro k hmulti
    rw [hips k, ipOf, hkids k, if_pos (mem_ids_of_isMH hmulti)]
    rfl
  · exact hsingle.1
  · exact hsingle.2
  · intro k
    rw [hmarked, hsynced]
  · intro k
    rw [hstored, hmarked, hsynced]

theorem writeStoreLabels_written (w : World) (round : LabelRound) :
    Written round w.store (writeStoreLabels w round).store := by
  rcases writeStoreLabels_prepared w round with ⟨dir, single, hprepared, heq⟩
  rw [heq]
  rcases syncIPs_attempts labelPrefix_aligned round.shared (hideSingles dir) single with
    ⟨names, given, hnames, hdraws, hattempted⟩
  have hallocated := allocated_of_attempted hdraws hattempted
  set after := (syncIPs round.shared labelPrefix (hideSingles dir) single).2.store
  -- the allocator sees the old addresses of the labels with several containers
  have hhidden : ∀ k, round.isMH k = true → ipOf (hideSingles dir) k = ipOf w.store k := by
    intro k hmulti
    rw [← hprepared.ips k hmulti, ipOf, children_hideSingles, hprepared.marks k, if_pos hmulti]
    rfl
  have hkeys : ∀ k, round.isMH k = true → k ∈ hideSingles dir := by
    intro k hmulti
    have hmark : hasMark dir k = true := (hprepared.marks k).trans hmulti
    exact (mem_hideSingles _ _).mpr ⟨mem_of_hasMark hmark, hmark⟩
  have hmem : ∀ k, round.isMH k = true →
      (k ∈ names ↔ parseIP (ipOf w.store k) labelPrefix = 0) := by
    intro k hmulti
    rw [hnames, hhidden k hmulti]
    exact and_iff_right (hkeys k hmulti)
  have hkept : ∀ k, round.isMH k = true → parseIP (ipOf w.store k) labelPrefix ≠ 0 →
      ipOf after k = ipOf w.store k := by
    intro k hmulti hassigned
    rw [hallocated.others k (mt (hmem k hmulti).mp hassigned), hprepared.storeIps k hmulti,
      hprepared.ips k hmulti]
  constructor
  · intro k
    rw [hallocated.marks, hprepared.storeMarks, hprepared.marks]
  · exact hkept
  · intro k hmulti hunassigned j hne hother ip hk hj
    have hknames := (hmem k hmulti).mpr hunassigned
    by_cases hjnames : parseIP (ipOf w.store j) labelPrefix = 0
    · exact hallocated.distinct k hknames j ((hmem j hother).mpr hjnames) hne.symm ip hk hj
    · rcases hallocated.fresh k hknames ip hk with ⟨hfree, hrange⟩
      apply hfree
      have hpositive : ip ≠ 0 := by
        unfold labelPrefix at hrange
        omega
      have hold : parseIP (ipOf (hideSingles dir) j) labelPrefix = ip := by
        rw [hhidden j hother, ← hkept j hother hjnames]
        exact (parseIP_eq_iff hpositive).mpr ⟨hj, hrange⟩
      rw [← hold]
      exact Finset.mem_insert_of_mem (mem_assigned (hold ▸ hpositive))

/-! ## Runs -/

def Safe (store : Directory) : Prop :=
  ∀ a b, a ≠ b → hasMark store a = true → hasMark store b = true →
    ∀ ip, GoNet.parse4 (ipOf store a) = some ip → GoNet.parse4 (ipOf store b) ≠ some ip

/-- No label gets its mark in the round while the store still has a label address
for it that another label with several containers has as well. -/
def Admits (w : World) (round : LabelRound) : Prop :=
  ∀ a ∈ round.ids, ∀ b ∈ round.ids, a ≠ b → round.isMH a = true → round.isMH b = true →
    hasMark w.store a = false → parseIP (ipOf w.store a) labelPrefix ≠ 0 →
      parseIP (ipOf w.store a) labelPrefix ≠ parseIP (ipOf w.store b) labelPrefix

instance (w : World) (round : LabelRound) : Decidable (Admits w round) :=
  inferInstanceAs (Decidable (∀ a ∈ round.ids, _))

theorem writeStoreLabels_safe {w : World} {round : LabelRound} (hsafe : Safe w.store)
    (hadmits : Admits w round) : Safe (writeStoreLabels w round).store := by
  have hwritten := writeStoreLabels_written w round
  intro a b hne ha hb ip hipa hipb
  rw [hwritten.marks] at ha hb
  by_cases hza : parseIP (ipOf w.store a) labelPrefix = 0
  · exact hwritten.fresh a ha hza b hne.symm hb ip hipa hipb
  by_cases hzb : parseIP (ipOf w.store b) labelPrefix = 0
  · exact hwritten.fresh b hb hzb a hne ha ip hipb hipa
  -- both addresses were in the store before the round
  rw [hwritten.kept a ha hza] at hipa
  rw [hwritten.kept b hb hzb] at hipb
  have hequal : parseIP (ipOf w.store a) labelPrefix = parseIP (ipOf w.store b) labelPrefix := by
    simp only [parseIP, hipa, hipb]
  have hina := mem_ids_of_isMH ha
  have hinb := mem_ids_of_isMH hb
  cases hmarka : hasMark w.store a with
  | false => exact hadmits a hina b hinb hne ha hb hmarka hza hequal
  | true =>
      cases hmarkb : hasMark w.store b with
      | false => exact hadmits b hinb a hina hne.symm hb ha hmarkb hzb hequal.symm
      | true => exact hsafe a b hne hmarka hmarkb ip hipa hipb

theorem admits_of_safe {w : World} {round : LabelRound}
    (hsafe : Safe (writeStoreLabels w round).store) : Admits w round := by
  have hwritten := writeStoreLabels_written w round
  intro a _ b _ hne ha hb _ hassigned hequal
  set ip := parseIP (ipOf w.store a) labelPrefix with hip
  have hipa := ((parseIP_eq_iff hassigned).mp hip.symm).1
  have hipb := ((parseIP_eq_iff hassigned).mp hequal.symm).1
  apply hsafe a b hne ((hwritten.marks a).trans ha) ((hwritten.marks b).trans hb) ip
  · rw [hwritten.kept a ha (hip ▸ hassigned)]
    exact hipa
  · rw [hwritten.kept b hb (hequal ▸ hassigned)]
    exact hipb

/-- Label "web" has two containers, then one without an address while "db" gets two, then two. -/
def comingBack : List LabelRound :=
  [{ containers := [{ ID := 1, labels := ["web"] }, { ID := 2, labels := ["web"] }]
     draws := [5]
     keyOrder := .asStored _
     markOrder := .asStored _
     singleOrder := .asStored _
     ipOrder := .asStored _ },
   { containers := [{ ID := 1, labels := ["web", "db"] }, { ID := 2, labels := ["db"] }]
     draws := [5]
     keyOrder := .asStored _
     markOrder := .asStored _
     singleOrder := .asStored _
     ipOrder := .asStored _ },
   { containers := [{ ID := 1, labels := ["web", "db"] }, { ID := 2, labels := ["web", "db"] }]
     draws := []
     keyOrder := .asStored _
     markOrder := .asStored _
     singleOrder := .asStored _
     ipOrder := .asStored _ }]

end LabelStore
end Di
