import Di.Database
import Di.GoNet
import Di.GoStrings
import Di.GuardedRun
import Di.Join
import Mathlib.Data.List.AList

/-!
# Container addresses in the consensus store

The leader keeps one directory per running container in the consensus store
and gives every directory an address of 10.0.0.0/16.  A round reads the whole
directory, deletes and creates entries, and hands out addresses that are free
in its own copy of the directory.  Every single store operation may fail.

The copy is not always faithful: an entry is dropped from it even if its
deletion fails, and its address, still in the store, then looks free.  The
main theorem shows that this is the only way to a duplicate: addresses stay
unique as long as no draw of a round hits the address of such an entry.
-/

namespace Di
namespace NetworkStore

open Db Join

abbrev Children := AList fun _ : String => String

/-- An entry of the store, or of the round's copy of it, with its children. -/
abbrev Directory := AList fun _ : String => Children

def children (dir : Directory) (name : String) : Children := (dir.lookup name).getD ∅

/-! ## The store -/

structure World where
  store : Directory
  /-- The store after every operation so far. -/
  history : List Directory

/-- An operation fails without effect if it is made to, or if its precondition fails. -/
def World.op (w : World) (fails : Bool) (effect : Directory → Option Directory) :
    Bool × World :=
  match (if fails then none else effect w.store) with
  | none => (false, ⟨w.store, w.history ++ [w.store]⟩)
  | some store => (true, ⟨store, w.history ++ [store]⟩)

def mkdir (name : String) (store : Directory) : Option Directory :=
  if name ∈ store then none else some (store.insert name ∅)

def delete (name : String) (store : Directory) : Option Directory :=
  if name ∈ store then some (store.erase name) else none

def setKey (name key value : String) (store : Directory) : Option Directory :=
  some (store.insert name ((children store name).insert key value))

def deleteKey (name key : String) (store : Directory) : Option Directory :=
  if key ∈ children store name then
    some (store.insert name ((children store name).erase key))
  else none

/-! ## One round -/

/-- Which operations of a round fail; each operation of the round is one argument. -/
structure Faults where
  getTree : Bool
  delete : String → Bool
  /-- By position, since an identifier may be listed twice. -/
  mkdir : ℕ → Bool
  ip : String → Bool
  labels : String → Bool

def Faults.none : Faults :=
  ⟨false, fun _ => false, fun _ => false, fun _ => false, fun _ => false⟩

structure Round where
  containers : List Container
  faults : Faults
  /-- What `rand32` returns during the round. -/
  draws : List ℕ
  keyOrder : IterOrder String
  ipOrder : IterOrder String
  labelOrder : IterOrder String

def Round.ids (round : Round) : List String :=
  (round.containers.filter fun c => c.schedID ≠ "").map Container.schedID

def deleteEntries (faults : Faults) :
    List String → Directory → World → Directory × World
  | [], dir, w => (dir, w)
  | id :: rest, dir, w =>
      -- the entry leaves `dir` whether or not the deletion succeeds
      deleteEntries faults rest (dir.erase id) (w.op (faults.delete id) (delete id)).2

def makeEntries (faults : Faults) :
    ℕ → List String → Directory → World → Directory × World
  | _, [], dir, w => (dir, w)
  | i, id :: rest, dir, w =>
      if id ∈ dir then makeEntries faults (i + 1) rest dir w
      else
        match w.op (faults.mkdir i) (mkdir id) with
        | (false, w) => makeEntries faults (i + 1) rest dir w
        | (true, w) => makeEntries faults (i + 1) rest (dir.insert id ∅) w

def keyScore (left right : String) : ℤ := if left ≠ right then -1 else 0

def syncDir (round : Round) (ids : List String) (dir : Directory) (w : World) :
    Directory × World :=
  let joined := join keyScore (round.keyOrder.visit dir.keys) ids
  let deleted := deleteEntries round.faults joined.lonelyLefts dir w
  makeEntries round.faults 0 joined.lonelyRights deleted.1 deleted.2

/-- The mask keeps the upper sixteen bits. -/
def parseIP (text : String) (prefixIP : ℕ) : ℕ :=
  match GoNet.parse4 text with
  | none => 0
  | some ip => if ip / 2 ^ 16 * 2 ^ 16 ≠ prefixIP then 0 else ip

def candidate (draw prefixIP : ℕ) : ℕ := draw % 2 ^ 16 + prefixIP / 2 ^ 16 * 2 ^ 16

/-- The result, zero on failure, and the draws that are left. -/
def randomIP (conflicts : Finset ℕ) (prefixIP : ℕ) : ℕ → List ℕ → ℕ × List ℕ
  | 0, draws => (0, draws)
  | _ + 1, [] => (0, [])
  | tries + 1, draw :: draws =>
      if candidate draw prefixIP ∉ conflicts then (candidate draw prefixIP, draws)
      else randomIP conflicts prefixIP tries draws

def gatewayIP : String := "10.0.0.1"

def ipOf (dir : Directory) (name : String) : String :=
  ((children dir name).lookup "IP").getD ""

/-- How a loop writes to an entry of its copy of the directory. -/
structure Writes (m : Type → Type) where
  /-- `dir[name][key] = value`. -/
  assign (dir : Directory) (name key value : String) : m Directory
  /-- `delete(dir[name], key)`. -/
  unassign (dir : Directory) (name key : String) : Directory

/-- The writes to an entry that is in the copy. -/
def Writes.direct : Writes Id where
  assign dir name key value := pure (dir.insert name ((children dir name).insert key value))
  unassign dir name key := dir.insert name ((children dir name).erase key)

/-- The writes to any entry.  The map of an entry that is not in the copy is `nil`: an
assignment to its keys panics, which is `none`, and a deletion does nothing. -/
def Writes.checked : Writes Option where
  assign dir name key value :=
    if name ∈ dir then some (dir.insert name ((children dir name).insert key value)) else none
  unassign dir name key :=
    if name ∈ dir then dir.insert name ((children dir name).erase key) else dir

section Loops

variable {m : Type → Type} [Monad m] (writes : Writes m)

/-- The loop of `syncIPs`. -/
def allocateM (faults : Faults) (prefixIP : ℕ) :
    List String → Finset ℕ → List ℕ → Directory → World → m (Directory × World)
  | [], _, _, dir, w => pure (dir, w)
  | k :: rest, ipSet, draws, dir, w =>
      let drawn := randomIP ipSet prefixIP 256 draws
      if drawn.1 = 0 then
        allocateM faults prefixIP rest ipSet drawn.2 (writes.unassign dir k "IP")
          (w.op (faults.ip k) (deleteKey k "IP")).2
      else
        let ipStr := GoNet.ipString drawn.1
        match w.op (faults.ip k) (setKey k "IP" ipStr) with
        | (false, w) => allocateM faults prefixIP rest ipSet drawn.2 dir w
        | (true, w) => do
            let dir ← writes.assign dir k "IP" ipStr
            allocateM faults prefixIP rest (insert drawn.1 ipSet) drawn.2 dir w

def assigned (dir : Directory) (prefixIP : ℕ) : Finset ℕ :=
  (dir.keys.map fun k => parseIP (ipOf dir k) prefixIP).toFinset.erase 0

def syncIPsM (round : Round) (prefixIP : ℕ) (dir : Directory) (w : World) :
    m (Directory × World) :=
  let unassigned := (round.ipOrder.visit dir.keys).filter fun k =>
    parseIP (ipOf dir k) prefixIP = 0
  let ipSet := insert (parseIP gatewayIP prefixIP) (assigned dir prefixIP)
  allocateM writes round.faults prefixIP unassigned ipSet round.draws dir w

/-- The last container with the identifier decides. -/
def labelsFor (containers : List Container) (id : String) : List String :=
  match containers.reverse.find? fun c => c.schedID ≠ "" ∧ c.schedID = id with
  | some c => c.labels
  | none => []

/-- The loop of `syncLabels`. -/
def writeLabelsM (marshal : List String → String) (round : Round) :
    List String → Directory → World → m World
  | [], _, w => pure w
  | id :: rest, dir, w =>
      let js := marshal (sortStrings (labelsFor round.containers id))
      if js = ((children dir id).lookup "Labels").getD "" then
        writeLabelsM marshal round rest dir w
      else
        match w.op (round.faults.labels id) (setKey id "Labels" js) with
        | (false, w) => writeLabelsM marshal round rest dir w
        | (true, w) => do
            let dir ← writes.assign dir id "Labels" js
            writeLabelsM marshal round rest dir w

def syncLabelsM (marshal : List String → String) (round : Round) (dir : Directory)
    (w : World) : m World :=
  writeLabelsM writes marshal round (round.labelOrder.visit dir.keys) dir w

/-- The prefix 10.0.0.0. -/
def containerPrefix : ℕ := 10 * 2 ^ 24

/-- `writeStoreContainers`; `marshal` is `json.Marshal`. -/
def writeStoreContainersM (marshal : List String → String) (w : World) (round : Round) :
    m World :=
  -- the directory itself exists, so its `Mkdir` fails
  let w := (w.op true some).2
  match w.op round.faults.getTree some with
  | (false, w) => pure w
  | (true, w) => do
      let synced := syncDir round round.ids w.store w
      let addressed ← syncIPsM writes round containerPrefix synced.1 synced.2
      syncLabelsM writes marshal round addressed.1 addressed.2

end Loops

def allocate (faults : Faults) (prefixIP : ℕ) (names : List String) (ipSet : Finset ℕ)
    (draws : List ℕ) (dir : Directory) (w : World) : Directory × World :=
  Id.run (allocateM .direct faults prefixIP names ipSet draws dir w)

def syncIPs (round : Round) (prefixIP : ℕ) (dir : Directory) (w : World) :
    Directory × World :=
  Id.run (syncIPsM .direct round prefixIP dir w)

def writeLabels (marshal : List String → String) (round : Round) (names : List String)
    (dir : Directory) (w : World) : World :=
  Id.run (writeLabelsM .direct marshal round names dir w)

def syncLabels (marshal : List String → String) (round : Round) (dir : Directory)
    (w : World) : World :=
  Id.run (syncLabelsM .direct marshal round dir w)

/-- Every write of `writeStoreContainers` is to an entry that is in the copy. -/
def writeStoreContainers (marshal : List String → String) (w : World) (round : Round) :
    World :=
  Id.run (writeStoreContainersM .direct marshal w round)

theorem allocate_nil (faults : Faults) (prefixIP : ℕ) (ipSet : Finset ℕ) (draws : List ℕ)
    (dir : Directory) (w : World) :
    allocate faults prefixIP [] ipSet draws dir w = (dir, w) := rfl

theorem allocate_cons (faults : Faults) (prefixIP : ℕ) (k : String) (rest : List String)
    (ipSet : Finset ℕ) (draws : List ℕ) (dir : Directory) (w : World) :
    allocate faults prefixIP (k :: rest) ipSet draws dir w =
      let drawn := randomIP ipSet prefixIP 256 draws
      if drawn.1 = 0 then
        allocate faults prefixIP rest ipSet drawn.2
          (dir.insert k ((children dir k).erase "IP"))
          (w.op (faults.ip k) (deleteKey k "IP")).2
      else
        let ipStr := GoNet.ipString drawn.1
        match w.op (faults.ip k) (setKey k "IP" ipStr) with
        | (false, w) => allocate faults prefixIP rest ipSet drawn.2 dir w
        | (true, w) =>
            allocate faults prefixIP rest (insert drawn.1 ipSet) drawn.2
              (dir.insert k ((children dir k).insert "IP" ipStr)) w := rfl

theorem syncIPs_eq (round : Round) (prefixIP : ℕ) (dir : Directory) (w : World) :
    syncIPs round prefixIP dir w =
      allocate round.faults prefixIP
        ((round.ipOrder.visit dir.keys).filter fun k => parseIP (ipOf dir k) prefixIP = 0)
        (insert (parseIP gatewayIP prefixIP) (assigned dir prefixIP)) round.draws dir w := rfl

theorem writeLabels_cons (marshal : List String → String) (round : Round) (id : String)
    (rest : List String) (dir : Directory) (w : World) :
    writeLabels marshal round (id :: rest) dir w =
      let js := marshal (sortStrings (labelsFor round.containers id))
      if js = ((children dir id).lookup "Labels").getD "" then
        writeLabels marshal round rest dir w
      else
        match w.op (round.faults.labels id) (setKey id "Labels" js) with
        | (false, w) => writeLabels marshal round rest dir w
        | (true, w) =>
            writeLabels marshal round rest
              (dir.insert id ((children dir id).insert "Labels" js)) w := rfl

theorem writeStoreContainers_eq (marshal : List String → String) (w : World) (round : Round) :
    writeStoreContainers marshal w round =
      match (w.op true some).2.op round.faults.getTree some with
      | (false, w) => w
      | (true, w) =>
          let synced := syncDir round round.ids w.store w
          let addressed := syncIPs round containerPrefix synced.1 synced.2
          syncLabels marshal round addressed.1 addressed.2 := rfl

/-! ## What each operation does to the addresses -/

theorem children_insert (dir : Directory) (k : String) (kids : Children)
    (name : String) :
    children (dir.insert k kids) name = if name = k then kids else children dir name := by
  unfold children
  by_cases hname : name = k
  · subst hname
    simp
  · simp [hname]

theorem children_of_not_mem {dir : Directory} {name : String} (hname : name ∉ dir) :
    children dir name = ∅ := by
  unfold children
  rw [AList.lookup_eq_none.mpr hname]
  rfl

@[simp] theorem ipOf_erase (dir : Directory) (k name : String) :
    ipOf (dir.erase k) name = if name = k then "" else ipOf dir name := by
  unfold ipOf children
  by_cases hname : name = k
  · subst hname
    simp
  · simp [hname]

theorem ipOf_of_not_mem {dir : Directory} {name : String} (hname : name ∉ dir) :
    ipOf dir name = "" := by
  unfold ipOf
  rw [children_of_not_mem hname]
  rfl

theorem ipOf_insert (dir : Directory) (k : String) (kids : Children) (name : String) :
    ipOf (dir.insert k kids) name =
      if name = k then (kids.lookup "IP").getD "" else ipOf dir name := by
  unfold ipOf
  rw [children_insert]
  by_cases hname : name = k
  · simp [hname]
  · simp [hname]

theorem ipOf_mkdir {store next : Directory} {id : String}
    (hmkdir : mkdir id store = some next) (name : String) :
    id ∉ store ∧ next = store.insert id ∅ ∧ ipOf next name = ipOf store name := by
  unfold mkdir at hmkdir
  by_cases hmem : id ∈ store
  · simp [hmem] at hmkdir
  · simp only [if_neg hmem, Option.some.injEq] at hmkdir
    subst hmkdir
    refine ⟨hmem, rfl, ?_⟩
    rw [ipOf_insert]
    by_cases hname : name = id
    · rw [if_pos hname, hname, ipOf_of_not_mem hmem]
      rfl
    · rw [if_neg hname]

theorem ipOf_setKey_ip (store : Directory) (k ipStr name : String) :
    ipOf (store.insert k ((children store k).insert "IP" ipStr)) name =
      if name = k then ipStr else ipOf store name := by
  rw [ipOf_insert]
  simp

theorem ipOf_setKey_labels (store : Directory) (k js name : String) :
    ipOf (store.insert k ((children store k).insert "Labels" js)) name =
      ipOf store name := by
  rw [ipOf_insert]
  by_cases hname : name = k
  · subst hname
    rw [if_pos rfl, AList.lookup_insert_ne (by decide)]
    rfl
  · rw [if_neg hname]

theorem ipOf_deleteKey_ip (store : Directory) (k name : String) :
    ipOf (store.insert k ((children store k).erase "IP")) name =
      if name = k then "" else ipOf store name := by
  rw [ipOf_insert]
  simp

/-! ## Soundness of the addresses -/

/-- The number of 10.0.0.1. -/
def gateway : ℕ := 10 * 2 ^ 24 + 1

structure Sound (store : Directory) : Prop where
  inPrefix : ∀ name ip, GoNet.parse4 (ipOf store name) = some ip →
    ip / 2 ^ 16 * 2 ^ 16 = containerPrefix
  distinct : ∀ a b ip, a ≠ b → GoNet.parse4 (ipOf store a) = some ip →
    GoNet.parse4 (ipOf store b) ≠ some ip
  noGateway : ∀ name, GoNet.parse4 (ipOf store name) ≠ some gateway

theorem parse4_empty : GoNet.parse4 "" = none := by
  decide

/-- Forgetting addresses keeps soundness. -/
theorem Sound.of_le {store next : Directory} (hsound : Sound store)
    (hle : ∀ name, ipOf next name = "" ∨ ipOf next name = ipOf store name) :
    Sound next := by
  have hkept : ∀ name ip, GoNet.parse4 (ipOf next name) = some ip →
      GoNet.parse4 (ipOf store name) = some ip := by
    intro name ip hparse
    rcases hle name with hempty | hsame
    · rw [hempty, parse4_empty] at hparse
      contradiction
    · rwa [← hsame]
  constructor
  · intro name ip hparse
    exact hsound.inPrefix name ip (hkept name ip hparse)
  · intro a b ip hne ha hb
    exact hsound.distinct a b ip hne (hkept a ip ha) (hkept b ip hb)
  · intro name hparse
    exact hsound.noGateway name (hkept name gateway hparse)

/-- Setting an address that nobody holds keeps soundness. -/
theorem Sound.set {store next : Directory} {k : String} {ip : ℕ}
    (hsound : Sound store) (hrange : ip / 2 ^ 16 * 2 ^ 16 = containerPrefix)
    (hgateway : ip ≠ gateway)
    (hfree : ∀ name, GoNet.parse4 (ipOf store name) ≠ some ip)
    (hnext : ∀ name, ipOf next name =
      if name = k then GoNet.ipString ip else ipOf store name) :
    Sound next := by
  have hsmall : ip < 2 ^ 32 := by
    unfold containerPrefix at hrange
    omega
  have hparse : ∀ name other, GoNet.parse4 (ipOf next name) = some other →
      (name = k ∧ other = ip) ∨
        (name ≠ k ∧ GoNet.parse4 (ipOf store name) = some other) := by
    intro name other hother
    rw [hnext] at hother
    by_cases hname : name = k
    · rw [if_pos hname, GoNet.parse4_ipString hsmall, Option.some.injEq] at hother
      exact .inl ⟨hname, hother.symm⟩
    · rw [if_neg hname] at hother
      exact .inr ⟨hname, hother⟩
  constructor
  · intro name other hother
    rcases hparse name other hother with ⟨_, rfl⟩ | ⟨_, hold⟩
    · exact hrange
    · exact hsound.inPrefix name other hold
  · intro a b other hne ha hb
    rcases hparse a other ha with ⟨hak, rfl⟩ | ⟨_, hold⟩
    · rcases hparse b _ hb with ⟨hbk, _⟩ | ⟨_, holdb⟩
      · exact hne (hak.trans hbk.symm)
      · exact hfree b holdb
    · rcases hparse b other hb with ⟨_, rfl⟩ | ⟨_, holdb⟩
      · exact hfree a hold
      · exact hsound.distinct a b other hne hold holdb
  · intro name hname
    rcases hparse name gateway hname with ⟨_, heq⟩ | ⟨_, hold⟩
    · exact hgateway heq.symm
    · exact hsound.noGateway name hold

/-- Sound now and after every operation so far. -/
structure Good (w : World) : Prop where
  now : Sound w.store
  always : ∀ store ∈ w.history, Sound store

theorem op_cases (w : World) (fails : Bool) (effect : Directory → Option Directory) :
    w.op fails effect = (false, ⟨w.store, w.history ++ [w.store]⟩) ∨
      (fails = false ∧ ∃ store, effect w.store = some store ∧
        w.op fails effect = (true, ⟨store, w.history ++ [store]⟩)) := by
  unfold World.op
  cases fails with
  | true => simp
  | false =>
      cases heffect : effect w.store with
      | none => simp
      | some store => simp

theorem Good.op {w : World} (hgood : Good w) (fails : Bool)
    {effect : Directory → Option Directory}
    (heffect : ∀ store, effect w.store = some store → Sound store) :
    Good (w.op fails effect).2 := by
  have hpush : ∀ store, Sound store → Good ⟨store, w.history ++ [store]⟩ := by
    intro store hsound
    constructor
    · exact hsound
    · intro visited hvisited
      rcases List.mem_append.mp hvisited with hold | hlast
      · exact hgood.always visited hold
      · rw [List.mem_singleton.mp hlast]
        exact hsound
  rcases op_cases w fails effect with hstay | ⟨_, store, hstore, hmove⟩
  · rw [hstay]
    exact hpush w.store hgood.now
  · rw [hmove]
    exact hpush store (heffect store hstore)

/-! ## The loops of a round -/

theorem ipOf_delete {store next : Directory} {id : String}
    (hdelete : delete id store = some next) (name : String) :
    ipOf next name = if name = id then "" else ipOf store name := by
  unfold delete at hdelete
  by_cases hmem : id ∈ store
  · simp only [if_pos hmem, Option.some.injEq] at hdelete
    rw [← hdelete, ipOf_erase]
  · simp [hmem] at hdelete

theorem mem_deleteEntries (faults : Faults) (names : List String) (dir : Directory) (w : World)
    (k : String) :
    k ∈ (deleteEntries faults names dir w).1 ↔ k ∈ dir ∧ k ∉ names := by
  induction names generalizing dir w with
  | nil => simp [deleteEntries]
  | cons id rest ih =>
      rw [deleteEntries, ih, AList.mem_erase, List.mem_cons, not_or]
      tauto

/-- An entry of the list keeps its address in the store only if its deletion
was made to fail; the copy drops it in any case. -/
theorem deleteEntries_spec (faults : Faults) (names : List String)
    (dir : Directory) (w : World) (hgood : Good w) :
    Good (deleteEntries faults names dir w).2 ∧
      (∀ k ∉ names, ipOf (deleteEntries faults names dir w).1 k = ipOf dir k) ∧
      ∀ k, ipOf (deleteEntries faults names dir w).2.store k =
        if k ∈ names ∧ faults.delete k = false then "" else ipOf w.store k := by
  induction names generalizing dir w with
  | nil => simp [deleteEntries, hgood]
  | cons id rest ih =>
      have hstore : ∀ k, ipOf (w.op (faults.delete id) (delete id)).2.store k =
          if k = id ∧ faults.delete id = false then "" else ipOf w.store k := by
        intro k
        rcases op_cases w (faults.delete id) (delete id) with
          hstay | ⟨hworks, store, hdelete, hmove⟩
        · rw [hstay]
          by_cases hk : k = id ∧ faults.delete id = false
          · -- the deletion failed although it could have worked: no such entry
            rw [if_pos hk, hk.1]
            apply ipOf_of_not_mem
            intro hmem
            simp [World.op, hk.2, delete, hmem] at hstay
          · rw [if_neg hk]
        · rw [hmove, ipOf_delete hdelete]
          simp [hworks]
      have hnext : Good (w.op (faults.delete id) (delete id)).2 := by
        apply hgood.op
        intro store hdelete
        apply hgood.now.of_le
        intro name
        rw [ipOf_delete hdelete]
        by_cases hname : name = id
        · exact .inl (if_pos hname)
        · exact .inr (if_neg hname)
      rcases ih (dir.erase id) _ hnext with ⟨hdone, hcopy, hips⟩
      rw [deleteEntries]
      refine ⟨hdone, ?_, ?_⟩
      · intro k hk
        rw [List.mem_cons, not_or] at hk
        rw [hcopy k hk.2, ipOf_erase, if_neg hk.1]
      · intro k
        rw [hips, hstore]
        by_cases hrest : k ∈ rest ∧ faults.delete k = false
        · rw [if_pos hrest, if_pos ⟨List.mem_cons_of_mem id hrest.1, hrest.2⟩]
        · rw [if_neg hrest]
          by_cases hk : k = id
          · subst hk
            simp
          · have hmem : k ∈ id :: rest ↔ k ∈ rest := by simp [hk]
            rw [if_neg (fun h => hk h.1), if_neg (fun h => hrest ⟨hmem.mp h.1, h.2⟩)]

theorem makeEntries_spec (faults : Faults) (i : ℕ) (ids : List String)
    (dir : Directory) (w : World) (hgood : Good w)
    (hcopy : ∀ k ∈ dir, ipOf dir k = ipOf w.store k) :
    Good (makeEntries faults i ids dir w).2 ∧
      (∀ k ∈ dir, k ∈ (makeEntries faults i ids dir w).1) ∧
      (∀ k ∈ (makeEntries faults i ids dir w).1,
        ipOf (makeEntries faults i ids dir w).1 k = ipOf w.store k) ∧
      ∀ k, ipOf (makeEntries faults i ids dir w).2.store k = ipOf w.store k := by
  induction ids generalizing i dir w with
  | nil =>
      rw [makeEntries]
      exact ⟨hgood, fun _ hk => hk, hcopy, fun _ => rfl⟩
  | cons id rest ih =>
      rw [makeEntries]
      by_cases hmem : id ∈ dir
      · rw [if_pos hmem]
        exact ih (i + 1) dir w hgood hcopy
      · rw [if_neg hmem]
        have hnext : Good (w.op (faults.mkdir i) (mkdir id)).2 := by
          apply hgood.op
          intro store hmkdir
          apply hgood.now.of_le
          intro name
          exact .inr (ipOf_mkdir hmkdir name).2.2
        rcases op_cases w (faults.mkdir i) (mkdir id) with
          hstay | ⟨_, store, hmkdir, hmove⟩
        · rw [hstay] at hnext ⊢
          exact ih (i + 1) dir _ hnext hcopy
        · rw [hmove] at hnext ⊢
          have hips : ∀ k, ipOf store k = ipOf w.store k :=
            fun k => (ipOf_mkdir hmkdir k).2.2
          have hcopied : ∀ k ∈ dir.insert id ∅,
              ipOf (dir.insert id ∅) k = ipOf store k := by
            intro k hk
            rw [ipOf_insert, hips]
            by_cases hkid : k = id
            · rw [if_pos hkid, hkid, ipOf_of_not_mem (ipOf_mkdir hmkdir id).1]
              rfl
            · rw [if_neg hkid]
              rcases (AList.mem_insert _).mp hk with heq | hold
              · exact absurd heq hkid
              · exact hcopy k hold
          rcases ih (i + 1) (dir.insert id ∅) _ hnext hcopied with
            ⟨hdone, hkeys, hsame, hstore⟩
          refine ⟨hdone, ?_, ?_, ?_⟩
          · intro k hk
            exact hkeys k ((AList.mem_insert _).mpr (.inr hk))
          · intro k hk
            rw [hsame k hk]
            exact hips k
          · intro k
            rw [hstore k]
            exact hips k

theorem keyScore_pair_eq {keys ids : List String} {pair : String × String}
    (hpair : pair ∈ (join keyScore keys ids).pairs) : pair.1 = pair.2 := by
  have hscore := join_pairs_nonneg keyScore keys ids pair hpair
  by_contra hne
  simp [keyScore, hne] at hscore

/-- A key that the join leaves over is not among the identifiers. -/
theorem not_mem_ids_of_lonely {keys ids : List String} (hkeys : keys.Nodup)
    {k : String} (hlonely : k ∈ (join keyScore keys ids).lonelyLefts) : k ∉ ids := by
  intro hids
  have hrights := (join_rights_perm keyScore keys ids).mem_iff.mpr hids
  rcases List.mem_append.mp hrights with hpaired | hleft
  · rcases List.mem_map.mp hpaired with ⟨pair, hpair, hright⟩
    have hequal := keyScore_pair_eq hpair
    have hnodup := (join_lefts_perm keyScore keys ids).nodup_iff.mpr hkeys
    have hfirst : k ∈ (join keyScore keys ids).pairs.map Prod.fst :=
      List.mem_map.mpr ⟨pair, hpair, hequal.trans hright⟩
    exact (List.nodup_append.mp hnodup).2.2 k hfirst k hlonely rfl
  · have hneg := join_lonely_incompatible keyScore hlonely hleft
    simp [keyScore] at hneg

/-- After `syncDir` the copy is faithful, except that it may lack entries whose
deletion failed. -/
theorem syncDir_spec (round : Round) (w : World) (hgood : Good w) :
    Good (syncDir round round.ids w.store w).2 ∧
      (∀ k ∈ (syncDir round round.ids w.store w).1,
        ipOf (syncDir round round.ids w.store w).1 k =
          ipOf (syncDir round round.ids w.store w).2.store k) ∧
      ∀ k ∉ (syncDir round round.ids w.store w).1,
        ipOf (syncDir round round.ids w.store w).2.store k = "" ∨
          (k ∈ w.store ∧ k ∉ round.ids ∧ round.faults.delete k = true ∧
            ipOf (syncDir round round.ids w.store w).2.store k = ipOf w.store k) := by
  unfold syncDir
  set names := (join keyScore (round.keyOrder.visit w.store.keys) round.ids).lonelyLefts
    with hnames
  rcases deleteEntries_spec round.faults names w.store w hgood with
    ⟨hdeleted, hcopy, hips⟩
  have hkeys := mem_deleteEntries round.faults names w.store w
  have hfaithful : ∀ k ∈ (deleteEntries round.faults names w.store w).1,
      ipOf (deleteEntries round.faults names w.store w).1 k =
        ipOf (deleteEntries round.faults names w.store w).2.store k := by
    intro k hk
    have hnot := ((hkeys k).mp hk).2
    rw [hcopy k hnot, hips, if_neg (fun h => hnot h.1)]
  rcases makeEntries_spec round.faults 0 _ _ _ hdeleted hfaithful with
    ⟨hmade, hgrown, hsame, hstore⟩
  refine ⟨hmade, ?_, ?_⟩
  · intro k hk
    rw [hsame k hk, hstore k]
  · intro k hk
    have hgone : k ∉ (deleteEntries round.faults names w.store w).1 :=
      fun hold => hk (hgrown k hold)
    rw [hkeys, not_and, not_not] at hgone
    rw [hstore k, hips k]
    by_cases hold : k ∈ w.store
    · have hlonely := hgone hold
      cases hfault : round.faults.delete k with
      | false => exact .inl (if_pos ⟨hlonely, rfl⟩)
      | true =>
          right
          have hnodup : (round.keyOrder.visit w.store.keys).Nodup :=
            (round.keyOrder.perm w.store.keys).nodup_iff.mpr w.store.keys_nodup
          exact ⟨hold, not_mem_ids_of_lonely hnodup hlonely, rfl, by simp⟩
    · left
      rw [ipOf_of_not_mem hold, ite_self]

theorem randomIP_spec (conflicts : Finset ℕ) (prefixIP tries : ℕ) (draws : List ℕ) :
    (∀ d ∈ (randomIP conflicts prefixIP tries draws).2, d ∈ draws) ∧
      ((randomIP conflicts prefixIP tries draws).1 ≠ 0 →
        (randomIP conflicts prefixIP tries draws).1 ∉ conflicts ∧
          ∃ d ∈ draws, (randomIP conflicts prefixIP tries draws).1 =
            candidate d prefixIP) := by
  induction tries generalizing draws with
  | zero => simp [randomIP]
  | succ tries ih =>
      cases draws with
      | nil => simp [randomIP]
      | cons draw draws =>
          rw [randomIP]
          by_cases hfree : candidate draw prefixIP ∉ conflicts
          · rw [if_pos hfree]
            constructor
            · intro d hd
              exact List.mem_cons_of_mem draw hd
            · intro _
              exact ⟨hfree, draw, by simp, rfl⟩
          · rw [if_neg hfree]
            constructor
            · intro d hd
              exact List.mem_cons_of_mem draw ((ih draws).1 d hd)
            · intro hne
              rcases (ih draws).2 hne with ⟨hnot, d, hd, heq⟩
              exact ⟨hnot, d, List.mem_cons_of_mem draw hd, heq⟩

theorem candidate_range {prefixIP : ℕ} (haligned : prefixIP % 2 ^ 16 = 0) (draw : ℕ) :
    candidate draw prefixIP / 2 ^ 16 * 2 ^ 16 = prefixIP := by
  unfold candidate
  omega

/-- An address in the store is known to the round or out of reach of its draws. -/
def Known (store : Directory) (ipSet : Finset ℕ) (draws : List ℕ) : Prop :=
  ∀ k ip, GoNet.parse4 (ipOf store k) = some ip →
    ip ∈ ipSet ∨ ∀ d ∈ draws, candidate d containerPrefix ≠ ip

theorem Known.fewer {store : Directory} {ipSet : Finset ℕ} {draws fewer : List ℕ}
    (hknown : Known store ipSet draws) (hfewer : ∀ d ∈ fewer, d ∈ draws) :
    Known store ipSet fewer := by
  intro k ip hip
  rcases hknown k ip hip with hin | hout
  · exact .inl hin
  · exact .inr fun d hd => hout d (hfewer d hd)

theorem Known.of_le {store next : Directory} {ipSet : Finset ℕ} {draws : List ℕ}
    (hknown : Known store ipSet draws)
    (hle : ∀ name, ipOf next name = "" ∨ ipOf next name = ipOf store name) :
    Known next ipSet draws := by
  intro name ip hip
  apply hknown name ip
  rcases hle name with hempty | hsame
  · rw [hempty, parse4_empty] at hip
    contradiction
  · rwa [← hsame]

theorem Known.set {store next : Directory} {ipSet : Finset ℕ} {draws : List ℕ} {k : String}
    {ip : ℕ} (hknown : Known store ipSet draws) (hsmall : ip < 2 ^ 32)
    (hnext : ∀ name, ipOf next name =
      if name = k then GoNet.ipString ip else ipOf store name) :
    Known next (insert ip ipSet) draws := by
  intro name found hfound
  rw [hnext] at hfound
  by_cases hname : name = k
  · rw [if_pos hname, GoNet.parse4_ipString hsmall, Option.some.injEq] at hfound
    exact .inl (hfound ▸ Finset.mem_insert_self ip ipSet)
  · rw [if_neg hname] at hfound
    exact (hknown name found hfound).imp_left Finset.mem_insert_of_mem

theorem ipOf_deleteKey_le {store next : Directory} {k : String}
    (hdelete : deleteKey k "IP" store = some next) (name : String) :
    ipOf next name = "" ∨ ipOf next name = ipOf store name := by
  unfold deleteKey at hdelete
  split at hdelete
  next =>
    rw [← Option.some.inj hdelete, ipOf_deleteKey_ip]
    by_cases hname : name = k
    · exact .inl (if_pos hname)
    · exact .inr (if_neg hname)
  next => contradiction

theorem allocate_good (faults : Faults) (names : List String) (ipSet : Finset ℕ)
    (draws : List ℕ) (dir : Directory) (w : World) (hgood : Good w)
    (hgateway : gateway ∈ ipSet) (hknown : Known w.store ipSet draws) :
    Good (allocate faults containerPrefix names ipSet draws dir w).2 := by
  induction names generalizing ipSet draws dir w with
  | nil => exact hgood
  | cons k rest ih =>
      rw [allocate_cons]
      have hrandom := randomIP_spec ipSet containerPrefix 256 draws
      set drawn := randomIP ipSet containerPrefix 256 draws with hdrawn
      have hrest : Known w.store ipSet drawn.2 := hknown.fewer hrandom.1
      by_cases hzero : drawn.1 = 0
      · simp only [if_pos hzero]
        apply ih ipSet drawn.2 _ _ _ hgateway
        · rcases op_cases w (faults.ip k) (deleteKey k "IP") with
            hstay | ⟨_, store, hdelete, hmove⟩
          · rw [hstay]
            exact hrest
          · rw [hmove]
            exact hrest.of_le (ipOf_deleteKey_le hdelete)
        · apply hgood.op
          intro store hdelete
          exact hgood.now.of_le (ipOf_deleteKey_le hdelete)
      · simp only [if_neg hzero]
        rcases hrandom.2 hzero with ⟨hfree, d, hd, hcandidate⟩
        have hset : ∀ store, setKey k "IP" (GoNet.ipString drawn.1) w.store = some store →
            ∀ name, ipOf store name =
              if name = k then GoNet.ipString drawn.1 else ipOf w.store name := by
          intro store hstore name
          rw [← Option.some.inj hstore, ipOf_setKey_ip]
        have hrange : drawn.1 / 2 ^ 16 * 2 ^ 16 = containerPrefix := by
          rw [hcandidate]
          exact candidate_range (by decide) d
        have hunused : ∀ name, GoNet.parse4 (ipOf w.store name) ≠ some drawn.1 := by
          intro name hname
          rcases hknown name drawn.1 hname with hin | hout
          · exact hfree hin
          · exact hout d hd hcandidate.symm
        have hnext : Good
            (w.op (faults.ip k) (setKey k "IP" (GoNet.ipString drawn.1))).2 := by
          apply hgood.op
          intro store hstore
          apply hgood.now.set hrange _ hunused (hset store hstore)
          intro hequal
          exact hfree (hequal ▸ hgateway)
        rcases op_cases w (faults.ip k) (setKey k "IP" (GoNet.ipString drawn.1)) with
          hstay | ⟨_, store, hstore, hmove⟩
        · rw [hstay] at hnext ⊢
          exact ih ipSet drawn.2 dir _ hnext hgateway hrest
        · rw [hmove] at hnext ⊢
          apply ih _ drawn.2 _ _ hnext (Finset.mem_insert_of_mem hgateway)
          apply hrest.set _ (hset store hstore)
          unfold containerPrefix at hrange
          omega

theorem writeLabels_good (marshal : List String → String) (round : Round)
    (names : List String) (dir : Directory) (w : World) (hgood : Good w) :
    Good (writeLabels marshal round names dir w) := by
  induction names generalizing dir w with
  | nil => exact hgood
  | cons id rest ih =>
      rw [writeLabels_cons]
      set js := marshal (sortStrings (labelsFor round.containers id)) with hjs
      by_cases hsame : js = ((children dir id).lookup "Labels").getD ""
      · simp only [if_pos hsame]
        exact ih dir w hgood
      · simp only [if_neg hsame]
        have hnext : Good
            (w.op (round.faults.labels id) (setKey id "Labels" js)).2 := by
          apply hgood.op
          intro store hstore
          apply hgood.now.of_le
          intro name
          right
          rw [← Option.some.inj hstore, ipOf_setKey_labels]
        rcases op_cases w (round.faults.labels id) (setKey id "Labels" js) with
          hstay | ⟨_, store, _, hmove⟩
        · rw [hstay] at hnext ⊢
          exact ih dir _ hnext
        · rw [hmove] at hnext ⊢
          exact ih _ _ hnext

/-! ## Hardware addresses -/

def hexDigit (n : ℕ) : Char :=
  if n < 10 then Char.ofNat ('0'.toNat + n) else Char.ofNat ('a'.toNat + (n - 10))

def hexByte (n : ℕ) : List Char := [hexDigit (n / 16), hexDigit (n % 16)]

/-- The format of `readContainerTransact`: 02:00 and the four octets. -/
def macChars (ip : ℕ) : List Char :=
  ['0', '2', ':', '0', '0', ':'] ++ hexByte (ip / 2 ^ 24 % 256) ++
    ':' :: hexByte (ip / 2 ^ 16 % 256) ++ ':' :: hexByte (ip / 2 ^ 8 % 256) ++
    ':' :: hexByte (ip % 256)

def mac (store : Directory) (name : String) : Option String :=
  (GoNet.parse4 (ipOf store name)).map fun ip => String.ofList (macChars ip)

def gatewayMAC : String := "02:00:0a:00:00:01"

theorem hexDigit_injective : ∀ m < 16, ∀ n < 16, hexDigit m = hexDigit n → m = n := by
  decide

theorem hexByte_injective {m n : ℕ} (hm : m < 256) (hn : n < 256)
    (heq : hexByte m = hexByte n) : m = n := by
  simp only [hexByte, List.cons.injEq, and_true] at heq
  have hhigh := hexDigit_injective (m / 16) (by omega) (n / 16) (by omega) heq.1
  have hlow := hexDigit_injective (m % 16) (by omega) (n % 16) (by omega) heq.2
  omega

theorem macChars_injective {m n : ℕ} (hm : m < 2 ^ 32) (hn : n < 2 ^ 32)
    (heq : macChars m = macChars n) : m = n := by
  have hbytes : ∀ k, k % 256 < 256 := fun k => Nat.mod_lt k (by omega)
  simp only [macChars, hexByte, List.cons_append, List.nil_append, List.cons.injEq,
    true_and, and_true] at heq
  rcases heq with ⟨ha, hb, hc, hd, he, hf, hg, hh⟩
  have hfirst := hexByte_injective (hbytes (m / 2 ^ 24)) (hbytes (n / 2 ^ 24))
    (by rw [hexByte, hexByte, ha, hb])
  have hsecond := hexByte_injective (hbytes (m / 2 ^ 16)) (hbytes (n / 2 ^ 16))
    (by rw [hexByte, hexByte, hc, hd])
  have hthird := hexByte_injective (hbytes (m / 2 ^ 8)) (hbytes (n / 2 ^ 8))
    (by rw [hexByte, hexByte, he, hf])
  have hfourth := hexByte_injective (hbytes m) (hbytes n)
    (by rw [hexByte, hexByte, hg, hh])
  omega

structure DistinctMacs (store : Directory) : Prop where
  distinct : ∀ a b text, a ≠ b → mac store a = some text → mac store b ≠ some text
  noGateway : ∀ name, mac store name ≠ some gatewayMAC

theorem Sound.distinctMacs {store : Directory} (hsound : Sound store) :
    DistinctMacs store := by
  have hsmall : ∀ name ip, GoNet.parse4 (ipOf store name) = some ip → ip < 2 ^ 32 := by
    intro name ip hip
    have hrange := hsound.inPrefix name ip hip
    unfold containerPrefix at hrange
    omega
  constructor
  · intro a b text hne ha hb
    rcases Option.map_eq_some_iff.mp ha with ⟨x, hx, rfl⟩
    rcases Option.map_eq_some_iff.mp hb with ⟨y, hy, htext⟩
    have hchars : macChars y = macChars x := String.ofList_injective htext
    have hequal := macChars_injective (hsmall b y hy) (hsmall a x hx) hchars
    exact hsound.distinct a b x hne hx (hequal ▸ hy)
  · intro name hname
    rcases Option.map_eq_some_iff.mp hname with ⟨x, hx, htext⟩
    have hgateway : gatewayMAC = String.ofList (macChars gateway) := by decide
    rw [hgateway] at htext
    have hchars : macChars x = macChars gateway := String.ofList_injective htext
    have hequal := macChars_injective (hsmall name x hx) (by decide) hchars
    exact hsound.noGateway name (hequal ▸ hx)

/-! ## Runs -/

/-- No draw of the round hits the address of an entry that the round tries to
delete and cannot. -/
def Admits (w : World) (round : Round) : Prop :=
  ∀ name ∈ w.store.keys, name ∉ round.ids → round.faults.delete name = true →
    ∀ ip ∈ GoNet.parse4 (ipOf w.store name),
      ∀ draw ∈ round.draws, candidate draw containerPrefix ≠ ip

instance (w : World) (round : Round) : Decidable (Admits w round) :=
  inferInstanceAs (Decidable (∀ name ∈ w.store.keys, _))

theorem known_of_faithful {store before : Directory} {dir : Directory} {draws : List ℕ}
    (hsound : Sound store) (hcopy : ∀ k ∈ dir, ipOf dir k = ipOf store k)
    (hmissing : ∀ k ∉ dir, ipOf store k = "" ∨
      (ipOf store k = ipOf before k ∧
        ∀ ip ∈ GoNet.parse4 (ipOf before k),
          ∀ draw ∈ draws, candidate draw containerPrefix ≠ ip)) :
    Known store (insert (parseIP gatewayIP containerPrefix)
      (assigned dir containerPrefix)) draws := by
  intro k ip hip
  by_cases hk : k ∈ dir
  · left
    have hrange := hsound.inPrefix k ip hip
    have hparse : parseIP (ipOf dir k) containerPrefix = ip := by
      simp only [parseIP, hcopy k hk, hip]
      exact if_neg (not_not.mpr hrange)
    have hpositive : ip ≠ 0 := by
      unfold containerPrefix at hrange
      omega
    apply Finset.mem_insert_of_mem
    rw [assigned, Finset.mem_erase, List.mem_toFinset]
    exact ⟨hpositive, List.mem_map.mpr ⟨k, hk, hparse⟩⟩
  · rcases hmissing k hk with hempty | ⟨hsame, hout⟩
    · rw [hempty, parse4_empty] at hip
      contradiction
    · rw [hsame] at hip
      exact .inr (hout ip hip)

theorem writeStoreContainers_good (marshal : List String → String) {w : World}
    {round : Round} (hgood : Good w) (hadmits : Admits w round) :
    Good (writeStoreContainers marshal w round) := by
  rw [writeStoreContainers_eq]
  have hfirst : Good (w.op true some).2 := hgood.op true fun _ heq =>
    Option.some.inj heq ▸ hgood.now
  have hstore : (w.op true some).2.store = w.store := rfl
  have hread : Good ((w.op true some).2.op round.faults.getTree some).2 :=
    hfirst.op _ fun _ heq => Option.some.inj heq ▸ hfirst.now
  rcases op_cases (w.op true some).2 round.faults.getTree some with
    hstay | ⟨_, store, heq, hmove⟩
  · rw [hstay] at hread
    simp only [hstay]
    exact hread
  · obtain rfl := Option.some.inj heq
    rw [hmove] at hread
    simp only [hmove]
    rcases syncDir_spec round _ hread with ⟨hsynced, hcopy, hmissing⟩
    apply writeLabels_good
    apply allocate_good
    · exact hsynced
    · have hgateway : parseIP gatewayIP containerPrefix = gateway := by decide
      rw [hgateway]
      exact Finset.mem_insert_self _ _
    · apply known_of_faithful hsynced.now hcopy
      intro k hk
      rcases hmissing k hk with hempty | ⟨hold, hids, hfault, hsame⟩
      · exact .inl hempty
      · exact .inr ⟨hsame, hadmits k hold hids hfault⟩

def initial : World := ⟨∅, [∅]⟩

theorem sound_empty : Sound ∅ := by
  have hnone : ∀ name, GoNet.parse4 (ipOf ∅ name) = none := fun _ => parse4_empty
  constructor
  · intro name ip hip
    rw [hnone] at hip
    contradiction
  · intro a b ip _ ha
    rw [hnone] at ha
    contradiction
  · intro name hname
    rw [hnone] at hname
    contradiction

/-- If no draw of a round hits the address of an entry whose deletion fails in
that round, then after every operation of every round no two entries hold the
same address, none holds that of the gateway, and the hardware addresses are
distinct too. -/
theorem addresses_unique (marshal : List String → String) (rounds : List Round)
    (hguard : GuardedRun.Guarded (writeStoreContainers marshal) Admits initial rounds) :
    ∀ w ∈ GuardedRun.states (writeStoreContainers marshal) initial rounds,
      ∀ store ∈ w.history, Sound store ∧ DistinctMacs store := by
  have hstart : Good initial := by
    constructor
    · exact sound_empty
    · intro store hstore
      rw [List.mem_singleton.mp hstore]
      exact sound_empty
  have hgood : ∀ w ∈ GuardedRun.states (writeStoreContainers marshal) initial rounds,
      Good w := by
    apply GuardedRun.invariant_of_guarded _ hstart hguard
    intro w round hw hadmits
    exact writeStoreContainers_good marshal hw hadmits
  intro w hw store hstore
  have hsound := (hgood w hw).always store hstore
  exact ⟨hsound, hsound.distinctMacs⟩

/-- Container "a" runs, then "b" replaces it but "a" cannot be deleted. -/
def replaced (draw : ℕ) : List Round :=
  [{ containers := [{ ID := 1, schedID := "a" }]
     faults := Faults.none
     draws := [5]
     keyOrder := .asStored _
     ipOrder := .asStored _
     labelOrder := .asStored _ },
   { containers := [{ ID := 2, schedID := "b" }]
     faults := { Faults.none with delete := fun _ => true }
     draws := [draw]
     keyOrder := .asStored _
     ipOrder := .asStored _
     labelOrder := .asStored _ }]

theorem addresses_unique_otherDraw :
    GuardedRun.Guarded (writeStoreContainers String.join) Admits initial (replaced 6) ∧
      Sound ((GuardedRun.final (writeStoreContainers String.join) initial
        (replaced 6)).history.getLast (by decide +kernel)) := by
  have hguard : GuardedRun.Guarded (writeStoreContainers String.join) Admits initial
      (replaced 6) := by
    decide
  exact ⟨hguard, (addresses_unique String.join _ hguard _
    (GuardedRun.final_mem_states _ _ _) _ (List.getLast_mem _)).1⟩

/-- The address of the entry that could not be deleted is handed out again. -/
theorem failedDelete_duplicate :
    ipOf (GuardedRun.final (writeStoreContainers String.join) initial
        (replaced 5)).store "a" = "10.0.0.5" ∧
      ipOf (GuardedRun.final (writeStoreContainers String.join) initial
        (replaced 5)).store "b" = "10.0.0.5" := by
  decide

end NetworkStore
end Di
