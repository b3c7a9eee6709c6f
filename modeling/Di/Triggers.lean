import Di.Database
import Di.GuardedRun

/-!
# Triggers

The goroutine of the database takes one transaction at a time, runs it, replies
and then alerts the tables whose counter has moved.  A trigger is a channel with
one slot: an alert fills the slot unless it is full.  The goroutine that owns the
trigger empties the slot and later reads the tables in a transaction of its own.

The state machine below has one step for each action of the database that
another goroutine can observe, so a run is an arbitrary interleaving: a slot may
be emptied, filled by a tick or its trigger stopped between any two of them.
Rows are values: a row that is changed in place without `Commit` is outside of
the model.  The counters do not wrap around.
-/

namespace Di
namespace Triggers

open Db

/-- The fields of `table` besides the rows and `seq`. -/
structure Watch where
  triggers : List ℕ := []
  trigSeq : ℕ := 0

/-- A trigger together with the goroutine that receives from it. -/
structure Client where
  tables : List TableType := []
  /-- The slot of `C`. -/
  full : Bool := false
  /-- `stop` is closed. -/
  stopped : Bool := false
  /-- A notification was received and the tables have not been read since. -/
  received : Bool := false
  /-- The tables that changed since the last read, or since the registration. -/
  changed : TableType → Bool := fun _ => false

inductive Op
  | insert (t : TableType)
  | commit (t : TableType) (row : RowOf t)
  | remove (t : TableType) (row : RowOf t)
  | register (tables : List TableType)
  /-- The owner of the trigger looks at the tables. -/
  | read (id : ℕ)

/-- Where the goroutine of the database stands. -/
inductive Phase
  | waiting
  | running (ops : List Op)
  | replying
  | alerting (tables : List TableType)
  /-- Between the triggers of the table `t`. -/
  | visiting (t : TableType) (triggers : List ℕ) (tables : List TableType)
  /-- Between the two `select` statements for the trigger `id`. -/
  | sending (t : TableType) (id : ℕ) (triggers : List ℕ) (tables : List TableType)
  | crashed

structure System where
  db : Database
  watch : TableType → Watch
  /-- Triggers are numbered in the order of their registration. -/
  clients : ℕ → Client
  count : ℕ
  phase : Phase

def initial : System where
  db := .new
  watch := fun _ => {}
  clients := fun _ => {}
  count := 0
  phase := .waiting

def allTables : List TableType :=
  [.cluster, .machine, .container, .minion, .connection, .label, .etcd]

def System.setClient (s : System) (id : ℕ) (client : Client) : System :=
  { s with clients := Function.update s.clients id client }

def System.setPhase (s : System) (phase : Phase) : System := { s with phase := phase }

/-- Every trigger remembers which tables have other rows now. -/
def System.write (s : System) (db : Database) : System :=
  { s with
    db := db
    clients := fun id => { s.clients id with
      changed := fun t =>
        (s.clients id).changed t || decide ((s.db.tables t).rows ≠ (db.tables t).rows) } }

def System.register (s : System) (tables : List TableType) : System :=
  { s with
    watch := fun t =>
      if t ∈ tables then { s.watch t with triggers := s.count :: (s.watch t).triggers }
      else s.watch t
    clients := Function.update s.clients s.count { tables := tables }
    count := s.count + 1 }

/-- `none` is a panic. -/
def System.runOp (s : System) : Op → Option System
  | .insert t => some (s.write (s.db.insertRow t).2)
  | .commit t row => (s.db.commit t row).map s.write
  | .remove t row => some (s.write (s.db.remove t row))
  | .register tables => some (s.register tables)
  | .read id =>
      some (s.setClient id { s.clients id with received := false, changed := fun _ => false })

def System.dropTrigger (s : System) (t : TableType) (id : ℕ) : System :=
  { s with
    watch := Function.update s.watch t
      { s.watch t with triggers := (s.watch t).triggers.filter (· ≠ id) } }

/-- One action of `run` and of the `alert` it calls. -/
def System.serverStep (s : System) (tableOrder : IterOrder TableType)
    (triggerOrder : IterOrder ℕ) : System :=
  match s.phase with
  | .waiting => s
  | .running [] => s.setPhase .replying
  | .running (op :: ops) =>
      match s.runOp op with
      | some next => next.setPhase (.running ops)
      | none => s.setPhase .crashed
  | .replying => s.setPhase (.alerting (tableOrder.visit allTables))
  | .alerting [] => s.setPhase .waiting
  | .alerting (t :: rest) =>
      if (s.db.tables t).seq = (s.watch t).trigSeq then s.setPhase (.alerting rest)
      else
        { s with
          watch := Function.update s.watch t
            { s.watch t with trigSeq := (s.db.tables t).seq }
          phase := .visiting t (triggerOrder.visit (s.watch t).triggers) rest }
  | .visiting _ [] rest => s.setPhase (.alerting rest)
  | .visiting t (id :: ids) rest =>
      let s := if (s.clients id).stopped then s.dropTrigger t id else s
      s.setPhase (.sending t id ids rest)
  | .sending t id ids rest =>
      (s.setClient id { s.clients id with full := true }).setPhase (.visiting t ids rest)
  | .crashed => s

inductive Event
  /-- A transaction arrives. -/
  | transact (ops : List Op)
  | server (tableOrder : IterOrder TableType) (triggerOrder : IterOrder ℕ)
  | receive (id : ℕ)
  /-- The goroutine of `TriggerTick`. -/
  | tick (id : ℕ)
  | stop (id : ℕ)

/-- An event that is not possible leaves the state as it is. -/
def System.step (s : System) : Event → System
  | .transact ops =>
      match s.phase with
      | .waiting => s.setPhase (.running ops)
      | _ => s
  | .server tableOrder triggerOrder => s.serverStep tableOrder triggerOrder
  | .receive id =>
      if (s.clients id).full then
        s.setClient id { s.clients id with full := false, received := true }
      else s
  | .tick id => s.setClient id { s.clients id with full := true }
  | .stop id => s.setClient id { s.clients id with stopped := true }

/-! ## The counters -/

/-- A table whose rows change moves its counter. -/
structure Counted (before after : Database) : Prop where
  mono : ∀ t, (before.tables t).seq ≤ (after.tables t).seq
  moves : ∀ t, (before.tables t).rows ≠ (after.tables t).rows →
    (before.tables t).seq < (after.tables t).seq

theorem Counted.of_table {before after : Database} (t : TableType)
    (hother : ∀ other, other ≠ t → after.tables other = before.tables other)
    (hmono : (before.tables t).seq ≤ (after.tables t).seq)
    (hmoves : (before.tables t).rows ≠ (after.tables t).rows →
      (before.tables t).seq < (after.tables t).seq) :
    Counted before after := by
  constructor
  · intro other
    by_cases heq : other = t
    · exact heq ▸ hmono
    · rw [hother other heq]
  · intro other
    by_cases heq : other = t
    · exact heq ▸ hmoves
    · rw [hother other heq]
      exact fun hne => absurd rfl hne

theorem insertRow_counted (db : Database) (t : TableType) :
    Counted db (db.insertRow t).2 := by
  have hseq : ((db.insertRow t).2.tables t).seq = (db.tables t).seq + 1 := by
    rw [Database.insertRow_table]
    rfl
  apply Counted.of_table t fun other hne => db.insertRow_other hne
  · omega
  · intro _
    omega

theorem remove_counted (db : Database) (t : TableType) (row : RowOf t) :
    Counted db (db.remove t row) := by
  have hseq : ((db.remove t row).tables t).seq = (db.tables t).seq + 1 := by
    rw [Database.remove_table]
    rfl
  apply Counted.of_table t fun other hne => db.remove_other row hne
  · omega
  · intro _
    omega

theorem commit_counted {db next : Database} {t : TableType} {row : RowOf t}
    (hcommit : db.commit t row = some next) : Counted db next := by
  rcases Database.commit_eq_some hcommit with ⟨htable, _, hother⟩
  have hcases : next.tables t = db.tables t ∨
      (next.tables t).seq = (db.tables t).seq + 1 := by
    unfold Table.commit at htable
    split at htable
    next => contradiction
    next old _ =>
      split at htable
      next => exact .inl (Option.some.inj htable).symm
      next => exact .inr (congrArg Table.seq (Option.some.inj htable)).symm
  apply Counted.of_table t hother
  · rcases hcases with hsame | hmoved
    · rw [hsame]
    · omega
  · rcases hcases with hsame | hmoved
    · rw [hsame]
      exact fun hne => absurd rfl hne
    · omega

/-! ## The invariant -/

/-- The goroutine of the database will still alert the trigger `id` because of `t`. -/
def System.Pending (s : System) (id : ℕ) (t : TableType) : Prop :=
  match s.phase with
  | .waiting => False
  | .running _ => (s.watch t).trigSeq ≠ (s.db.tables t).seq
  | .replying => (s.watch t).trigSeq ≠ (s.db.tables t).seq
  | .alerting tables => t ∈ tables ∧ (s.watch t).trigSeq ≠ (s.db.tables t).seq
  | .visiting current triggers tables =>
      (t = current ∧ id ∈ triggers) ∨
        (t ∈ tables ∧ (s.watch t).trigSeq ≠ (s.db.tables t).seq)
  | .sending current next triggers tables =>
      (t = current ∧ (id = next ∨ id ∈ triggers)) ∨
        (t ∈ tables ∧ (s.watch t).trigSeq ≠ (s.db.tables t).seq)
  | .crashed => True

def Client.Noticed (client : Client) : Prop := client.full = true ∨ client.received = true

structure System.Inv (s : System) : Prop where
  trigSeq_le : ∀ t, (s.watch t).trigSeq ≤ (s.db.tables t).seq
  watched : ∀ id < s.count, (s.clients id).stopped = false →
    ∀ t ∈ (s.clients id).tables, id ∈ (s.watch t).triggers
  noticed : ∀ id < s.count, (s.clients id).stopped = false →
    ∀ t ∈ (s.clients id).tables, (s.clients id).changed t = true →
      (s.clients id).Noticed ∨ s.Pending id t

theorem System.Inv.setPhase {s : System} (hinv : s.Inv) (phase : Phase)
    (hpending : ∀ id < s.count, (s.clients id).stopped = false →
      ∀ t ∈ (s.clients id).tables, s.Pending id t →
        (s.clients id).Noticed ∨ (s.setPhase phase).Pending id t) :
    (s.setPhase phase).Inv := by
  refine ⟨hinv.trigSeq_le, hinv.watched, ?_⟩
  intro id hid hrunning t ht hchanged
  rcases hinv.noticed id hid hrunning t ht hchanged with hnoticed | hold
  · exact .inl hnoticed
  · exact hpending id hid hrunning t ht hold

theorem System.Inv.setClient {s : System} (hinv : s.Inv) (id : ℕ) (client : Client)
    (htables : client.tables = (s.clients id).tables)
    (hstopped : client.stopped = false → (s.clients id).stopped = false)
    (hnoticed : client.stopped = false → ∀ t, client.changed t = true → client.Noticed) :
    (s.setClient id client).Inv := by
  have hclient : ∀ other, (s.setClient id client).clients other =
      if other = id then client else s.clients other := by
    intro other
    exact Function.update_apply s.clients id client other
  refine ⟨hinv.trigSeq_le, ?_, ?_⟩
  · intro other hother hrunning t ht
    rw [hclient other] at hrunning ht
    by_cases heq : other = id
    · subst heq
      rw [if_pos rfl] at hrunning ht
      exact hinv.watched other hother (hstopped hrunning) t (htables ▸ ht)
    · rw [if_neg heq] at hrunning ht
      exact hinv.watched other hother hrunning t ht
  · intro other hother hrunning t ht hchanged
    rw [hclient other] at hrunning ht hchanged ⊢
    by_cases heq : other = id
    · rw [if_pos heq] at hrunning ht hchanged ⊢
      exact .inl (hnoticed hrunning t hchanged)
    · rw [if_neg heq] at hrunning ht hchanged ⊢
      exact hinv.noticed other hother hrunning t ht hchanged

theorem System.Inv.write {s : System} {db : Database} {ops : List Op} (hinv : s.Inv)
    (hphase : s.phase = .running ops) (hcounted : Counted s.db db) : (s.write db).Inv := by
  refine ⟨?_, hinv.watched, ?_⟩
  · intro t
    exact (hinv.trigSeq_le t).trans (hcounted.mono t)
  · intro id hid hrunning t ht hchanged
    have hle := hinv.trigSeq_le t
    have hmono := hcounted.mono t
    have hpending : (s.watch t).trigSeq ≠ (db.tables t).seq → (s.write db).Pending id t := by
      intro hne
      simp only [System.Pending, System.write, hphase]
      exact hne
    rcases Bool.or_eq_true_iff.mp hchanged with hbefore | hnow
    · rcases hinv.noticed id hid hrunning t ht hbefore with hnoticed | hold
      · exact .inl hnoticed
      · simp only [System.Pending, hphase] at hold
        exact .inr (hpending (by omega))
    · have hmoves := hcounted.moves t (of_decide_eq_true hnow)
      exact .inr (hpending (by omega))

theorem System.Inv.register {s : System} {ops : List Op} (hinv : s.Inv)
    (hphase : s.phase = .running ops) (tables : List TableType) : (s.register tables).Inv := by
  have htrigSeq : ∀ t, ((s.register tables).watch t).trigSeq = (s.watch t).trigSeq := by
    intro t
    simp only [System.register]
    split <;> rfl
  have hold : ∀ id < s.count, (s.register tables).clients id = s.clients id := by
    intro id hid
    exact Function.update_of_ne hid.ne _ _
  have hnew : (s.register tables).clients s.count = { tables := tables } :=
    Function.update_self _ _ _
  have hcases : ∀ id < (s.register tables).count, id < s.count ∨ id = s.count := by
    intro id hid
    exact Nat.lt_succ_iff_lt_or_eq.mp hid
  refine ⟨?_, ?_, ?_⟩
  · intro t
    rw [htrigSeq]
    exact hinv.trigSeq_le t
  · intro id hid hrunning t ht
    simp only [System.register]
    rcases hcases id hid with hless | rfl
    · rw [hold id hless] at hrunning ht
      have hwatched := hinv.watched id hless hrunning t ht
      split
      · exact List.mem_cons_of_mem s.count hwatched
      · exact hwatched
    · rw [hnew] at ht
      rw [if_pos ht]
      exact List.mem_cons_self
  · intro id hid hrunning t ht hchanged
    rcases hcases id hid with hless | rfl
    · rw [hold id hless] at hrunning ht hchanged ⊢
      rcases hinv.noticed id hless hrunning t ht hchanged with hnoticed | hpending
      · exact .inl hnoticed
      · right
        have hphase' : (s.register tables).phase = .running ops := hphase
        simp only [System.Pending, hphase', hphase, htrigSeq] at hpending ⊢
        exact hpending
    · rw [hnew] at hchanged
      contradiction

theorem System.Inv.runOp {s next : System} {op : Op} {ops : List Op} (hinv : s.Inv)
    (hphase : s.phase = .running ops) (hrun : s.runOp op = some next) :
    next.Inv ∧ next.phase = s.phase := by
  cases op with
  | insert t =>
      obtain rfl := Option.some.inj hrun
      exact ⟨hinv.write hphase (insertRow_counted s.db t), rfl⟩
  | commit t row =>
      rcases Option.map_eq_some_iff.mp hrun with ⟨db, hcommit, rfl⟩
      exact ⟨hinv.write hphase (commit_counted hcommit), rfl⟩
  | remove t row =>
      obtain rfl := Option.some.inj hrun
      exact ⟨hinv.write hphase (remove_counted s.db t row), rfl⟩
  | register tables =>
      obtain rfl := Option.some.inj hrun
      exact ⟨hinv.register hphase tables, rfl⟩
  | read id =>
      obtain rfl := Option.some.inj hrun
      refine ⟨hinv.setClient id _ rfl (fun h => h) ?_, rfl⟩
      intro _ t hchanged
      contradiction

theorem System.Inv.dropTrigger {s : System} {id : ℕ} (hinv : s.Inv) (t : TableType)
    (hstopped : (s.clients id).stopped = true) : (s.dropTrigger t id).Inv := by
  have hwatch : ∀ other, (s.dropTrigger t id).watch other =
      if other = t then
        { s.watch t with triggers := (s.watch t).triggers.filter (· ≠ id) }
      else s.watch other := by
    intro other
    exact Function.update_apply s.watch t _ other
  have htrigSeq : ∀ other, ((s.dropTrigger t id).watch other).trigSeq =
      (s.watch other).trigSeq := by
    intro other
    rw [hwatch]
    by_cases heq : other = t
    · rw [if_pos heq, heq]
    · rw [if_neg heq]
  refine ⟨?_, ?_, ?_⟩
  · intro other
    rw [htrigSeq]
    exact hinv.trigSeq_le other
  · intro client hclient hrunning other hother
    have hwatched := hinv.watched client hclient hrunning other hother
    rw [hwatch]
    by_cases heq : other = t
    · have hne : client ≠ id := by
        rintro rfl
        exact Bool.false_ne_true (hrunning.symm.trans hstopped)
      rw [if_pos heq, List.mem_filter]
      exact ⟨heq ▸ hwatched, by simpa using hne⟩
    · rw [if_neg heq]
      exact hwatched
  · intro client hclient hrunning other hother hchanged
    rcases hinv.noticed client hclient hrunning other hother hchanged with hnoticed | hpending
    · exact .inl hnoticed
    · right
      have hphase : (s.dropTrigger t id).phase = s.phase := rfl
      have hdb : (s.dropTrigger t id).db = s.db := rfl
      simpa only [System.Pending, hphase, hdb, htrigSeq] using hpending

theorem System.Inv.visit {s : System} {t : TableType} {rest : List TableType} (hinv : s.Inv)
    (hphase : s.phase = .alerting (t :: rest)) (triggerOrder : IterOrder ℕ) :
    System.Inv { s with
      watch := Function.update s.watch t { s.watch t with trigSeq := (s.db.tables t).seq }
      phase := .visiting t (triggerOrder.visit (s.watch t).triggers) rest } := by
  have hwatch : ∀ other, Function.update s.watch t
      { s.watch t with trigSeq := (s.db.tables t).seq } other =
        if other = t then { s.watch t with trigSeq := (s.db.tables t).seq }
        else s.watch other := by
    intro other
    exact Function.update_apply s.watch t _ other
  refine ⟨?_, ?_, ?_⟩
  · intro other
    simp only [hwatch]
    by_cases heq : other = t
    · rw [if_pos heq, heq]
    · rw [if_neg heq]
      exact hinv.trigSeq_le other
  · intro id hid hrunning other hother
    have hwatched := hinv.watched id hid hrunning other hother
    simp only [hwatch]
    by_cases heq : other = t
    · rw [if_pos heq]
      exact heq ▸ hwatched
    · rw [if_neg heq]
      exact hwatched
  · intro id hid hrunning other hother hchanged
    rcases hinv.noticed id hid hrunning other hother hchanged with hnoticed | hpending
    · exact .inl hnoticed
    · right
      simp only [System.Pending, hphase] at hpending
      simp only [System.Pending, hwatch, IterOrder.mem_visit]
      by_cases heq : other = t
      · exact .inl ⟨heq, heq ▸ hinv.watched id hid hrunning other hother⟩
      · rw [if_neg heq]
        exact .inr ⟨List.mem_of_ne_of_mem heq hpending.1, hpending.2⟩

/-! ## Runs -/

theorem System.Inv.serverStep {s : System} (hinv : s.Inv) (tableOrder : IterOrder TableType)
    (triggerOrder : IterOrder ℕ) : (s.serverStep tableOrder triggerOrder).Inv := by
  unfold System.serverStep
  split
  next => exact hinv
  next hphase =>
    apply hinv.setPhase
    intro id _ _ t _ hpending
    simp only [System.Pending, hphase] at hpending
    exact .inr hpending
  next op ops hphase =>
    split
    next next hrun =>
      rcases hinv.runOp hphase hrun with ⟨hnext, hsame⟩
      apply hnext.setPhase
      intro id _ _ t _ hpending
      simp only [System.Pending, hsame, hphase] at hpending
      exact .inr hpending
    next =>
      apply hinv.setPhase
      intro id _ _ t _ _
      exact .inr trivial
  next hphase =>
    apply hinv.setPhase
    intro id _ _ t _ hpending
    simp only [System.Pending, hphase] at hpending
    right
    simp only [System.Pending, System.setPhase, IterOrder.mem_visit]
    exact ⟨by cases t <;> decide, hpending⟩
  next hphase =>
    apply hinv.setPhase
    intro id _ _ t _ hpending
    simp [System.Pending, hphase] at hpending
  next t rest hphase =>
    split
    next hequal =>
      apply hinv.setPhase
      intro id _ _ other _ hpending
      simp only [System.Pending, hphase] at hpending
      have hne : other ≠ t := by
        rintro rfl
        exact hpending.2 hequal.symm
      exact .inr ⟨List.mem_of_ne_of_mem hne hpending.1, hpending.2⟩
    next => exact hinv.visit hphase triggerOrder
  next t rest hphase =>
    apply hinv.setPhase
    intro id _ _ other _ hpending
    simp only [System.Pending, hphase, List.not_mem_nil, and_false, false_or] at hpending
    exact .inr hpending
  next t id ids rest hphase =>
    have hdropped : System.Inv (if (s.clients id).stopped then s.dropTrigger t id else s) ∧
        System.phase (if (s.clients id).stopped then s.dropTrigger t id else s) = s.phase := by
      cases hstopped : (s.clients id).stopped with
      | false => exact ⟨hinv, rfl⟩
      | true => exact ⟨hinv.dropTrigger t hstopped, rfl⟩
    apply hdropped.1.setPhase
    intro other _ _ table _ hpending
    simp only [System.Pending, hdropped.2, hphase, List.mem_cons] at hpending
    exact .inr hpending
  next t id ids rest hphase =>
    have hfull : (s.setClient id { s.clients id with full := true }).Inv :=
      hinv.setClient id _ rfl (fun h => h) fun _ _ _ => .inl rfl
    apply hfull.setPhase
    intro other _ _ table _ hpending
    have hphase' : (s.setClient id { s.clients id with full := true }).phase = s.phase := rfl
    simp only [System.Pending, hphase', hphase] at hpending
    by_cases heq : other = id
    · left
      left
      subst heq
      simp [System.setClient]
    · right
      simpa only [System.Pending, System.setPhase, heq, false_or] using hpending
  next => exact hinv

theorem System.Inv.step {s : System} (hinv : s.Inv) (event : Event) : (s.step event).Inv := by
  cases event with
  | transact ops =>
      simp only [System.step]
      split
      next hphase =>
        apply hinv.setPhase
        intro id _ _ t _ hpending
        simp only [System.Pending, hphase] at hpending
      next => exact hinv
  | server tableOrder triggerOrder => exact hinv.serverStep tableOrder triggerOrder
  | receive id =>
      simp only [System.step]
      split
      next => exact hinv.setClient id _ rfl (fun h => h) fun _ _ _ => .inr rfl
      next => exact hinv
  | tick id => exact hinv.setClient id _ rfl (fun h => h) fun _ _ _ => .inl rfl
  | stop id =>
      exact hinv.setClient id { s.clients id with stopped := true } rfl
        (fun hrunning => absurd hrunning (by simp)) fun hrunning => absurd hrunning (by simp)

/-- In every interleaving, when the database waits for a transaction, a trigger
that runs and watches a table which changed since its owner's last read has a
notification in its slot, or its owner has one and has not read yet. -/
theorem no_lost_wakeup (events : List Event) (s : System)
    (hvisited : s ∈ GuardedRun.states System.step initial events)
    (hwaiting : s.phase = .waiting) (id : ℕ) (hregistered : id < s.count)
    (hrunning : (s.clients id).stopped = false) :
    (∀ t ∈ (s.clients id).tables, (s.clients id).changed t = false) ∨
      (s.clients id).full = true ∨ (s.clients id).received = true := by
  have hstart : initial.Inv := by
    refine ⟨fun _ => le_rfl, ?_, ?_⟩
    · intro id hid
      exact absurd hid (Nat.not_lt_zero id)
    · intro id hid
      exact absurd hid (Nat.not_lt_zero id)
  have hinv : s.Inv :=
    GuardedRun.invariant_of_step (fun _ event hstate => hstate.step event) events hstart s hvisited
  by_cases hquiet : ∀ t ∈ (s.clients id).tables, (s.clients id).changed t = false
  · exact .inl hquiet
  · right
    simp only [not_forall, Bool.not_eq_false] at hquiet
    rcases hquiet with ⟨t, ht, hchanged⟩
    rcases hinv.noticed id hregistered hrunning t ht hchanged with hnoticed | hpending
    · exact hnoticed
    · simp only [System.Pending, hwaiting] at hpending

/-- A trigger on the machines is registered, then a machine is inserted. -/
def insertedMachine : List Event :=
  .transact [.register [.machine]] ::
    List.replicate 11 (.server (.asStored _) (.asStored _)) ++
  .transact [.insert .machine] ::
    List.replicate 14 (.server (.asStored _) (.asStored _))

theorem no_lost_wakeup_insertedMachine :
    let s := GuardedRun.final System.step initial insertedMachine
    (s.clients 0).changed .machine = true ∧
      ((s.clients 0).full = true ∨ (s.clients 0).received = true) := by
  have hchanged : ((GuardedRun.final System.step initial insertedMachine).clients 0).changed
      .machine = true := by
    decide
  refine ⟨hchanged, ?_⟩
  rcases no_lost_wakeup insertedMachine _ (GuardedRun.final_mem_states _ _ _) rfl 0
    (by decide) (by decide) with hquiet | hnoticed
  · have hwatched : TableType.machine ∈
        ((GuardedRun.final System.step initial insertedMachine).clients 0).tables := by
      decide
    rw [hquiet _ hwatched] at hchanged
    contradiction
  · exact hnoticed

end Triggers
end Di
