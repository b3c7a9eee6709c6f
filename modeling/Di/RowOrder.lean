import Di.Database
import Di.TableOrder

/-!
# The orders of machines, connections and labels

`less` compares two rows field by field.  The orders of machines and labels are
lexicographic.  `Connection.less` tests whether its own lower port differs from the upper
port of the other row before it compares the lower ports, so it is an order only on some
tables.
-/

namespace Di
namespace Db

open Table

def Role.rank : Role → ℕ
  | .none => 0
  | .worker => 1
  | .master => 2

theorem Role.rank_inj {l r : Role} : l.rank = r.rank ↔ l = r := by
  cases l <;> cases r <;> decide

def Machine.up (m : Machine) : Bool := m.publicIP != "" && m.privateIP != ""

def Machine.down (m : Machine) : Bool := m.publicIP == "" && m.privateIP == ""

def Machine.less (l r : Machine) : Bool :=
  if l.role ≠ r.role then
    l.role.rank > r.role.rank
  else if l.up ≠ r.up then
    l.up
  else if l.down ≠ r.down then
    !l.down
  else if l.cloudID ≠ r.cloudID then
    l.cloudID < r.cloudID
  else
    l.ID < r.ID

def Connection.less (c o : Connection) : Bool :=
  if c.fromLabel ≠ o.fromLabel then
    c.fromLabel < o.fromLabel
  else if c.toLabel ≠ o.toLabel then
    c.toLabel < o.toLabel
  else if c.maxPort ≠ o.maxPort then
    c.maxPort < o.maxPort
  else if c.minPort ≠ o.maxPort then
    c.minPort < o.minPort
  else
    c.ID < o.ID

def Label.less (r r2 : Label) : Bool :=
  if r.label ≠ r2.label then
    r.label < r2.label
  else
    r.ID < r2.ID

/-! ## Machines and labels -/

def Machine.rank (m : Machine) : ℕᵒᵈ ×ₗ Bool ×ₗ Bool ×ₗ String ×ₗ ℕ :=
  toLex (OrderDual.toDual m.role.rank, toLex (!m.up, toLex (m.down, toLex (m.cloudID, m.ID))))

theorem Machine.less_eq_cascade (l r : Machine) :
    l.less r =
      if OrderDual.toDual l.role.rank ≠ OrderDual.toDual r.role.rank then
        decide (OrderDual.toDual l.role.rank < OrderDual.toDual r.role.rank)
      else if (!l.up) ≠ (!r.up) then decide ((!l.up) < (!r.up))
      else if l.down ≠ r.down then decide (l.down < r.down)
      else if l.cloudID ≠ r.cloudID then decide (l.cloudID < r.cloudID)
      else decide (l.ID < r.ID) := by
  unfold less
  congr 1
  · rw [ne_eq, ne_eq, OrderDual.toDual_inj, Role.rank_inj]
  · cases l.up <;> cases r.up <;> cases l.down <;> cases r.down <;> rfl

theorem Machine.less_iff (l r : Machine) : l.less r = true ↔ l.rank < r.rank := by
  rw [less_eq_cascade, cascade_iff, cascade_iff, cascade_iff, cascade_iff, decide_eq_true_iff]
  simp only [rank, Prod.Lex.toLex_lt_toLex]

theorem Machine.rowOrder (table : Table Machine) : RowOrder Machine.less table := by
  apply rowOrder_of_rank Machine.rank
  · intro a _ b _
    exact a.less_iff b
  · intro a _ b _ heq
    simp only [rank, EmbeddingLike.apply_eq_iff_eq, Prod.mk.injEq] at heq
    exact heq.2.2.2.2

def Label.rank (r : Label) : String ×ₗ ℕ := toLex (r.label, r.ID)

theorem Label.less_iff (r r2 : Label) : r.less r2 = true ↔ r.rank < r2.rank := by
  unfold less
  rw [cascade_iff, decide_eq_true_iff]
  simp only [rank, Prod.Lex.toLex_lt_toLex]

theorem Label.rowOrder (table : Table Label) : RowOrder Label.less table := by
  apply rowOrder_of_rank Label.rank
  · intro a _ b _
    exact a.less_iff b
  · intro a _ b _ heq
    simp only [rank, EmbeddingLike.apply_eq_iff_eq, Prod.mk.injEq] at heq
    exact heq.2

/-! ## Connections -/

def Connection.rank (c : Connection) : String ×ₗ String ×ₗ ℤ ×ₗ ℤ ×ₗ ℕ :=
  toLex (c.fromLabel, toLex (c.toLabel, toLex (c.maxPort, toLex (c.minPort, c.ID))))

/-- Rows of the same labels and upper port: two ranges differ in their lower port, and a
row for the upper port alone has a later identifier than the ranges that end there. -/
def Connection.Apart (c o : Connection) : Prop :=
  c.fromLabel = o.fromLabel → c.toLabel = o.toLabel → c.maxPort = o.maxPort →
    (c.minPort ≠ c.maxPort → c.minPort ≠ o.minPort) ∧
    (c.minPort = c.maxPort → o.minPort ≠ c.minPort →
      (c.ID < o.ID ↔ c.minPort < o.minPort))

theorem Connection.less_iff (c o : Connection) :
    c.less o = true ↔
      c.fromLabel < o.fromLabel ∨ c.fromLabel = o.fromLabel ∧
        (c.toLabel < o.toLabel ∨ c.toLabel = o.toLabel ∧
          (c.maxPort < o.maxPort ∨ c.maxPort = o.maxPort ∧
            (if c.minPort ≠ o.maxPort then decide (c.minPort < o.minPort)
              else decide (c.ID < o.ID)) = true)) := by
  unfold less
  rw [cascade_iff, cascade_iff, cascade_iff]

theorem Connection.less_iff_rank {c o : Connection} (hapart : c.ID ≠ o.ID → c.Apart o)
    (hsame : c.ID = o.ID → c = o) : c.less o = true ↔ c.rank < o.rank := by
  rw [less_iff]
  simp only [rank, Prod.Lex.toLex_lt_toLex]
  refine or_congr_right (and_congr_right fun hfrom => ?_)
  refine or_congr_right (and_congr_right fun hto => ?_)
  refine or_congr_right (and_congr_right fun hmax => ?_)
  by_cases hid : c.ID = o.ID
  · obtain rfl := hsame hid
    by_cases hmin : c.minPort = c.maxPort <;> simp [hmin]
  · obtain ⟨hranges, hsingle⟩ := hapart hid hfrom hto hmax
    rw [← hmax]
    by_cases hmin : c.minPort = c.maxPort
    · by_cases heq : o.minPort = c.minPort
      · simp [hmin, heq]
      · have hiff := hsingle hmin heq
        simp only [hmin, ne_eq, not_true_eq_false, if_false, decide_eq_true_iff] at hiff ⊢
        omega
    · have hne := hranges hmin
      simp [hmin, hne]

theorem Connection.apart_of_rowOrder {table : Table Connection}
    (horder : RowOrder Connection.less table) {c o : Connection} (hc : c ∈ table.rows)
    (ho : o ∈ table.rows) (hne : c.ID ≠ o.ID) : c.Apart o := by
  intro hfrom hto hmax
  have htotal := horder.total c hc o ho hne
  have hless : ∀ a b : Connection, a.fromLabel = b.fromLabel → a.toLabel = b.toLabel →
      a.maxPort = b.maxPort →
      a.less b = if a.minPort ≠ b.maxPort then decide (a.minPort < b.minPort)
        else decide (a.ID < b.ID) := by
    intro a b hf ht hm
    simp [less, hf, ht, hm]
  rw [hless c o hfrom hto hmax, hless o c hfrom.symm hto.symm hmax.symm, ← hmax] at htotal
  constructor
  · intro hmin heq
    simp [← heq, hmin] at htotal
  · intro hmin hother
    have hother' : o.minPort ≠ c.maxPort := fun heq => hother (heq.trans hmin.symm)
    simp only [hmin, hother', ne_eq, not_true_eq_false, not_false_eq_true, if_false, if_true]
      at htotal ⊢
    rw [← decide_not, decide_eq_decide] at htotal
    rw [htotal]
    omega

theorem Connection.rowOrder_iff (table : Table Connection) :
    RowOrder Connection.less table ↔
      ∀ c ∈ table.rows, ∀ o ∈ table.rows, c.ID ≠ o.ID → c.Apart o := by
  constructor
  · intro horder c hc o ho hne
    exact apart_of_rowOrder horder hc ho hne
  · intro hapart
    apply rowOrder_of_rank Connection.rank
    · intro a ha b hb
      exact less_iff_rank (hapart a ha b hb) (eq_of_id_eq ha hb)
    · intro a _ b _ heq
      simp only [rank, EmbeddingLike.apply_eq_iff_eq, Prod.mk.injEq] at heq
      exact heq.2.2.2.2

/-- The rows of a table are totally ordered, so sorting them has one result, unless two
connections of the same labels and upper port collide. -/
theorem less_rowOrder_iff (db : Database) :
    (RowOrder Machine.less (db.tables .machine) ∧
      RowOrder Connection.less (db.tables .connection) ∧
      RowOrder Label.less (db.tables .label)) ↔
      ∀ c ∈ (db.tables .connection).rows, ∀ o ∈ (db.tables .connection).rows,
        c.ID ≠ o.ID → c.Apart o := by
  constructor
  · rintro ⟨_, hconnections, _⟩
    exact (Connection.rowOrder_iff _).mp hconnections
  · intro hapart
    exact ⟨Machine.rowOrder _, (Connection.rowOrder_iff _).mpr hapart, Label.rowOrder _⟩

/-- Port 80 alone and the ports from 70 to 80 between the same labels. -/
def webPorts : List Connection :=
  [{ ID := 1, fromLabel := "red", toLabel := "blue", minPort := 80, maxPort := 80 },
    { ID := 2, fromLabel := "red", toLabel := "blue", minPort := 70, maxPort := 80 }]

def webPortsDatabase : Database where
  tables
    | .connection => ⟨webPorts, 0, by decide⟩
    | _ => Table.empty
  idAlloc := 2
  allocated := by
    intro t row hrow
    cases t with
    | connection =>
      rcases List.mem_pair.mp hrow with rfl | rfl <;> decide
    | _ => cases hrow

theorem webPorts_both_less :
    ∃ c ∈ (webPortsDatabase.tables .connection).rows,
      ∃ o ∈ (webPortsDatabase.tables .connection).rows,
        c.ID ≠ o.ID ∧ Connection.less c o = true ∧ Connection.less o c = true ∧
        ¬ RowOrder Connection.less (webPortsDatabase.tables .connection) := by
  have hfirst : webPorts[0] ∈ (webPortsDatabase.tables .connection).rows := by decide
  have hsecond : webPorts[1] ∈ (webPortsDatabase.tables .connection).rows := by decide
  refine ⟨webPorts[0], hfirst, webPorts[1], hsecond, by decide, by decide, by decide, ?_⟩
  intro horder
  have hasymm := horder.asymm _ hfirst _ hsecond (by decide)
  revert hasymm
  decide

end Db
end Di
