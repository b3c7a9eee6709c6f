import Mathlib.Tactic

/-!
# Tables of rows keyed by an identifier

A table is a finite map from identifiers to rows.  It is stored as a list
whose identifiers are pairwise distinct, so a reader who only looks at the
rows up to permutation sees exactly the map.  The rules `insert_perm`,
`remove_perm` and `commit_perm` describe each write by splitting the rows into
the row that is touched and the rest; clients compose them and never unfold
the list operations.

`IterOrder` is the order in which one traversal of a hash map visits its
entries: an arbitrary permutation, chosen anew for every traversal.
-/

namespace Di

/-- The order of one traversal of an unordered collection. -/
structure IterOrder (α : Type*) where
  visit : List α → List α
  perm : ∀ entries, (visit entries).Perm entries

namespace IterOrder

variable {α : Type*}

/-- The traversal that follows the stored order. -/
def asStored (α : Type*) : IterOrder α := ⟨fun entries => entries, fun _ => .rfl⟩

/-- The traversal in the opposite order. -/
def backwards (α : Type*) : IterOrder α :=
  ⟨List.reverse, fun entries => entries.reverse_perm⟩

@[simp] theorem mem_visit (order : IterOrder α) {entries : List α} {entry : α} :
    entry ∈ order.visit entries ↔ entry ∈ entries :=
  (order.perm entries).mem_iff

/-- Any permutation of one list is the visit of some traversal. -/
theorem exists_visit_eq [DecidableEq α] {entries visited : List α}
    (hperm : visited.Perm entries) :
    ∃ order : IterOrder α, order.visit entries = visited := by
  refine ⟨⟨fun given => if given = entries then visited else given, ?_⟩, by simp⟩
  intro given
  by_cases hgiven : given = entries
  · simpa [hgiven] using hperm
  · simp [hgiven]

end IterOrder

class HasID (ρ : Type) where
  id : ρ → ℕ

/-- A finite map from identifiers to rows with a change counter. -/
structure Table (ρ : Type) [HasID ρ] where
  rows : List ρ
  seq : ℕ
  nodup : (rows.map HasID.id).Nodup

namespace Table

variable {ρ : Type} [HasID ρ]

def empty : Table ρ := ⟨[], 0, List.nodup_nil⟩

@[simp] theorem rows_empty : (empty : Table ρ).rows = [] := rfl

def ids (table : Table ρ) : List ℕ := table.rows.map HasID.id

def find (table : Table ρ) (i : ℕ) : Option ρ :=
  table.rows.find? fun row => HasID.id row == i

/-- The rows that satisfy `check`, in traversal order. -/
def select (table : Table ρ) (order : IterOrder ρ) (check : ρ → Bool) : List ρ :=
  (order.visit table.rows).filter check

/-- Replaces the row with the identifier of `row`; the other rows stay. -/
def overwrite (row : ρ) (rows : List ρ) : List ρ :=
  rows.map fun old => if HasID.id old = HasID.id row then row else old

theorem map_id_overwrite (row : ρ) (rows : List ρ) :
    (overwrite row rows).map HasID.id = rows.map HasID.id := by
  unfold overwrite
  rw [List.map_map]
  apply List.map_congr_left
  intro old _
  by_cases heq : HasID.id old = HasID.id row <;> simp [heq]

/-- Map assignment: overwrites a row with the same identifier, otherwise adds
the row. -/
def insert (table : Table ρ) (row : ρ) : Table ρ where
  rows :=
    if HasID.id row ∈ table.rows.map HasID.id then overwrite row table.rows
    else table.rows ++ [row]
  seq := table.seq + 1
  nodup := by
    split
    next => rw [map_id_overwrite]; exact table.nodup
    next hfresh =>
      rw [List.map_append, List.nodup_append]
      refine ⟨table.nodup, by simp, ?_⟩
      intro i hi j hj heq
      rw [List.map_singleton, List.mem_singleton] at hj
      exact hfresh (hj ▸ heq ▸ hi)

def remove (table : Table ρ) (row : ρ) : Table ρ where
  rows := table.rows.filter fun old => HasID.id old ≠ HasID.id row
  seq := table.seq + 1
  nodup := (List.filter_sublist.map HasID.id).nodup table.nodup

/-- Writes a row back.  The counter moves only if the stored row changes; a row
that is not in the table cannot be committed. -/
def commit [DecidableEq ρ] (table : Table ρ) (row : ρ) : Option (Table ρ) :=
  match table.find (HasID.id row) with
  | none => none
  | some old =>
      if old = row then some table
      else some {
        rows := overwrite row table.rows
        seq := table.seq + 1
        nodup := by rw [map_id_overwrite]; exact table.nodup }

theorem find_eq_none_iff (table : Table ρ) (i : ℕ) :
    table.find i = none ↔ i ∉ table.ids := by
  simp [find, ids, List.find?_eq_none]

theorem find_eq_some_iff (table : Table ρ) (i : ℕ) (row : ρ) :
    table.find i = some row ↔ row ∈ table.rows ∧ HasID.id row = i := by
  unfold find
  constructor
  · intro hfind
    exact ⟨List.mem_of_find?_eq_some hfind,
      by simpa using List.find?_some hfind⟩
  · rintro ⟨hmem, rfl⟩
    cases hfind : table.rows.find? fun old => HasID.id old == HasID.id row with
    | none =>
        have habsent := List.find?_eq_none.mp hfind row hmem
        simp at habsent
    | some found =>
        have hfound := List.mem_of_find?_eq_some hfind
        have hid : HasID.id found = HasID.id row := by
          simpa using List.find?_some hfind
        rw [List.inj_on_of_nodup_map table.nodup hfound hmem hid]

theorem eq_of_id_eq {table : Table ρ} {left right : ρ}
    (hleft : left ∈ table.rows) (hright : right ∈ table.rows)
    (hid : HasID.id left = HasID.id right) : left = right :=
  List.inj_on_of_nodup_map table.nodup hleft hright hid

theorem mem_ids_of_mem {table : Table ρ} {row : ρ} (hmem : row ∈ table.rows) :
    HasID.id row ∈ table.ids :=
  List.mem_map_of_mem hmem

theorem select_perm (table : Table ρ) (order : IterOrder ρ) (check : ρ → Bool) :
    (table.select order check).Perm (table.rows.filter check) :=
  (order.perm table.rows).filter check

@[simp] theorem mem_select
    (table : Table ρ) (order : IterOrder ρ) (check : ρ → Bool) (row : ρ) :
    row ∈ table.select order check ↔ row ∈ table.rows ∧ check row = true := by
  simp [select]

/-- Selecting from a table with a single row does not depend on the order. -/
theorem select_singleton {table : Table ρ} {row : ρ}
    (hrows : table.rows = [row]) (order : IterOrder ρ) (check : ρ → Bool) :
    table.select order check = [row].filter check := by
  have hperm := table.select_perm order check
  rw [hrows] at hperm
  cases hcheck : check row with
  | true =>
      rw [List.filter_cons_of_pos hcheck, List.filter_nil] at hperm ⊢
      exact List.perm_singleton.mp hperm
  | false =>
      rw [List.filter_cons_of_neg (by simp [hcheck]), List.filter_nil] at hperm ⊢
      exact List.perm_nil.mp hperm

/-- The rows split into the selected ones and the others. -/
theorem rows_perm_select
    (table : Table ρ) (order : IterOrder ρ) (check : ρ → Bool) :
    table.rows.Perm
      (table.select order check ++ table.rows.filter fun row => !check row) := by
  have hsplit := (List.filter_append_perm check table.rows).symm
  exact hsplit.trans ((select_perm table order check).symm.append_right _)

/-! ## The effect of one write on the rows -/

theorem insert_rows_of_fresh {table : Table ρ} {row : ρ}
    (hfresh : HasID.id row ∉ table.ids) :
    (table.insert row).rows = table.rows ++ [row] := by
  unfold insert
  exact if_neg hfresh

theorem insert_perm {table : Table ρ} {row : ρ} {rest : List ρ}
    (hfresh : HasID.id row ∉ table.ids) (hrows : table.rows.Perm rest) :
    (table.insert row).rows.Perm (row :: rest) := by
  rw [insert_rows_of_fresh hfresh]
  exact List.perm_append_singleton row table.rows |>.trans (hrows.cons row)

private theorem ids_ne_of_perm_cons {table : Table ρ} {row : ρ} {rest : List ρ}
    (hrows : table.rows.Perm (row :: rest)) :
    ∀ other ∈ rest, HasID.id other ≠ HasID.id row := by
  have hnodup := (hrows.map HasID.id).nodup_iff.mp table.nodup
  rw [List.map_cons, List.nodup_cons] at hnodup
  intro other hother heq
  exact hnodup.1 (heq ▸ List.mem_map_of_mem hother)

theorem remove_perm {table : Table ρ} {row : ρ} {rest : List ρ}
    (hrows : table.rows.Perm (row :: rest)) :
    (table.remove row).rows.Perm rest := by
  have hne := ids_ne_of_perm_cons hrows
  have hrest : rest.filter (fun old => decide (HasID.id old ≠ HasID.id row)) =
      rest := by
    rw [List.filter_eq_self]
    intro other hother
    simpa using hne other hother
  have hfilter := hrows.filter fun old => decide (HasID.id old ≠ HasID.id row)
  rw [List.filter_cons_of_neg (by simp), hrest] at hfilter
  exact hfilter

theorem overwrite_perm {table : Table ρ} {old row : ρ} {rest : List ρ}
    (hrows : table.rows.Perm (old :: rest)) (hid : HasID.id old = HasID.id row) :
    (overwrite row table.rows).Perm (row :: rest) := by
  have hne := ids_ne_of_perm_cons hrows
  have hmap := hrows.map fun current =>
    if HasID.id current = HasID.id row then row else current
  rw [List.map_cons, if_pos hid] at hmap
  refine hmap.trans (List.Perm.of_eq ?_)
  congr 1
  conv_rhs => rw [← List.map_id rest]
  apply List.map_congr_left
  intro other hother
  simp [← hid, hne other hother]

/-- Committing a row whose old version is stored replaces exactly that
version. -/
theorem commit_perm [DecidableEq ρ] {table : Table ρ} {old row : ρ}
    {rest : List ρ} (hrows : table.rows.Perm (old :: rest))
    (hid : HasID.id old = HasID.id row) :
    ∃ next, table.commit row = some next ∧ next.rows.Perm (row :: rest) := by
  have hmem : old ∈ table.rows := hrows.mem_iff.mpr (by simp)
  have hfind : table.find (HasID.id row) = some old :=
    (find_eq_some_iff _ _ _).mpr ⟨hmem, hid⟩
  unfold commit
  rw [hfind]
  by_cases heq : old = row
  · subst heq
    exact ⟨table, by simp, hrows⟩
  · simp only [if_neg heq]
    exact ⟨_, rfl, overwrite_perm hrows hid⟩

theorem commit_eq_none_iff [DecidableEq ρ] (table : Table ρ) (row : ρ) :
    table.commit row = none ↔ HasID.id row ∉ table.ids := by
  rw [← find_eq_none_iff]
  unfold commit
  cases table.find (HasID.id row) with
  | none => simp
  | some old => by_cases heq : old = row <;> simp [heq]

/-- Writing back a row that is stored as it stands changes nothing. -/
theorem commit_self [DecidableEq ρ] {table : Table ρ} {row : ρ}
    (hmem : row ∈ table.rows) : table.commit row = some table := by
  have hfind : table.find (HasID.id row) = some row :=
    (find_eq_some_iff _ _ _).mpr ⟨hmem, rfl⟩
  unfold commit
  simp [hfind]

theorem ids_commit [DecidableEq ρ] {table next : Table ρ} {row : ρ}
    (hcommit : table.commit row = some next) : next.ids = table.ids := by
  unfold commit at hcommit
  cases hfind : table.find (HasID.id row) with
  | none => simp [hfind] at hcommit
  | some old =>
      by_cases heq : old = row
      · simp only [hfind, if_pos heq, Option.some.injEq] at hcommit
        rw [hcommit]
      · simp only [hfind, if_neg heq, Option.some.injEq] at hcommit
        rw [← hcommit]
        exact map_id_overwrite row table.rows

/-- After a commit the row is stored and every other row is as before. -/
theorem mem_rows_commit [DecidableEq ρ] {table next : Table ρ} {row other : ρ}
    (hcommit : table.commit row = some next) :
    other ∈ next.rows ↔
      other = row ∨ (other ∈ table.rows ∧ HasID.id other ≠ HasID.id row) := by
  cases hfind : table.find (HasID.id row) with
  | none => simp [commit, hfind] at hcommit
  | some old =>
      obtain ⟨hold, hid⟩ := (find_eq_some_iff _ _ _).mp hfind
      obtain ⟨rest, hrows⟩ : ∃ rest, table.rows.Perm (old :: rest) := by
        classical
        exact ⟨_, List.perm_cons_erase hold⟩
      obtain ⟨found, hfound, hperm⟩ := commit_perm hrows hid
      rw [hcommit, Option.some.injEq] at hfound
      subst hfound
      have hne := ids_ne_of_perm_cons hrows
      rw [hperm.mem_iff, hrows.mem_iff]
      constructor
      · intro hmem
        rcases List.mem_cons.mp hmem with rfl | hrest
        · exact .inl rfl
        · exact .inr ⟨List.mem_cons_of_mem old hrest, hid ▸ hne other hrest⟩
      · rintro (rfl | ⟨hmem, hother⟩)
        · simp
        · rcases List.mem_cons.mp hmem with rfl | hrest
          · exact absurd hid hother
          · exact List.mem_cons_of_mem row hrest

end Table
end Di
