import Di.KeyedTable
import Mathlib.Data.Prod.Lex
import Mathlib.Data.List.Sort
import Mathlib.Data.String.Basic

/-!
# Orders on the rows of a table

A comparison of rows sorts a table to one list when it is a strict total order of the
rows.  `rowOrder_of_rank` derives this from a rank in a linear order that agrees with
the comparison on the rows.  `cascade_iff` reads one case of a chain of comparisons, each
of which decides only when its keys differ, as one component of a lexicographic rank.
-/

namespace Di
namespace Table

variable {ρ : Type} [HasID ρ]

/-- What sorting by `less` may return: later rows are not less than earlier ones. -/
def Sorts (less : ρ → ρ → Bool) (table : Table ρ) (out : List ρ) : Prop :=
  out.Perm table.rows ∧ out.Pairwise fun a b => less b a = false

structure RowOrder (less : ρ → ρ → Bool) (table : Table ρ) : Prop where
  irrefl : ∀ a ∈ table.rows, less a a = false
  asymm : ∀ a ∈ table.rows, ∀ b ∈ table.rows, less a b = true → less b a = false
  trans : ∀ a ∈ table.rows, ∀ b ∈ table.rows, ∀ c ∈ table.rows,
    less a b = true → less b c = true → less a c = true
  total : ∀ a ∈ table.rows, ∀ b ∈ table.rows, HasID.id a ≠ HasID.id b →
    less a b = !less b a
  oneOrder : ∃! out, Sorts less table out

section Rank

variable {κ : Type*} [LinearOrder κ] {less : ρ → ρ → Bool} {table : Table ρ} {rank : ρ → κ}

theorem less_eq_false_iff
    (hrank : ∀ a ∈ table.rows, ∀ b ∈ table.rows, less a b = true ↔ rank a < rank b)
    {a b : ρ} (ha : a ∈ table.rows) (hb : b ∈ table.rows) :
    less a b = false ↔ rank b ≤ rank a := by
  rw [← Bool.not_eq_true, hrank a ha b hb, not_lt]

omit [HasID ρ] in
theorem pairwise_mergeSort_rank (rank : ρ → κ) (rows : List ρ) :
    (rows.mergeSort fun a b => decide (rank a ≤ rank b)).Pairwise fun a b => rank a ≤ rank b := by
  have hsorted : (rows.mergeSort fun a b => decide (rank a ≤ rank b)).Pairwise
      fun a b => decide (rank a ≤ rank b) = true := by
    apply List.pairwise_mergeSort
    · intro a b c hab hbc
      rw [decide_eq_true_iff] at hab hbc ⊢
      exact hab.trans hbc
    · intro a b
      simpa using le_total (rank a) (rank b)
  exact hsorted.imp of_decide_eq_true

theorem existsUnique_sorts
    (hrank : ∀ a ∈ table.rows, ∀ b ∈ table.rows, less a b = true ↔ rank a < rank b)
    (hids : ∀ a ∈ table.rows, ∀ b ∈ table.rows, rank a = rank b → HasID.id a = HasID.id b) :
    ∃! out, Sorts less table out := by
  have hperm : (table.rows.mergeSort fun a b => decide (rank a ≤ rank b)).Perm table.rows :=
    List.mergeSort_perm _ _
  have hmerged := pairwise_mergeSort_rank rank table.rows
  refine ⟨_, ⟨hperm, ?_⟩, ?_⟩
  · refine hmerged.imp_of_mem ?_
    intro a b ha hb hle
    exact (less_eq_false_iff hrank (hperm.mem_iff.mp hb) (hperm.mem_iff.mp ha)).mpr hle
  · rintro out ⟨hout, hsorted⟩
    have hle : out.Pairwise fun a b => rank a ≤ rank b := by
      refine hsorted.imp_of_mem ?_
      intro a b ha hb hnot
      exact (less_eq_false_iff hrank (hout.mem_iff.mp hb) (hout.mem_iff.mp ha)).mp hnot
    refine List.Perm.eq_of_pairwise ?_ hle hmerged (hout.trans hperm.symm)
    intro a b ha hb hab hba
    have hmema := hout.mem_iff.mp ha
    have hmemb := hperm.mem_iff.mp hb
    exact eq_of_id_eq hmema hmemb (hids a hmema b hmemb (le_antisymm hab hba))

theorem rowOrder_of_rank (rank : ρ → κ)
    (hrank : ∀ a ∈ table.rows, ∀ b ∈ table.rows, less a b = true ↔ rank a < rank b)
    (hids : ∀ a ∈ table.rows, ∀ b ∈ table.rows, rank a = rank b → HasID.id a = HasID.id b) :
    RowOrder less table where
  irrefl := by
    intro a ha
    exact (less_eq_false_iff hrank ha ha).mpr le_rfl
  asymm := by
    intro a ha b hb hless
    exact (less_eq_false_iff hrank hb ha).mpr ((hrank a ha b hb).mp hless).le
  trans := by
    intro a ha b hb c hc hab hbc
    exact (hrank a ha c hc).mpr (((hrank a ha b hb).mp hab).trans ((hrank b hb c hc).mp hbc))
  total := by
    intro a ha b hb hne
    rcases lt_trichotomy (rank a) (rank b) with hlt | heq | hgt
    · rw [(hrank a ha b hb).mpr hlt, (less_eq_false_iff hrank hb ha).mpr hlt.le]
      rfl
    · exact absurd (hids a ha b hb heq) hne
    · rw [(hrank b hb a ha).mpr hgt, (less_eq_false_iff hrank ha hb).mpr hgt.le]
      rfl
  oneOrder := existsUnique_sorts hrank hids

end Rank

/-- One case of a chain of comparisons. -/
theorem cascade_iff {κ : Type*} [LinearOrder κ] (x y : κ) (rest : Bool) :
    (if x ≠ y then decide (x < y) else rest) = true ↔ x < y ∨ x = y ∧ rest = true := by
  by_cases heq : x = y
  · simp [heq]
  · simp [heq]

end Table
end Di
