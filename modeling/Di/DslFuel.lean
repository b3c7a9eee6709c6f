import Di.Fuelled
import Di.DslCongruence

/-!
# More fuel

Given more fuel, an evaluation that came to an end is the same, and one that gave
up goes on.
-/

namespace Di
namespace Lang

open Procedure

def MoreFuel (ev ev' : Ast → EvalM Ast) : Prop := ∀ expr, Extends (ev expr) (ev' expr)

theorem rangeFrom_mono {fuel fuel' : ℕ} (hfuel : fuel ≤ fuel') {start stop step : ℤ}
    {ints : List ℤ} (hints : rangeFrom fuel start stop step = some ints) :
    rangeFrom fuel' start stop step = some ints := by
  induction fuel generalizing fuel' start ints with
  | zero =>
      rw [rangeFrom] at hints
      split at hints
      · cases hints
      next hless =>
        cases fuel' with
        | zero => rwa [rangeFrom, if_neg hless]
        | succ fuel' => rwa [rangeFrom, if_neg hless]
  | succ fuel ih =>
      obtain ⟨more, rfl⟩ : ∃ more, fuel' = more + 1 := ⟨fuel' - 1, by omega⟩
      rw [rangeFrom] at hints ⊢
      split at hints
      next hless =>
        rcases Option.map_eq_some_iff.mp hints with ⟨rest, hrest, rfl⟩
        rw [if_pos hless, ih (by omega) hrest]
        rfl
      next hless => rwa [if_neg hless]

theorem extends_rangeBetween {fuel fuel' : ℕ} (hfuel : fuel ≤ fuel') (start stop step : ℤ) :
    Extends (rangeBetween fuel start stop step) (rangeBetween fuel' start stop step) := by
  unfold rangeBetween
  split_ifs
  · exact Extends.refl _
  · cases hints : rangeFrom fuel start stop step with
    | none => exact Extends.outOfFuel _
    | some ints =>
        rw [rangeFrom_mono hfuel hints]
        exact Extends.refl _

theorem extends_rangeImpl {fuel fuel' : ℕ} (hfuel : fuel ≤ fuel') (args : List Ast) :
    Extends (rangeImpl fuel args) (rangeImpl fuel' args) := by
  apply (Extends.refl _).bind
  intro ints
  rcases ints with _ | ⟨a, _ | ⟨b, _ | ⟨c, _ | ⟨d, rest⟩⟩⟩⟩
  · exact Extends.refl _
  · exact extends_rangeBetween hfuel 0 a 1
  · exact extends_rangeBetween hfuel a b 1
  · exact extends_rangeBetween hfuel a b c
  · exact Extends.refl _

theorem extends_eval (rt : Runtime) {fuel fuel' : ℕ} (hfuel : fuel ≤ fuel') :
    MoreFuel (eval rt fuel) (eval rt fuel') := by
  induction fuel generalizing fuel' with
  | zero => exact fun _ => Extends.outOfFuel _
  | succ fuel ih =>
      obtain ⟨more, rfl⟩ : ∃ more, fuel' = more + 1 := ⟨fuel' - 1, by omega⟩
      have hle : fuel ≤ more := by omega
      exact congr_evalStep (.refl congruence_extends _) (ih hle) rt (extends_rangeImpl hle)

end Lang
end Di
