import Di.DslCalls

/-!
# What `range` returns

The loop of `range` adds the step once more after its last element.  As long as that sum is
a 64-bit integer, the loop ends with exactly the numbers of the arithmetic progression below
the limit; otherwise the counter wraps around to a number below its predecessor.
-/

namespace Di
namespace Lang

open Procedure

/-- The increasing list of the numbers `start + k * step` below `stop`. -/
structure Progression (start stop step : ℤ) (ints : List ℤ) : Prop where
  increasing : ints.Pairwise (· < ·)
  mem_iff : ∀ x, x ∈ ints ↔ ∃ k : ℕ, x = start + k * step ∧ x < stop

/-- A value of Go's `int`. -/
def IsInt64 (x : ℤ) : Prop := -2 ^ 63 ≤ x ∧ x < 2 ^ 63

/-- No counter of the loop leaves the 64-bit integers. -/
def Room (start stop step : ℤ) : Prop :=
  ∀ k : ℕ, start + k * step < stop → start + (k + 1) * step < 2 ^ 63

theorem wrap_of_isInt64 {x : ℤ} (hx : IsInt64 x) : wrap x = x := by
  rw [wrap, Int.bmod_eq_iff (by norm_num)]
  have := hx.1
  have := hx.2
  refine ⟨by norm_num; omega, by norm_num; omega, ?_⟩
  simp

theorem wrap_of_overflow {x : ℤ} (hlow : 2 ^ 63 ≤ x) (hhigh : x < 2 ^ 64 + 2 ^ 63) :
    wrap x = x - 2 ^ 64 := by
  rw [wrap, Int.bmod_eq_iff (by norm_num)]
  refine ⟨by norm_num; omega, by norm_num; omega, ?_⟩
  norm_num

section Loop

variable {start stop step : ℤ}

theorem progression_nil (hstep : 0 < step) (hstop : stop ≤ start) :
    Progression start stop step [] where
  increasing := .nil
  mem_iff := by
    intro x
    simp only [List.not_mem_nil, false_iff, not_exists, not_and, not_lt]
    rintro k rfl
    have hk : 0 ≤ (k : ℤ) * step := by positivity
    omega

theorem Progression.cons {ints : List ℤ} (hstep : 0 < step) (hstop : start < stop)
    (hrest : Progression (start + step) stop step ints) :
    Progression start stop step (start :: ints) where
  increasing := by
    refine List.pairwise_cons.mpr ⟨?_, hrest.increasing⟩
    intro x hx
    obtain ⟨k, rfl, _⟩ := (hrest.mem_iff x).mp hx
    have hk : 0 ≤ (k : ℤ) * step := by positivity
    omega
  mem_iff := by
    intro x
    rw [List.mem_cons, hrest.mem_iff]
    constructor
    · rintro (rfl | ⟨k, rfl, hless⟩)
      · exact ⟨0, by simp, hstop⟩
      · exact ⟨k + 1, by push_cast; ring, hless⟩
    · rintro ⟨k, rfl, hless⟩
      cases k with
      | zero => exact .inl (by simp)
      | succ k => exact .inr ⟨k, by push_cast; ring, hless⟩

theorem Progression.unique {ints ints' : List ℤ} (hints : Progression start stop step ints)
    (hints' : Progression start stop step ints') : ints = ints' :=
  hints.increasing.eq_of_mem_iff hints'.increasing fun x =>
    (hints.mem_iff x).trans (hints'.mem_iff x).symm

theorem room_of_le (hstep : 0 < step) (hstop : stop ≤ start) : Room start stop step := by
  intro k hless
  have hk : 0 ≤ (k : ℤ) * step := by positivity
  omega

theorem Room.next (hroom : Room start stop step) : Room (start + step) stop step := by
  intro k hless
  have hnext := hroom (k + 1) (by push_cast; linarith)
  push_cast at hnext
  linarith

theorem Room.prev (hsum : start + step < 2 ^ 63) (hroom : Room (start + step) stop step) :
    Room start stop step := by
  intro k hless
  cases k with
  | zero => simpa using hsum
  | succ k =>
      push_cast at hless ⊢
      have hnext := hroom k (by linarith)
      linarith

theorem rangeFrom_of_room (fuel : ℕ) (hstep : 0 < step) (hstart : IsInt64 start)
    (hroom : Room start stop step) (hfuel : stop - start ≤ fuel) :
    ∃ ints, rangeFrom fuel start stop step = some ints ∧ Progression start stop step ints := by
  induction fuel generalizing start with
  | zero =>
      have hstop : stop ≤ start := by simpa using hfuel
      exact ⟨[], if_neg (not_lt.mpr hstop), progression_nil hstep hstop⟩
  | succ fuel ih =>
      by_cases hless : start < stop
      · have hsum := hroom 0 (by simpa using hless)
        have hnext : IsInt64 (start + step) := by
          have := hstart.1
          constructor
          · omega
          · simpa using hsum
        obtain ⟨ints, hints, hprogression⟩ :=
          ih hnext hroom.next (by push_cast at hfuel; omega)
        refine ⟨start :: ints, ?_, hprogression.cons hstep hless⟩
        rw [rangeFrom, if_pos hless, wrap_of_isInt64 hnext, hints]
        rfl
      · exact ⟨[], if_neg hless, progression_nil hstep (not_lt.mp hless)⟩

theorem rangeFrom_head {fuel : ℕ} {ints : List ℤ} (hless : start < stop)
    (hints : rangeFrom fuel start stop step = some ints) :
    ∃ fuel' rest, ints = start :: rest ∧
      rangeFrom fuel' (wrap (start + step)) stop step = some rest := by
  cases fuel with
  | zero => simp [rangeFrom, hless] at hints
  | succ fuel =>
      rw [rangeFrom, if_pos hless, Option.map_eq_some_iff] at hints
      obtain ⟨rest, hrest, rfl⟩ := hints
      exact ⟨fuel, rest, rfl, hrest⟩

/-- If the list a loop returns increases, no counter has wrapped around. -/
theorem room_of_increasing {fuel : ℕ} {ints : List ℤ} (hpos : 0 < step) (hstep : IsInt64 step)
    (hstart : IsInt64 start)
    (hints : rangeFrom fuel start stop step = some ints)
    (hincreasing : ints.Pairwise (· < ·)) : Room start stop step := by
  induction ints generalizing start fuel with
  | nil =>
      by_cases hless : start < stop
      · obtain ⟨_, rest, hnil, _⟩ := rangeFrom_head hless hints
        cases hnil
      · exact room_of_le hpos (not_lt.mp hless)
  | cons i ints ih =>
      by_cases hless : start < stop
      · obtain ⟨fuel', rest, hcons, hrest⟩ := rangeFrom_head hless hints
        obtain ⟨rfl, rfl⟩ := List.cons.inj hcons
        rw [List.pairwise_cons] at hincreasing
        have hlow := hstart.1
        have hhigh := hstart.2
        have hsmall := hstep.2
        have hsum : i + step < 2 ^ 63 := by
          by_contra hover
          have hwrap : wrap (i + step) = i + step - 2 ^ 64 :=
            wrap_of_overflow (not_lt.mp hover) (by omega)
          rw [hwrap] at hrest
          obtain ⟨_, tail, rfl, _⟩ := rangeFrom_head (by omega) hrest
          have hnext := hincreasing.1 _ List.mem_cons_self
          omega
        have hnext : IsInt64 (i + step) := ⟨by omega, hsum⟩
        rw [wrap_of_isInt64 hnext] at hrest
        exact (ih hnext hrest hincreasing.2).prev hsum
      · exact room_of_le hpos (not_lt.mp hless)

end Loop

/-! ## Calls -/

/-- The three forms of a call. -/
inductive RangeArgs (start stop step : ℤ) : List Ast → Prop
  | stop : start = 0 → step = 1 → RangeArgs start stop step [.int stop]
  | startStop : step = 1 → RangeArgs start stop step [.int start, .int stop]
  | startStopStep : RangeArgs start stop step [.int start, .int stop, .int step]

theorem RangeArgs.rangeImpl_eq {start stop step : ℤ} {args : List Ast}
    (hargs : RangeArgs start stop step args) (fuel : ℕ) (env : Env) :
    rangeImpl fuel args env = rangeBetween fuel start stop step env := by
  cases hargs with
  | stop hstart hstep =>
      subst hstart hstep
      rfl
  | startStop hstep =>
      subst hstep
      rfl
  | startStopStep => rfl

/-- From some amount of fuel on, a call returns exactly the progression. -/
def RangeExact (start stop step : ℤ) (args : List Ast) : Prop :=
  ∃ ints, Progression start stop step ints ∧ ∃ bound, ∀ fuel ≥ bound, ∀ env,
    rangeImpl fuel args env = ⟨.ok (appended (ints.map .int)), env, []⟩

theorem rangeBetween_ok_iff {fuel : ℕ} {start stop step : ℤ} (hpos : 0 < step) {ints : List ℤ}
    {env : Env} :
    rangeBetween fuel start stop step env = ⟨.ok (appended (ints.map .int)), env, []⟩ ↔
      rangeFrom fuel start stop step = some ints := by
  unfold rangeBetween
  rw [if_neg (not_le.mpr hpos)]
  cases hints : rangeFrom fuel start stop step with
  | none =>
      constructor
      · intro hran
        cases congrArg Ran.outcome hran
      · intro hsome
        cases hsome
  | some ints' =>
      constructor
      · intro hran
        have hvalue : appended (ints'.map .int) = appended (ints.map .int) :=
          Outcome.ok.inj (congrArg Ran.outcome hran)
        have hints : ints'.map Ast.int = ints.map Ast.int := (Ast.list.inj hvalue).2
        rw [List.map_injective_iff.mpr (fun _ _ heq => Scalar.int.inj (Ast.scalar.inj heq)) hints]
      · intro hsome
        rw [Option.some.inj hsome]
        rfl

/-- A call of `range` is exact if and only if the sum after its last element is a 64-bit
integer. -/
theorem rangeImpl_exact_iff {start stop step : ℤ} {args : List Ast}
    (hargs : RangeArgs start stop step args) (hstart : IsInt64 start) (hstep : IsInt64 step)
    (hpos : 0 < step) :
    RangeExact start stop step args ↔
      ∀ k : ℕ, start + k * step < stop → start + (k + 1) * step < 2 ^ 63 := by
  constructor
  · rintro ⟨ints, hprogression, bound, hfuel⟩
    have hran := hfuel bound le_rfl Env.initial
    rw [hargs.rangeImpl_eq, rangeBetween_ok_iff hpos] at hran
    exact room_of_increasing hpos hstep hstart hran hprogression.increasing
  · intro hroom
    obtain ⟨ints, _, hprogression⟩ := rangeFrom_of_room (stop - start).toNat
      hpos hstart hroom (Int.self_le_toNat _)
    refine ⟨ints, hprogression, (stop - start).toNat, ?_⟩
    intro fuel hfuel env
    obtain ⟨ints', hints', hprogression'⟩ := rangeFrom_of_room fuel hpos hstart hroom
      (by omega)
    rw [hargs.rangeImpl_eq, rangeBetween_ok_iff hpos, hints', hprogression'.unique hprogression]

theorem rangeImpl_last_word :
    Progression (2 ^ 63 - 2) (2 ^ 63 - 1) 2 [2 ^ 63 - 2] ∧
      ∀ fuel env, rangeImpl fuel [.int (2 ^ 63 - 2), .int (2 ^ 63 - 1), .int 2] env =
        ⟨.timeout, env, []⟩ := by
  refine ⟨(progression_nil ?_ ?_).cons ?_ ?_, fun fuel env => rangeImpl_of_endless ?_ fuel env⟩
  · norm_num
  · norm_num
  · norm_num
  · norm_num
  · decide +kernel

theorem rangeImpl_exact_nine :
    IsInt64 0 ∧ IsInt64 4 ∧ RangeExact 0 9 4 [.int 0, .int 9, .int 4] := by
  have hstart : IsInt64 0 := ⟨by norm_num, by norm_num⟩
  have hstep : IsInt64 4 := ⟨by norm_num, by norm_num⟩
  refine ⟨hstart, hstep, (rangeImpl_exact_iff .startStopStep hstart hstep (by norm_num)).mpr ?_⟩
  intro k hk
  omega

end Lang
end Di
