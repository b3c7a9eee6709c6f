import Di.DslEval

/-!
# Calls that do not return

Some built-in functions trust their arguments.  A call of such a function with
the wrong arguments crashes the process, as does a key that cannot be hashed.
The only built-in loop that can run forever is that of `range`: its counter
wraps around, and if it jumps over all numbers from the limit on, it never
reaches one.  What decides is recorded before the call, so both are properties
of recorded events.
-/

namespace Di
namespace Lang

open Procedure

/-! ## Crashes -/

def startsWithString : List Ast → Bool
  | .str _ :: _ => true
  | _ => false

def isInt : Ast → Bool
  | .int _ => true
  | _ => false

def isZero : Ast → Bool
  | .int x => x = 0
  | _ => false

/-- The arguments with which a call crashes the process. -/
def fatalCall (name : String) (args : List Ast) : Bool :=
  if name = "provider" ∨ name = "size" then !startsWithString args
  else if name = "/" ∨ name = "%" then args.all isInt && args.tail.any isZero
  else if name = "docker" then (flatten args).isEmpty
  else if name = "panic" then args.length = 1 && !startsWithString args
  else false

def hashable : Ast → Bool
  | .scalar _ => true
  | _ => false

def Event.fatal : Event → Bool
  | .called name args => fatalCall name args
  | .hashed key => !hashable key
  | _ => false

def trustful : List String := ["provider", "size", "/", "%", "docker", "panic"]

theorem fatalCall_of_not_mem {name : String} (hname : name ∉ trustful) (args : List Ast) :
    fatalCall name args = false := by
  simp only [trustful, List.mem_cons, List.not_mem_nil, or_false, not_or] at hname
  rcases hname with ⟨hprovider, hsize, hdiv, hmod, hdocker, hpanic⟩
  simp [fatalCall, hprovider, hsize, hdiv, hmod, hdocker, hpanic]

/-! ## The loop of `range` -/

/-- The counter of the loop after some steps. -/
def counter (start step : ℤ) : ℕ → ℤ
  | 0 => start
  | k + 1 => wrap (counter start step k + step)

theorem counter_succ (start step : ℤ) (k : ℕ) :
    counter start step (k + 1) = wrap (start + (k + 1 : ℕ) * step) := by
  induction k with
  | zero => simp [counter]
  | succ k ih =>
      rw [counter, ih]
      unfold wrap
      rw [Int.bmod_add_bmod]
      congr 1
      push_cast
      ring

theorem counter_shift (start step : ℤ) (k : ℕ) :
    counter (wrap (start + step)) step k = counter start step (k + 1) := by
  induction k with
  | zero => rfl
  | succ k ih =>
      rw [counter, ih]
      rfl

theorem rangeFrom_isSome_iff (fuel : ℕ) (start stop step : ℤ) :
    (rangeFrom fuel start stop step).isSome = true ↔
      ∃ k ≤ fuel, stop ≤ counter start step k := by
  induction fuel generalizing start with
  | zero =>
      simp only [rangeFrom, Nat.le_zero, exists_eq_left, counter]
      split
      next hless => simp [hless]
      next hless => simpa using hless
  | succ fuel ih =>
      rw [rangeFrom]
      split
      next hless =>
        rw [Option.isSome_map, ih]
        simp only [counter_shift]
        constructor
        · rintro ⟨k, hk, hstop⟩
          exact ⟨k + 1, by omega, hstop⟩
        · rintro ⟨k, hk, hstop⟩
          cases k with
          | zero =>
              simp only [counter] at hstop
              omega
          | succ k => exact ⟨k, by omega, hstop⟩
      next hless =>
        simp only [Option.isSome_some, true_iff]
        exact ⟨0, by omega, not_lt.mp hless⟩

/-- The distance between neighbouring numbers that the counter reaches. -/
def stride (step : ℤ) : ℕ := Int.gcd step (2 ^ 64)

/-- The largest number that the counter reaches once it has been increased. -/
def lastReached (start step : ℤ) : ℤ :=
  2 ^ 63 - 1 - (2 ^ 63 - 1 - start) % stride step

def rangeEnds (start stop step : ℤ) : Bool :=
  stop ≤ start || stop ≤ lastReached start step

theorem stride_pos (step : ℤ) : 0 < (stride step : ℤ) := by
  have hne : Int.gcd step (2 ^ 64) ≠ 0 := by
    rw [Ne, Int.gcd_eq_zero_iff]
    rintro ⟨_, htwo⟩
    norm_num at htwo
  unfold stride
  omega

theorem stride_le (step : ℤ) : (stride step : ℤ) ≤ 2 ^ 64 :=
  Int.le_of_dvd (by norm_num) (Int.gcd_dvd_right _ _)

theorem stride_dvd_lastReached (start step : ℤ) :
    (stride step : ℤ) ∣ lastReached start step - start := by
  unfold lastReached
  have hmod := Int.emod_add_mul_ediv (2 ^ 63 - 1 - start) (stride step)
  refine ⟨(2 ^ 63 - 1 - start) / stride step, ?_⟩
  linarith

theorem lastReached_bounds (start step : ℤ) :
    -2 ^ 63 ≤ lastReached start step ∧ lastReached start step < 2 ^ 63 := by
  have hpos := stride_pos step
  have hsmall := stride_le step
  have hrest := Int.emod_nonneg (2 ^ 63 - 1 - start) hpos.ne'
  have hless := Int.emod_lt_of_pos (2 ^ 63 - 1 - start) hpos
  unfold lastReached
  omega

theorem counter_le_lastReached (start step : ℤ) (k : ℕ) :
    counter start step (k + 1) ≤ lastReached start step := by
  rw [counter_succ]
  set total := start + (k + 1 : ℕ) * step with htotal
  have hlt : wrap total < 2 ^ 63 := by
    have hbound := @Int.bmod_lt total (2 ^ 64) (by norm_num)
    unfold wrap
    norm_num at hbound ⊢
    exact hbound
  -- the counter and the limit agree modulo the stride
  have hdvd : (stride step : ℤ) ∣ wrap total - start := by
    have hwrap : (stride step : ℤ) ∣ wrap total - total :=
      dvd_trans (Int.gcd_dvd_right step (2 ^ 64)) (by
        have hsub := @Int.dvd_bmod_sub_self total (2 ^ 64)
        norm_num at hsub ⊢
        exact hsub)
    have hstep : (stride step : ℤ) ∣ total - start := by
      rw [htotal, add_sub_cancel_left]
      exact Dvd.dvd.mul_left (Int.gcd_dvd_left step (2 ^ 64)) _
    have hsum := dvd_add hwrap hstep
    rwa [sub_add_sub_cancel] at hsum
  have hmod : (2 ^ 63 - 1 - wrap total) % (stride step : ℤ) =
      (2 ^ 63 - 1 - start) % (stride step : ℤ) := by
    rw [Int.emod_eq_emod_iff_emod_sub_eq_zero]
    apply Int.emod_eq_zero_of_dvd
    have hneg : (2 ^ 63 - 1 - wrap total) - (2 ^ 63 - 1 - start) = -(wrap total - start) := by
      ring
    rw [hneg]
    exact (dvd_neg).mpr hdvd
  have hle : (2 ^ 63 - 1 - wrap total) % (stride step : ℤ) ≤ 2 ^ 63 - 1 - wrap total := by
    have hdiv := Int.emod_add_mul_ediv (2 ^ 63 - 1 - wrap total) (stride step)
    have hquotient : 0 ≤ (2 ^ 63 - 1 - wrap total) / (stride step : ℤ) :=
      Int.ediv_nonneg (by omega) (stride_pos step).le
    have hproduct := mul_nonneg (stride_pos step).le hquotient
    linarith
  unfold lastReached
  omega

theorem exists_counter_eq_lastReached (start step : ℤ) :
    ∃ k, counter start step (k + 1) = lastReached start step := by
  rcases stride_dvd_lastReached start step with ⟨t, ht⟩
  obtain ⟨u, v, hbezout⟩ : ∃ u v : ℤ, (stride step : ℤ) = step * u + 2 ^ 64 * v :=
    ⟨_, _, Int.gcd_eq_gcd_ab step (2 ^ 64)⟩
  obtain ⟨steps, hsteps⟩ : ∃ steps, steps = u * t := ⟨_, rfl⟩
  -- a positive number of steps with the same residue
  set k : ℕ := (steps % 2 ^ 64 + (2 ^ 64 - 1)).toNat with hk
  have hnonneg : 0 ≤ steps % 2 ^ 64 := Int.emod_nonneg _ (by norm_num)
  have hcast : ((k + 1 : ℕ) : ℤ) = steps % 2 ^ 64 + 2 ^ 64 := by
    push_cast
    rw [hk, Int.toNat_of_nonneg (by omega)]
    omega
  refine ⟨k, ?_⟩
  rw [counter_succ, hcast]
  unfold wrap
  rw [Int.bmod_eq_iff (by norm_num)]
  have hbounds := lastReached_bounds start step
  refine ⟨by norm_num; omega, by norm_num; omega, ?_⟩
  -- the last number is start plus stride times t
  have hlast : lastReached start step = start + stride step * t := by linarith
  have hmod : steps % 2 ^ 64 = steps - 2 ^ 64 * (steps / 2 ^ 64) := by
    have hdiv := Int.emod_add_mul_ediv steps (2 ^ 64)
    linarith
  refine ⟨v * t + steps / 2 ^ 64 * step - step, ?_⟩
  rw [hlast, hmod, hbezout]
  push_cast
  linear_combination (-step) * hsteps

theorem rangeFrom_of_ends {start stop step : ℤ} (hends : rangeEnds start stop step = true) :
    ∃ n, ∀ fuel ≥ n, (rangeFrom fuel start stop step).isSome = true := by
  simp only [rangeEnds, Bool.or_eq_true, decide_eq_true_eq] at hends
  rcases hends with hstart | hlast
  · refine ⟨0, fun fuel _ => ?_⟩
    exact (rangeFrom_isSome_iff fuel start stop step).mpr ⟨0, by omega, hstart⟩
  · rcases exists_counter_eq_lastReached start step with ⟨k, hk⟩
    refine ⟨k + 1, fun fuel hfuel => ?_⟩
    exact (rangeFrom_isSome_iff fuel start stop step).mpr ⟨k + 1, hfuel, hk ▸ hlast⟩

theorem rangeFrom_of_not_ends {start stop step : ℤ}
    (hends : rangeEnds start stop step = false) (fuel : ℕ) :
    rangeFrom fuel start stop step = none := by
  simp only [rangeEnds, Bool.or_eq_false_iff, decide_eq_false_iff_not, not_le] at hends
  by_contra hne
  rcases (rangeFrom_isSome_iff fuel start stop step).mp (Option.isSome_iff_ne_none.mpr hne) with
    ⟨k, _, hstop⟩
  cases k with
  | zero =>
      simp only [counter] at hstop
      omega
  | succ k =>
      have hle := counter_le_lastReached start step k
      omega

/-- The arguments of `range` with which its loop does not end. -/
def endlessRange : List Ast → Bool
  | [.int stop] => !rangeEnds 0 stop 1
  | [.int start, .int stop] => !rangeEnds start stop 1
  | [.int start, .int stop, .int step] => 0 < step && !rangeEnds start stop step
  | _ => false

def Event.endless : Event → Bool
  | .called name args => name = "range" && endlessRange args
  | _ => false

theorem rangeBetween_of_not_ends (fuel : ℕ) {start stop step : ℤ} (hstep : 0 < step)
    (hends : rangeEnds start stop step = false) (env : Env) :
    rangeBetween fuel start stop step env = ⟨.timeout, env, []⟩ := by
  unfold rangeBetween
  rw [if_neg (not_le.mpr hstep), rangeFrom_of_not_ends hends]
  rfl

theorem rangeImpl_of_endless {args : List Ast} (hendless : endlessRange args = true) (fuel : ℕ)
    (env : Env) : rangeImpl fuel args env = ⟨.timeout, env, []⟩ := by
  unfold endlessRange at hendless
  split at hendless
  next stop =>
    have hran : rangeImpl fuel [.int stop] env = rangeBetween fuel 0 stop 1 env := rfl
    rw [hran, rangeBetween_of_not_ends fuel (by norm_num) (by simpa using hendless)]
  next start stop =>
    have hran : rangeImpl fuel [.int start, .int stop] env = rangeBetween fuel start stop 1 env :=
      rfl
    rw [hran, rangeBetween_of_not_ends fuel (by norm_num) (by simpa using hendless)]
  next start stop step =>
    have hran : rangeImpl fuel [.int start, .int stop, .int step] env =
        rangeBetween fuel start stop step env := rfl
    simp only [Bool.and_eq_true, decide_eq_true_eq, Bool.not_eq_true'] at hendless
    rw [hran, rangeBetween_of_not_ends fuel hendless.1 hendless.2]
  next => cases hendless

end Lang
end Di
