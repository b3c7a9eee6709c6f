import Di.GoFloat
import Mathlib.Data.List.TakeWhile

/-!
# Reading back a printed number

A 64-bit number is an integer of at most 53 bits times a power of two.  Such a
number is its own nearest 64-bit number, and its decimal expansion is exact
after 1100 digits, so the search for the shortest decimal that reads as the same
number succeeds.  Whatever the layout of `%g`, the text denotes that decimal.
-/

namespace Di
namespace GoFloat

/-! ## Rounding -/

theorem roundEven_intCast (z : ℤ) : roundEven z = z := by
  simp [roundEven]

theorem floor_le_roundEven (q : ℚ) : q.floor ≤ roundEven q := by
  unfold roundEven
  simp only
  split
  · exact le_rfl
  · split
    · omega
    · split <;> omega

theorem roundEven_le {q : ℚ} {z : ℤ} (hle : q ≤ z) : roundEven q ≤ z := by
  have hfloor : q.floor ≤ z := by
    have hdown := Rat.floor_le q
    exact_mod_cast hdown.trans hle
  rcases hfloor.lt_or_eq with hlt | heq
  · unfold roundEven
    simp only
    split
    · omega
    · split
      · omega
      · split <;> omega
  · have hq : q = z := le_antisymm hle (heq ▸ Rat.floor_le q)
    rw [hq, roundEven_intCast]

/-- What a 64-bit number can be, apart from the bound on its size. -/
def Representable (r : ℚ) : Prop :=
  ∃ (k : ℕ) (e : ℤ), k ≤ 2 ^ 53 ∧ -1074 ≤ e ∧ r = k * 2 ^ e

theorem lt_two_zpow_ulpExponent (q : ℚ) : q < 2 ^ (ulpExponent q + 53) := by
  have hlog := Int.lt_zpow_succ_log_self (b := 2) (by norm_num) q
  have hmono : (2 : ℚ) ^ (Int.log 2 q + 1) ≤ 2 ^ (ulpExponent q + 53) := by
    apply zpow_le_zpow_right₀ (by norm_num)
    unfold ulpExponent
    omega
  exact lt_of_lt_of_le (by exact_mod_cast hlog) hmono

theorem representable_roundMagnitude {q : ℚ} (hq : 0 ≤ q) :
    Representable (roundMagnitude q) := by
  have hpos : (0 : ℚ) < 2 ^ ulpExponent q := by positivity
  have hsmall : q / 2 ^ ulpExponent q ≤ ((2 ^ 53 : ℤ) : ℚ) := by
    rw [div_le_iff₀ hpos]
    have hlt := lt_two_zpow_ulpExponent q
    rw [zpow_add₀ (by norm_num), mul_comm] at hlt
    exact_mod_cast hlt.le
  have hnonneg : 0 ≤ roundEven (q / 2 ^ ulpExponent q) := by
    apply le_trans _ (floor_le_roundEven _)
    exact Rat.le_floor_iff.mpr (by simpa using div_nonneg hq hpos.le)
  refine ⟨(roundEven (q / 2 ^ ulpExponent q)).toNat, ulpExponent q, ?_, le_max_left _ _, ?_⟩
  · have hle := roundEven_le hsmall
    omega
  · unfold roundMagnitude
    congr 1
    exact_mod_cast (Int.toNat_of_nonneg hnonneg).symm

theorem roundMagnitude_nonneg {q : ℚ} (hq : 0 ≤ q) : 0 ≤ roundMagnitude q := by
  rcases representable_roundMagnitude hq with ⟨k, e, _, _, hvalue⟩
  rw [hvalue]
  positivity

theorem exists_int_of_le {k : ℕ} {e e' : ℤ} (hle : e' ≤ e) :
    ∃ z : ℤ, (k : ℚ) * 2 ^ e / 2 ^ e' = z := by
  rcases Int.le.dest hle with ⟨n, hn⟩
  refine ⟨k * 2 ^ n, ?_⟩
  rw [mul_div_assoc, ← zpow_sub₀ (by norm_num), ← hn, add_sub_cancel_left, zpow_natCast]
  push_cast
  rfl

theorem Representable.exists_int {r : ℚ} (hr : Representable r) (hpos : 0 < r) :
    ∃ z : ℤ, r / 2 ^ ulpExponent r = z := by
  rcases hr with ⟨k, e, hk, he, rfl⟩
  rcases hk.lt_or_eq with hlt | heq
  · apply exists_int_of_le
    have hsmall : (k : ℚ) * 2 ^ e < 2 ^ (53 + e) := by
      rw [zpow_add₀ (by norm_num)]
      apply mul_lt_mul_of_pos_right _ (by positivity)
      exact_mod_cast hlt
    have hlog := (Int.lt_zpow_iff_log_lt (b := 2) (by norm_num) hpos).mp
      (by exact_mod_cast hsmall)
    unfold ulpExponent
    omega
  · -- the mantissa has overflowed: the number is a power of two
    have hpower : (k : ℚ) * 2 ^ e = 2 ^ (53 + e) := by
      rw [heq, zpow_add₀ (by norm_num)]
      norm_num
    have hlog : Int.log 2 ((2 : ℚ) ^ (53 + e)) = 53 + e := by
      exact_mod_cast Int.log_zpow (R := ℚ) (b := 2) (by norm_num) (53 + e)
    rw [hpower]
    have hone : (2 : ℚ) ^ (53 + e) = (1 : ℕ) * 2 ^ (53 + e) := by norm_num
    rw [hone]
    apply exists_int_of_le
    rw [← hone]
    unfold ulpExponent
    rw [hlog]
    omega

theorem Representable.roundMagnitude_eq {r : ℚ} (hr : Representable r) (hnonneg : 0 ≤ r) :
    roundMagnitude r = r := by
  rcases hnonneg.eq_or_lt with rfl | hpos
  · unfold roundMagnitude
    rw [zero_div]
    have hzero := roundEven_intCast 0
    rw [Int.cast_zero] at hzero
    simp [hzero]
  · rcases hr.exists_int hpos with ⟨z, hz⟩
    have hne : (2 : ℚ) ^ ulpExponent r ≠ 0 := by positivity
    unfold roundMagnitude
    rw [hz, roundEven_intCast, ← hz, div_mul_cancel₀ _ hne]

/-- The finite values of the type, as far as a literal can denote them. -/
structure IsNumber (r : ℚ) : Prop where
  representable : Representable r
  nonneg : 0 ≤ r
  bounded : r < 2 ^ 1024

theorem IsNumber.ofRat_eq {r : ℚ} (hr : IsNumber r) : ofRat r = .finite r := by
  unfold ofRat
  rw [abs_of_nonneg hr.nonneg, hr.representable.roundMagnitude_eq hr.nonneg]
  simp [hr.bounded, not_lt_of_ge hr.nonneg]

theorem isNumber_of_ofRat {q r : ℚ} (hq : 0 ≤ q) (hround : ofRat q = .finite r) :
    IsNumber r := by
  unfold ofRat at hround
  rw [abs_of_nonneg hq] at hround
  simp only [not_lt_of_ge hq, if_false] at hround
  split at hround
  next hbounded =>
    injection hround with hround
    subst hround
    exact ⟨representable_roundMagnitude hq, roundMagnitude_nonneg hq, hbounded⟩
  · cases hround

/-! ## The shortest decimal -/

theorem log_ten_le {r : ℚ} (hr : IsNumber r) (hpos : 0 < r) : Int.log 10 r ≤ 308 := by
  have hpowers : 2 ^ 1024 < 10 ^ 309 := by decide +kernel
  have hbound : r < ((10 : ℕ) : ℚ) ^ (309 : ℤ) := by
    apply hr.bounded.trans
    exact_mod_cast hpowers
  have hlog := (Int.lt_zpow_iff_log_lt (by norm_num) hpos).mp hbound
  omega

theorem exists_nat_of_le {k : ℕ} {e s : ℤ} (hle : s ≤ e) (hneg : s ≤ 0) :
    ∃ n : ℕ, (k : ℚ) * 2 ^ e / 10 ^ s = n := by
  rcases Int.le.dest hle with ⟨i, hi⟩
  rcases Int.le.dest hneg with ⟨j, hj⟩
  refine ⟨k * 2 ^ i * 5 ^ j, ?_⟩
  have hs : s = -j := by omega
  have he : e = i + -j := by omega
  have hten : (10 : ℚ) ^ (-(j : ℤ)) = 2 ^ (-(j : ℤ)) * 5 ^ (-(j : ℤ)) := by
    rw [← mul_zpow]
    norm_num
  rw [hs, he, hten, zpow_add₀ (by norm_num), zpow_neg (5 : ℚ)]
  push_cast
  rw [← zpow_natCast, ← zpow_natCast]
  field_simp

theorem nearestDecimal_exact {r : ℚ} (hr : IsNumber r) (hpos : 0 < r) :
    (nearestDecimal r 1100).value = r := by
  rcases hr.representable with ⟨k, e, hk, he, hvalue⟩
  have hlog := log_ten_le hr hpos
  -- the scale is below the exponent, so that the quotient is an integer
  have hscale : Int.log 10 r - 1100 + 1 ≤ e := by
    by_cases hlarge : -791 ≤ e
    · omega
    · have hsmall : r < ((10 : ℕ) : ℚ) ^ (0 : ℤ) := by
        have hmantissa : (k : ℚ) ≤ 2 ^ 53 := by exact_mod_cast hk
        calc r = k * 2 ^ e := hvalue
          _ ≤ 2 ^ (53 : ℤ) * 2 ^ e := by
              apply mul_le_mul_of_nonneg_right _ (by positivity)
              exact_mod_cast hmantissa
          _ = 2 ^ (53 + e) := by rw [zpow_add₀ (by norm_num)]
          _ < 2 ^ (0 : ℤ) := zpow_lt_zpow_right₀ (by norm_num) (by omega)
          _ = ((10 : ℕ) : ℚ) ^ (0 : ℤ) := by norm_num
      have hneg := (Int.lt_zpow_iff_log_lt (by norm_num) hpos).mp hsmall
      omega
  rcases exists_nat_of_le (k := k) hscale (by omega) with ⟨n, hn⟩
  rw [← hvalue] at hn
  have hround : roundEven (r / 10 ^ (Int.log 10 r - 1100 + 1)) = n := by
    rw [hn]
    exact_mod_cast roundEven_intCast n
  have hne : (10 : ℚ) ^ (Int.log 10 r - 1100 + 1) ≠ 0 := by positivity
  unfold nearestDecimal Decimal.value
  simp only [Nat.cast_ofNat]
  rw [hround, Int.toNat_natCast, ← hn, div_mul_cancel₀ _ hne]

theorem shortestFrom_reads (q : ℚ) (fuel n m : ℕ) (hle : n ≤ m) (hlt : m < n + fuel)
    (hreads : ofRat (nearestDecimal q m).value = .finite q) :
    ofRat (shortestFrom q n fuel).value = .finite q := by
  induction fuel generalizing n with
  | zero => omega
  | succ fuel ih =>
      unfold shortestFrom
      simp only
      split
      next hfound => exact hfound
      next hmissed =>
        have hne : n ≠ m := by
          rintro rfl
          exact hmissed hreads
        exact ih (n + 1) (by omega) (by omega)

theorem ofRat_shortestDecimal {r : ℚ} (hr : IsNumber r) (hpos : 0 < r) :
    ofRat (shortestDecimal r).value = .finite r := by
  apply shortestFrom_reads r 1100 1 1100 (by norm_num) (by norm_num)
  rw [nearestDecimal_exact hr hpos]
  exact hr.ofRat_eq

/-! ## Digits -/

theorem digitsValue_append (front back : List Char) :
    digitsValue (front ++ back) = digitsValue front * 10 ^ back.length + digitsValue back := by
  have hfold : ∀ (back : List Char) (value : ℕ),
      back.foldl (fun value c => 10 * value + (c.toNat - '0'.toNat)) value =
        value * 10 ^ back.length + digitsValue back := by
    intro back
    induction back with
    | nil => simp [digitsValue]
    | cons c rest ih =>
        intro value
        have hrest : digitsValue (c :: rest) =
            (c.toNat - '0'.toNat) * 10 ^ rest.length + digitsValue rest := by
          unfold digitsValue
          rw [List.foldl_cons, ih]
          simp [digitsValue]
        rw [List.foldl_cons, ih, hrest, List.length_cons]
        ring
  unfold digitsValue
  rw [List.foldl_append, hfold]
  rfl

theorem digitsValue_zeros (n : ℕ) : digitsValue (List.replicate n '0') = 0 := by
  induction n with
  | zero => rfl
  | succ n ih =>
      rw [List.replicate_succ', digitsValue_append, ih]
      rfl

theorem digitsValue_digitChars (n : ℕ) : digitsValue (digitChars n) = n := by
  have hdigit : ∀ d < 10, (digitChar d).toNat - '0'.toNat = d := by decide
  have hlist : ∀ digits : List ℕ, (∀ d ∈ digits, d < 10) →
      digitsValue (digits.reverse.map digitChar) = Nat.ofDigits 10 digits := by
    intro digits
    induction digits with
    | nil => intro _; rfl
    | cons d rest ih =>
        intro hsmall
        have hrest := ih fun d' hmem => hsmall d' (List.mem_cons_of_mem d hmem)
        rw [List.reverse_cons, List.map_append, digitsValue_append, hrest, Nat.ofDigits_cons]
        simp only [List.map_cons, List.map_nil, List.length_singleton, pow_one]
        have hlast : digitsValue [digitChar d] = d := by
          simpa [digitsValue] using hdigit d (hsmall d List.mem_cons_self)
        rw [hlast]
        ring
  unfold digitChars
  rw [hlist _ fun d hmem => Nat.digits_lt_base (by norm_num) hmem, Nat.ofDigits_digits]

theorem isDigit_of_mem_digitChars {n : ℕ} {c : Char} (hmem : c ∈ digitChars n) :
    c.isDigit = true := by
  have hdigit : ∀ d < 10, (digitChar d).isDigit = true := by decide
  rcases List.mem_map.mp hmem with ⟨d, hd, rfl⟩
  exact hdigit d (Nat.digits_lt_base (by norm_num) (List.mem_reverse.mp hd))

theorem digitChars_head {n : ℕ} {c : Char} {rest : List Char} (hchars : digitChars n = c :: rest) :
    c ≠ '0' := by
  have hdigit : ∀ d < 10, digitChar d = '0' → d = 0 := by decide
  rcases List.map_eq_cons_iff.mp hchars with ⟨d, ds, hreverse, rfl, _⟩
  have hdigits : Nat.digits 10 n = ds.reverse ++ [d] := by
    rw [← List.reverse_reverse (Nat.digits 10 n), hreverse, List.reverse_cons]
  have hn : n ≠ 0 := by
    rintro rfl
    simp at hdigits
  have hlast := Nat.getLast_digit_ne_zero 10 hn
  simp only [hdigits, List.getLast_append_singleton] at hlast
  have hmem : d ∈ Nat.digits 10 n := by simp [hdigits]
  intro hzero
  exact hlast (hdigit d (Nat.digits_lt_base (by norm_num) hmem) hzero)

/-- A digit string that does not begin with a zero. -/
structure Significant (digits : List Char) : Prop where
  all_digits : ∀ c ∈ digits, c.isDigit = true
  head : ∃ first rest, digits = first :: rest ∧ first ≠ '0'

theorem dropTrailingZeros_append (digits : List Char) :
    ∃ k, digits = dropTrailingZeros digits ++ List.replicate k '0' := by
  have hzeros : ∀ c ∈ digits.reverse.takeWhile (· = '0'), c = '0' := by
    intro c hmem
    simpa using List.mem_takeWhile_imp hmem
  refine ⟨(digits.reverse.takeWhile (· = '0')).length, ?_⟩
  calc digits =
        (digits.reverse.takeWhile (· = '0') ++ digits.reverse.dropWhile (· = '0')).reverse := by
        rw [List.takeWhile_append_dropWhile, List.reverse_reverse]
    _ = dropTrailingZeros digits ++ (digits.reverse.takeWhile (· = '0')).reverse := by
        rw [List.reverse_append]
        rfl
    _ = dropTrailingZeros digits ++
        List.replicate (digits.reverse.takeWhile (· = '0')).length '0' := by
        rw [← List.eq_replicate_of_mem hzeros, List.eq_replicate_of_mem hzeros,
          List.reverse_replicate]

theorem significant_dropTrailingZeros {n : ℕ} (hn : n ≠ 0) :
    Significant (dropTrailingZeros (digitChars n)) := by
  rcases dropTrailingZeros_append (digitChars n) with ⟨k, hk⟩
  constructor
  · intro c hmem
    apply isDigit_of_mem_digitChars (n := n)
    rw [hk]
    exact List.mem_append_left _ hmem
  · cases hdrop : dropTrailingZeros (digitChars n) with
    | nil =>
        have hvalue := digitsValue_digitChars n
        rw [hk, hdrop, List.nil_append, digitsValue_zeros] at hvalue
        exact absurd hvalue.symm hn
    | cons first rest =>
        refine ⟨first, rest, rfl, ?_⟩
        rw [hdrop] at hk
        exact digitChars_head hk

theorem digitChar_toNat {c : Char} (hc : c.isDigit = true) :
    c.toNat - '0'.toNat < 10 ∧ digitChar (c.toNat - '0'.toNat) = c := by
  have hbounds : 48 ≤ c.toNat ∧ c.toNat ≤ 57 := by
    simpa [Char.isDigit, UInt32.le_iff_toNat_le] using hc
  have hzero : '0'.toNat = 48 := rfl
  constructor
  · omega
  · unfold digitChar
    rw [hzero, Nat.add_sub_cancel' hbounds.1]
    exact Char.ofNat_toNat c

theorem toNat_ne_zero {c : Char} (hc : c.isDigit = true) (hne : c ≠ '0') :
    c.toNat - '0'.toNat ≠ 0 := by
  have hdigitZero : digitChar 0 = '0' := by decide
  intro hzero
  apply hne
  rw [← (digitChar_toNat hc).2, hzero, hdigitZero]

theorem digitsValue_eq_ofDigits (digits : List Char) :
    digitsValue digits = Nat.ofDigits 10 (digits.map fun c => c.toNat - '0'.toNat).reverse := by
  induction digits using List.reverseRecOn with
  | nil => rfl
  | append_singleton front c ih =>
      rw [digitsValue_append, ih, List.map_append, List.reverse_append]
      simp only [List.map_cons, List.map_nil, List.reverse_singleton, List.singleton_append,
        Nat.ofDigits_cons, List.length_singleton, pow_one]
      simp only [digitsValue, List.foldl_cons, List.foldl_nil]
      ring

theorem digits_ofDigits_reverse {value : Char → ℕ} {first : Char} {rest : List Char}
    (hsmall : ∀ c ∈ first :: rest, value c < 10) (hfirst : value first ≠ 0) :
    Nat.digits 10 (Nat.ofDigits 10 ((first :: rest).map value).reverse) =
      ((first :: rest).map value).reverse := by
  apply Nat.digits_ofDigits 10 (by norm_num)
  · intro d hmem
    rcases List.mem_map.mp (List.mem_reverse.mp hmem) with ⟨c, hc, rfl⟩
    exact hsmall c hc
  · intro hne
    simpa using hfirst

theorem digitChars_digitsValue {digits : List Char} (hdigits : Significant digits) :
    digitChars (digitsValue digits) = digits := by
  have hmap : (digits.map fun c => c.toNat - '0'.toNat).map digitChar = digits := by
    rw [List.map_map]
    conv_rhs => rw [← List.map_id digits]
    exact List.map_congr_left fun c hc => (digitChar_toNat (hdigits.all_digits c hc)).2
  rcases hdigits.head with ⟨first, rest, rfl, hfirst⟩
  have hsmall := fun c hc => (digitChar_toNat (hdigits.all_digits c hc)).1
  have hvalue := toNat_ne_zero (hdigits.all_digits first List.mem_cons_self) hfirst
  unfold digitChars
  rw [digitsValue_eq_ofDigits, digits_ofDigits_reverse hsmall hvalue, List.reverse_reverse, hmap]

theorem digitsValue_lt {digits : List Char} (hdigits : ∀ c ∈ digits, c.isDigit = true) :
    digitsValue digits < 10 ^ digits.length := by
  rw [digitsValue_eq_ofDigits]
  have hsmall : ∀ d ∈ (digits.map fun c => c.toNat - '0'.toNat).reverse, d < 10 := by
    intro d hmem
    rcases List.mem_map.mp (List.mem_reverse.mp hmem) with ⟨c, hc, rfl⟩
    exact (digitChar_toNat (hdigits c hc)).1
  simpa using Nat.ofDigits_lt_base_pow_length (by norm_num) hsmall

/-! ## Literals -/

theorem spanDigits_append {digits rest : List Char} (hdigits : ∀ c ∈ digits, c.isDigit = true)
    (hrest : ∀ c ∈ rest.head?, c.isDigit = false) :
    spanDigits (digits ++ rest) = (digits, rest) := by
  have hnone : rest.takeWhile Char.isDigit = [] ∧ rest.dropWhile Char.isDigit = rest := by
    cases rest with
    | nil => exact ⟨rfl, rfl⟩
    | cons c more => simp [hrest c rfl]
  unfold spanDigits
  rw [List.span_eq_takeWhile_dropWhile, List.takeWhile_append_of_pos hdigits,
    List.dropWhile_append_of_pos hdigits, hnone.1, hnone.2, List.append_nil]

/-- The text of an exponent, or nothing. -/
def IsExponent (text : List Char) (exponent : ℤ) : Prop :=
  parseExponent text = some exponent ∧ (text = [] ∨ ∃ more, text = 'e' :: more)

theorem isExponent_nil : IsExponent [] 0 := ⟨rfl, .inl rfl⟩

theorem exponentChars_eq (exponent : ℤ) :
    ∃ digits, exponentChars exponent =
        'e' :: (if exponent < 0 then '-' else '+') :: digits ∧ digits ≠ [] ∧
      (∀ c ∈ digits, c.isDigit = true) ∧ digitsValue digits = exponent.natAbs := by
  unfold exponentChars
  simp only
  refine ⟨_, rfl, ?_, ?_, ?_⟩
  · split
    next hshort =>
      intro hnil
      have := congrArg List.length hnil
      simp at this
      omega
    next hlong =>
      intro hnil
      rw [hnil] at hlong
      simp at hlong
  · intro c hmem
    split at hmem
    · rcases List.mem_append.mp hmem with hzero | hdigit
      · rw [List.eq_of_mem_replicate hzero]
        rfl
      · exact isDigit_of_mem_digitChars hdigit
    · exact isDigit_of_mem_digitChars hmem
  · split
    · rw [digitsValue_append, digitsValue_zeros, digitsValue_digitChars]
      simp
    · exact digitsValue_digitChars _

theorem isExponent_exponentChars (exponent : ℤ) :
    IsExponent (exponentChars exponent) exponent := by
  rcases exponentChars_eq exponent with ⟨digits, htext, hne, hdigits, hvalue⟩
  rw [htext]
  refine ⟨?_, .inr ⟨_, rfl⟩⟩
  have hspan : spanDigits (digits ++ []) = (digits, []) := spanDigits_append hdigits (by simp)
  rw [List.append_nil] at hspan
  by_cases hneg : exponent < 0
  · simp [hneg, parseExponent, hspan, hne, hvalue, abs_of_neg]
  · simp [hneg, parseExponent, hspan, hne, hvalue, abs_of_nonneg (not_lt.mp hneg)]

theorem literalValue_plain {whole exponentText : List Char} {exponent : ℤ}
    (hdigits : ∀ c ∈ whole, c.isDigit = true) (hne : whole ≠ [])
    (hexponent : IsExponent exponentText exponent) :
    literalValue (whole ++ exponentText) = some ((digitsValue whole : ℚ) * 10 ^ exponent) := by
  rcases hexponent with ⟨hparse, rfl | ⟨more, rfl⟩⟩
  · have hspan : spanDigits (whole ++ []) = (whole, []) := spanDigits_append hdigits (by simp)
    rw [List.append_nil] at hspan ⊢
    simp [literalValue, hspan, hne, hparse]
  · have hspan : spanDigits (whole ++ 'e' :: more) = (whole, 'e' :: more) :=
      spanDigits_append hdigits (by simp)
    simp [literalValue, hspan, hne, hparse]

theorem literalValue_point {whole fraction exponentText : List Char} {exponent : ℤ}
    (hwhole : ∀ c ∈ whole, c.isDigit = true) (hfraction : ∀ c ∈ fraction, c.isDigit = true)
    (hne : whole ≠ []) (hexponent : IsExponent exponentText exponent) :
    literalValue (whole ++ '.' :: (fraction ++ exponentText)) =
      some ((digitsValue (whole ++ fraction) : ℚ) * 10 ^ (exponent - fraction.length)) := by
  have hspan : spanDigits (whole ++ '.' :: (fraction ++ exponentText)) =
      (whole, '.' :: (fraction ++ exponentText)) :=
    spanDigits_append hwhole (by simp)
  have hspan' : spanDigits (fraction ++ exponentText) = (fraction, exponentText) := by
    apply spanDigits_append hfraction
    rcases hexponent.2 with rfl | ⟨more, rfl⟩
    · simp
    · simp
  unfold literalValue
  simp only [hspan, hspan', List.append_eq_nil_iff, hne, false_and, if_false, hexponent.1]

theorem literalValue_nonneg {text : List Char} {q : ℚ} (hvalue : literalValue text = some q) :
    0 ≤ q := by
  unfold literalValue at hvalue
  simp only at hvalue
  -- with and without a fraction
  split at hvalue
  all_goals
    split at hvalue
    · cases hvalue
    · split at hvalue
      · cases hvalue
      · cases hvalue
        positivity

theorem isNumber_of_parseFloat {text : List Char} {r : ℚ} (hparse : parseFloat text = .finite r) :
    IsNumber r := by
  unfold parseFloat at hparse
  split at hparse
  · have hzero : ofRat 0 = .finite 0 := by decide +kernel
    injection hparse with hparse
    exact hparse ▸ isNumber_of_ofRat le_rfl hzero
  next q hvalue => exact isNumber_of_ofRat (literalValue_nonneg hvalue) hparse

/-! ## Layouts -/

/-- The texts that `%g` prints for a positive number, and the decimals they denote. -/
inductive Printed : List Char → ℚ → Prop
  | whole {digits : List Char} (hdigits : Significant digits) :
      Printed digits (digitsValue digits)
  | point {front back : List Char} (hfront : front = ['0'] ∨ Significant front)
      (hback : ∀ c ∈ back, c.isDigit = true) :
      Printed (front ++ '.' :: back) (digitsValue (front ++ back) * 10 ^ (-back.length : ℤ))
  | scientific {first : Char} {rest : List Char} {exponent : ℤ}
      (hdigits : Significant (first :: rest)) :
      Printed (first :: (if rest = [] then [] else '.' :: rest) ++ exponentChars exponent)
        (digitsValue (first :: rest) * 10 ^ (exponent - rest.length))

theorem Significant.ne_nil {digits : List Char} (hdigits : Significant digits) : digits ≠ [] := by
  rcases hdigits.head with ⟨first, rest, rfl, _⟩
  simp

theorem Printed.char {text : List Char} {value : ℚ} (hprinted : Printed text value) {c : Char}
    (hmem : c ∈ text) : c.isDigit = true ∨ c ∈ ['.', 'e', '+', '-'] := by
  cases hprinted with
  | whole hdigits => exact .inl (hdigits.all_digits c hmem)
  | @point front back hfront hback =>
      rcases List.mem_append.mp hmem with hfirst | hsecond
      · rcases hfront with rfl | hfront
        · rw [List.mem_singleton.mp hfirst]
          exact .inl rfl
        · exact .inl (hfront.all_digits c hfirst)
      · rcases List.mem_cons.mp hsecond with rfl | hdigit
        · simp
        · exact .inl (hback c hdigit)
  | @scientific first rest exponent hdigits =>
      rcases exponentChars_eq exponent with ⟨digits, htext, _, hexponent, _⟩
      rw [htext] at hmem
      rcases List.mem_append.mp hmem with hmantissa | hscale
      · rcases List.mem_cons.mp hmantissa with rfl | hrest
        · exact .inl (hdigits.all_digits c List.mem_cons_self)
        · split at hrest
          · cases hrest
          · rcases List.mem_cons.mp hrest with rfl | hdigit
            · simp
            · exact .inl (hdigits.all_digits c (List.mem_cons_of_mem first hdigit))
      · rcases List.mem_cons.mp hscale with rfl | hscale
        · simp
        · rcases List.mem_cons.mp hscale with rfl | hdigit
          · split <;> simp
          · exact .inl (hexponent c hdigit)

theorem literalValue_of_printed {text : List Char} {value : ℚ} (hprinted : Printed text value) :
    literalValue text = some value := by
  cases hprinted with
  | whole hdigits =>
      simpa using literalValue_plain hdigits.all_digits hdigits.ne_nil isExponent_nil
  | @point front back hfront hback =>
      have hdigits : (∀ c ∈ front, c.isDigit = true) ∧ front ≠ [] := by
        rcases hfront with rfl | hfront
        · simp
        · exact ⟨hfront.all_digits, hfront.ne_nil⟩
      simpa using literalValue_point hdigits.1 hback hdigits.2 isExponent_nil
  | @scientific first rest exponent hdigits =>
      have hexponent := isExponent_exponentChars exponent
      have hfirst : ∀ c ∈ [first], c.isDigit = true := by
        simpa using hdigits.all_digits first List.mem_cons_self
      by_cases hrest : rest = []
      · subst hrest
        simpa using literalValue_plain hfirst (by simp) hexponent
      · have hback : ∀ c ∈ rest, c.isDigit = true :=
          fun c hmem => hdigits.all_digits c (List.mem_cons_of_mem first hmem)
        simpa [hrest] using literalValue_point hfirst hback (by simp) hexponent

theorem printed_layoutG {digits : List Char} (hdigits : Significant digits) (point : ℤ) :
    Printed (layoutG digits point) (digitsValue digits * 10 ^ (point - digits.length)) := by
  rcases hdigits.head with ⟨first, rest, hcons, hfirst⟩
  unfold layoutG
  simp only
  split
  · -- scientific notation
    subst hcons
    have hprinted := @Printed.scientific first rest (point - 1) hdigits
    have hexponent : point - 1 - (rest.length : ℤ) = point - ((first :: rest).length : ℤ) := by
      rw [List.length_cons]
      push_cast
      ring
    rwa [hexponent] at hprinted
  · split
    next hpoint =>
      -- a number below one
      have hback : ∀ c ∈ List.replicate point.natAbs '0' ++ digits, c.isDigit = true := by
        intro c hmem
        rcases List.mem_append.mp hmem with hzero | hdigit
        · rw [List.eq_of_mem_replicate hzero]
          rfl
        · exact hdigits.all_digits c hdigit
      have hprinted := Printed.point (.inl rfl) hback
      have hvalue : digitsValue (['0'] ++ (List.replicate point.natAbs '0' ++ digits)) =
          digitsValue digits := by
        rw [digitsValue_append, digitsValue_append, digitsValue_zeros]
        simp [digitsValue]
      have hscale : (-((List.replicate point.natAbs '0' ++ digits).length : ℤ)) =
          point - digits.length := by
        rw [List.length_append, List.length_replicate]
        omega
      rw [hvalue, hscale] at hprinted
      exact hprinted
    next hpoint =>
      split
      next hlong =>
        -- zeros up to the decimal point
        rcases Nat.exists_eq_add_of_le hlong with ⟨k, hk⟩
        have hpad : Significant (digits ++ List.replicate k '0') := by
          constructor
          · intro c hmem
            rcases List.mem_append.mp hmem with hdigit | hzero
            · exact hdigits.all_digits c hdigit
            · rw [List.eq_of_mem_replicate hzero]
              rfl
          · exact ⟨first, rest ++ List.replicate k '0', by simp [hcons], hfirst⟩
        have hscale : point - (digits.length : ℤ) = (k : ℤ) := by omega
        have hprinted := Printed.whole hpad
        rw [digitsValue_append, digitsValue_zeros, List.length_replicate] at hprinted
        rw [hk, Nat.add_sub_cancel_left, hscale, zpow_natCast]
        exact_mod_cast hprinted
      next hshort =>
        -- the point is among the digits
        have hfront : Significant (digits.take point.toNat) := by
          constructor
          · exact fun c hmem => hdigits.all_digits c (List.mem_of_mem_take hmem)
          · rcases Nat.exists_eq_succ_of_ne_zero (n := point.toNat) (by omega) with ⟨n, hn⟩
            exact ⟨first, rest.take n, by simp [hn, hcons], hfirst⟩
        have hback : ∀ c ∈ digits.drop point.toNat, c.isDigit = true :=
          fun c hmem => hdigits.all_digits c (List.mem_of_mem_drop hmem)
        have hprinted := Printed.point (.inr hfront) hback
        have hscale : (-((digits.drop point.toNat).length : ℤ)) = point - digits.length := by
          rw [List.length_drop]
          omega
        rw [List.take_append_drop, hscale] at hprinted
        exact hprinted

theorem printed_positiveChars {r : ℚ} (hr : IsNumber r) (hpos : 0 < r) :
    ∃ value, Printed (positiveChars r) value ∧ ofRat value = .finite r := by
  have hreads := ofRat_shortestDecimal hr hpos
  have hne : (shortestDecimal r).digits ≠ 0 := by
    intro hzero
    have hvalue : (shortestDecimal r).value = 0 := by simp [Decimal.value, hzero]
    have hofZero : ofRat 0 = .finite 0 := by decide +kernel
    rw [hvalue, hofZero] at hreads
    injection hreads with hreads
    exact hpos.ne hreads
  refine ⟨(shortestDecimal r).value, ?_, hreads⟩
  rcases dropTrailingZeros_append (digitChars (shortestDecimal r).digits) with ⟨k, hk⟩
  have hprinted := printed_layoutG (significant_dropTrailingZeros hne)
    ((digitChars (shortestDecimal r).digits).length + (shortestDecimal r).scale)
  -- the dropped zeros are in the exponent
  have hdigits : ((shortestDecimal r).digits : ℚ) =
      digitsValue (dropTrailingZeros (digitChars (shortestDecimal r).digits)) * 10 ^ (k : ℤ) := by
    have hvalue := digitsValue_digitChars (shortestDecimal r).digits
    rw [hk, digitsValue_append, digitsValue_zeros, List.length_replicate] at hvalue
    rw [zpow_natCast]
    exact_mod_cast hvalue.symm
  have hlength := congrArg List.length hk
  rw [List.length_append, List.length_replicate] at hlength
  have hvalue : (shortestDecimal r).value =
      digitsValue (dropTrailingZeros (digitChars (shortestDecimal r).digits)) *
        10 ^ ((digitChars (shortestDecimal r).digits).length + (shortestDecimal r).scale -
          ((dropTrailingZeros (digitChars (shortestDecimal r).digits)).length : ℤ)) := by
    unfold Decimal.value
    rw [hdigits, mul_assoc, ← zpow_add₀ (by norm_num)]
    congr 2
    omega
  rw [hvalue]
  exact hprinted

/-- What `%g` prints for a number reads back as that number. -/
theorem parseFloat_formatG {r : ℚ} (hr : IsNumber r) :
    parseFloat (formatG (.finite r)) = .finite r := by
  rcases hr.nonneg.eq_or_lt with rfl | hpos
  · decide +kernel
  · rcases printed_positiveChars hr hpos with ⟨value, hprinted, hround⟩
    have hformat : formatG (.finite r) = positiveChars r := by
      simp [formatG, hpos.ne', not_lt_of_gt hpos]
    unfold parseFloat
    rw [hformat, literalValue_of_printed hprinted]
    exact hround

theorem length_layoutG {digits : List Char} {point : ℤ}
    (hpoint : '.' ∉ layoutG digits point) (hexponent : 'e' ∉ layoutG digits point) :
    (layoutG digits point).length ≤ 6 := by
  revert hpoint hexponent
  unfold layoutG
  simp only
  split_ifs with hscientific hbelow hlong
  · intro _ hexponent
    cases digits with
    | nil => simp
    | cons first rest => simp [exponentChars] at hexponent
  · intro hpoint _
    simp at hpoint
  · intro _ _
    rw [List.length_append, List.length_replicate]
    omega
  · intro hpoint _
    simp at hpoint

theorem formatG_whole {r : ℚ} (hr : IsNumber r) (hpos : 0 < r)
    (hpoint : '.' ∉ formatG (.finite r)) (hexponent : 'e' ∉ formatG (.finite r)) :
    Significant (formatG (.finite r)) ∧ (formatG (.finite r)).length ≤ 6 ∧
      ofInt (digitsValue (formatG (.finite r))) = .finite r := by
  have hformat : formatG (.finite r) = positiveChars r := by
    simp [formatG, hpos.ne', not_lt_of_gt hpos]
  rw [hformat] at hpoint hexponent ⊢
  rcases printed_positiveChars hr hpos with ⟨value, hprinted, hround⟩
  have hlength : (positiveChars r).length ≤ 6 := length_layoutG hpoint hexponent
  generalize positiveChars r = text at *
  cases hprinted with
  | whole hdigits => exact ⟨hdigits, hlength, hround⟩
  | point _ _ => simp at hpoint
  | scientific _ => simp [exponentChars] at hexponent

end GoFloat
end Di
