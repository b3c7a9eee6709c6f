import Di.DslPrint
import Di.GoFloatText

/-!
# Numbers as text

The text of an integer consists of its decimal digits behind an optional sign, and the
number can be read back from it.
-/

namespace Di
namespace Lang

theorem natChars_ne_nil (n : ℕ) : natChars n ≠ [] := by
  unfold natChars
  split
  next => exact List.cons_ne_nil _ _
  next hzero => simpa [GoFloat.digitChars, Nat.digits_eq_nil_iff_eq_zero] using hzero

theorem digitsValue_natChars (n : ℕ) : GoFloat.digitsValue (natChars n) = n := by
  unfold natChars
  split_ifs with hzero
  · rw [hzero]
    rfl
  · exact GoFloat.digitsValue_digitChars n

theorem intText_natCast (n : ℕ) : intText n = String.ofList (natChars n) := by
  have hnonneg : ¬((n : ℤ) < 0) := by omega
  simp [intText, hnonneg]

theorem mem_intText {x : ℤ} {c : Char} (hmem : c ∈ (intText x).toList) :
    c = '-' ∨ c.isDigit = true := by
  rw [intText, String.toList_ofList] at hmem
  split at hmem
  · rcases List.mem_cons.mp hmem with hminus | hmem
    · exact .inl hminus
    · exact .inr (isDigit_of_mem_natChars hmem)
  · exact .inr (isDigit_of_mem_natChars hmem)

theorem not_mem_intText (x : ℤ) {c : Char} (hminus : c ≠ '-') (hdigit : c.isDigit = false) :
    c ∉ (intText x).toList := by
  intro hmem
  rcases mem_intText hmem with hc | hc
  · exact hminus hc
  · exact absurd (hdigit ▸ hc) Bool.false_ne_true

theorem intText_injective {x y : ℤ} (htext : intText x = intText y) : x = y := by
  have hsign : ∀ n rest, natChars n ≠ '-' :: rest := by
    intro n rest heq
    have hmem : '-' ∈ natChars n := heq ▸ List.mem_cons_self
    exact absurd (isDigit_of_mem_natChars hmem) (by decide)
  have hchars := congrArg String.toList htext
  simp only [intText, String.toList_ofList] at hchars
  have habs : x.natAbs = y.natAbs ∧ (x < 0 ↔ y < 0) := by
    by_cases hx : x < 0
    · by_cases hy : y < 0
      · simp only [if_pos hx, if_pos hy, List.cons.injEq, true_and] at hchars
        exact ⟨by rw [← digitsValue_natChars x.natAbs, hchars, digitsValue_natChars],
          by simp [hx, hy]⟩
      · simp only [if_pos hx, if_neg hy] at hchars
        exact absurd hchars.symm (hsign _ _)
    · by_cases hy : y < 0
      · simp only [if_neg hx, if_pos hy] at hchars
        exact absurd hchars (hsign _ _)
      · simp only [if_neg hx, if_neg hy] at hchars
        exact ⟨by rw [← digitsValue_natChars x.natAbs, hchars, digitsValue_natChars],
          by simp [hx, hy]⟩
  omega

end Lang
end Di
