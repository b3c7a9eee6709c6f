import Di.DslTokens

/-!
# Integer literals

The scanner accepts decimal, octal and hexadecimal integers of any length.  The parser
converts all of them by `strconv.Atoi`, which reads decimal digits only, and ignores its
error: an octal literal is taken for a decimal one, a hexadecimal literal becomes zero,
and a number beyond 63 bits becomes the largest one.
-/

namespace Di
namespace Lang

open GoScanner Brackets

/-! ## What a literal denotes -/

def numeral (base : ℕ) (digits : List Char) : ℕ :=
  Nat.ofDigits base (digits.map digitVal).reverse

/-- The number that a Go literal stands for. -/
def literalValue : List Char → ℕ
  | '0' :: x :: digits =>
      if x = 'x' ∨ x = 'X' then numeral 16 digits else numeral 8 (x :: digits)
  | text => numeral 10 text

inductive IsIntLiteral : List Char → Prop
  | hex {x : Char} {digits : List Char} (hx : x = 'x' ∨ x = 'X')
      (hdigits : ∀ d ∈ digits, digitVal d < 16) : IsIntLiteral ('0' :: x :: digits)
  | octal {digits : List Char} (hdigits : ∀ d ∈ digits, isDecimal d = true ∧ digitVal d < 8) :
      IsIntLiteral ('0' :: digits)
  | decimal {c : Char} {digits : List Char} (hc : c ≠ '0')
      (hdigits : ∀ d ∈ c :: digits, isDecimal d = true) : IsIntLiteral (c :: digits)

def isHex : List Char → Bool
  | '0' :: x :: _ => x = 'x' || x = 'X'
  | _ => false

def isOctal : List Char → Bool
  | '0' :: x :: _ => x ≠ 'x' && x ≠ 'X'
  | _ => false

/-- The literals that the parser converts to what they denote. -/
def Exact (text : List Char) : Prop :=
  if isHex text then literalValue text = 0
  else if isOctal text then literalValue text < 8 ∨ literalValue text = 2 ^ 63 - 1
  else literalValue text < 2 ^ 63

instance : DecidablePred Exact := fun text =>
  inferInstanceAs (Decidable (if isHex text then literalValue text = 0
    else if isOctal text then literalValue text < 8 ∨ literalValue text = 2 ^ 63 - 1
    else literalValue text < 2 ^ 63))

/-! ## Octal digits read as decimal ones -/

theorem ofDigits_eq_zero_of_octal {digits : List ℕ} (hzero : Nat.ofDigits 8 digits = 0) :
    Nat.ofDigits 10 digits = 0 := by
  induction digits with
  | nil => rfl
  | cons d rest ih =>
      rw [Nat.ofDigits_cons] at hzero ⊢
      have hrest : Nat.ofDigits 8 rest = 0 := by omega
      rw [ih hrest]
      omega

/-- Read as decimal, octal digits are worth the same if only the last one counts, and
more otherwise. -/
theorem ofDigits_octal_decimal {digits : List ℕ} (hdigits : ∀ d ∈ digits, d < 8) :
    (Nat.ofDigits 8 digits < 8 → Nat.ofDigits 10 digits = Nat.ofDigits 8 digits) ∧
      (8 ≤ Nat.ofDigits 8 digits → Nat.ofDigits 8 digits < Nat.ofDigits 10 digits) := by
  cases digits with
  | nil => simp
  | cons d rest =>
      have hd := hdigits d List.mem_cons_self
      have hmono : Nat.ofDigits 8 rest ≤ Nat.ofDigits 10 rest :=
        Nat.ofDigits_monotone rest (by norm_num)
      rw [Nat.ofDigits_cons, Nat.ofDigits_cons]
      constructor
      · intro hsmall
        have hrest : Nat.ofDigits 8 rest = 0 := by omega
        rw [hrest, ofDigits_eq_zero_of_octal hrest]
      · intro hlarge
        omega

/-! ## The conversion -/

theorem digitVal_of_isDecimal {c : Char} (hc : isDecimal c = true) :
    digitVal c = c.toNat - '0'.toNat := by
  rw [digitVal, if_pos hc]

theorem digitsValue_eq_numeral {digits : List Char} (hdigits : ∀ d ∈ digits, isDecimal d = true) :
    GoFloat.digitsValue digits = numeral 10 digits := by
  rw [GoFloat.digitsValue_eq_ofDigits, numeral]
  congr 2
  apply List.map_congr_left
  intro d hmem
  exact (digitVal_of_isDecimal (hdigits d hmem)).symm

theorem numeral_zero_cons (base : ℕ) (digits : List Char) :
    numeral base ('0' :: digits) = numeral base digits := by
  have hzero : digitVal '0' = 0 := by decide
  rw [numeral, List.map_cons, List.reverse_cons, Nat.ofDigits_append, hzero]
  simp [numeral]

theorem atoi_decimal {digits : List Char} (hne : digits ≠ [])
    (hdigits : ∀ d ∈ digits, isDecimal d = true) :
    atoi digits = min (numeral 10 digits : ℤ) (2 ^ 63 - 1) := by
  rw [atoi, if_pos ⟨hne, List.all_eq_true.mpr hdigits⟩, digitsValue_eq_numeral hdigits]

theorem atoi_eq_literalValue_iff {text : List Char} (htext : IsIntLiteral text) :
    atoi text = literalValue text ↔ Exact text := by
  unfold Exact
  cases htext with
  | @hex x digits hx _ =>
      have hhex : isHex ('0' :: x :: digits) = true := by
        rcases hx with rfl | rfl <;> rfl
      have hcut : ¬(('0' :: x :: digits) ≠ [] ∧ ('0' :: x :: digits).all isDecimal = true) := by
        rintro ⟨_, hall⟩
        have hdecimal := List.all_eq_true.mp hall x (by simp)
        rcases hx with rfl | rfl <;> cases hdecimal
      rw [atoi, if_neg hcut, if_pos hhex]
      omega
  | @octal digits hdigits =>
      have hdecimal : ∀ d ∈ '0' :: digits, isDecimal d = true := by
        rw [List.forall_mem_cons]
        exact ⟨rfl, fun d hmem => (hdigits d hmem).1⟩
      cases digits with
      | nil => decide
      | cons x rest =>
          have hx : x ≠ 'x' ∧ x ≠ 'X' := by
            constructor <;> rintro rfl <;> cases (hdigits _ List.mem_cons_self).1
          have hvalue : literalValue ('0' :: x :: rest) = numeral 8 (x :: rest) := by
            rw [literalValue, if_neg (not_or.mpr hx)]
          have hsmall : ∀ d ∈ ((x :: rest).map digitVal).reverse, d < 8 := by
            intro d hmem
            rcases List.mem_map.mp (List.mem_reverse.mp hmem) with ⟨c, hc, rfl⟩
            exact (hdigits c hc).2
          rcases ofDigits_octal_decimal hsmall with ⟨hlow, hhigh⟩
          rw [atoi_decimal (List.cons_ne_nil _ _) hdecimal, hvalue, numeral_zero_cons,
            if_neg (by simp [isHex, hx]), if_pos (by simp [isOctal, hx])]
          unfold numeral
          omega
  | @decimal c digits hc hdigits =>
      have hshape : ∀ x rest, c :: digits ≠ '0' :: x :: rest :=
        fun x rest hcons => hc (List.cons.inj hcons).1
      have hvalue : literalValue (c :: digits) = numeral 10 (c :: digits) := by
        unfold literalValue
        split
        next hcons => exact absurd hcons (hshape _ _)
        · rfl
      have hhex : isHex (c :: digits) = false := by
        unfold isHex
        split
        next hcons => exact absurd hcons (hshape _ _)
        · rfl
      have hoctal : isOctal (c :: digits) = false := by
        unfold isOctal
        split
        next hcons => exact absurd hcons (hshape _ _)
        · rfl
      rw [atoi_decimal (List.cons_ne_nil _ _) hdigits, hvalue, hhex, hoctal,
        if_neg Bool.false_ne_true, if_neg Bool.false_ne_true]
      omega

/-! ## The literals of a text -/

theorem digitVal_lt_of_octal {d : Char} (hdecimal : isDecimal d = true) (hoctal : d ≤ '7') :
    digitVal d < 8 := by
  rw [digitVal_of_isDecimal hdecimal]
  have hnat : d.toNat ≤ '7'.toNat := hoctal
  have hseven : '7'.toNat = 55 := by decide
  have hzero : '0'.toNat = 48 := by decide
  omega

theorem forall_mem_takeWhile (p : Char → Bool) (text : List Char) :
    ∀ d ∈ text.takeWhile p, p d = true := fun _ hmem => List.mem_takeWhile_imp hmem

/-- The text of an integer that the scanner accepts is a Go literal. -/
theorem isIntLiteral_of_scanNumber {c : Char} {rest after : List Char}
    (hc : isDecimal c = true) (hscan : scanNumber c rest = (.int, after, [])) :
    IsIntLiteral (between (c :: rest) after) := by
  unfold scanNumber at hscan
  split at hscan
  next hzero =>
    subst hzero
    split at hscan
    next x more =>
      split at hscan
      next hx =>
        -- hexadecimal
        simp only [Prod.mk.injEq, true_and] at hscan
        rw [← hscan.1]
        have htext := between_append_dropWhile (fun d => decide (digitVal d < 16)) ['0', x] more
        rw [List.cons_append, List.singleton_append] at htext
        rw [htext]
        exact .hex hx fun d hmem => of_decide_eq_true (forall_mem_takeWhile _ _ d hmem)
      next hx =>
        dsimp only at hscan
        split at hscan
        · cases hscan
        · simp only [Prod.mk.injEq, true_and] at hscan
          rw [← hscan.1]
          have hdigits : between (x :: more) (skipDecimals (x :: more)) =
              (x :: more).takeWhile isDecimal := between_append_dropWhile isDecimal [] (x :: more)
          rw [skipDecimals, between_cons_dropWhile]
          refine .octal fun d hmem => ?_
          have hdecimal := forall_mem_takeWhile _ _ d hmem
          refine ⟨hdecimal, digitVal_lt_of_octal hdecimal (not_lt.mp fun hlarge => ?_)⟩
          have hany : (between (x :: more) (skipDecimals (x :: more))).any
              (fun d => decide ('7' < d)) = true := by
            rw [hdigits, List.any_eq_true]
            exact ⟨d, hmem, decide_eq_true hlarge⟩
          rw [if_pos hany] at hscan
          cases hscan.2
    · cases hscan
      exact .octal (by simp)
  next hzero =>
    dsimp only at hscan
    split at hscan
    · cases hscan
    · cases hscan
      rw [skipDecimals, between_cons_dropWhile]
      refine .decimal hzero ?_
      rw [List.forall_mem_cons]
      exact ⟨hc, forall_mem_takeWhile _ _⟩

theorem scanAt_int {u : Unicode} {c : Char} {rest after : List Char} {errors : List String}
    (hscan : scanAt u c rest = (.int, after, errors)) :
    isDecimal c = true ∧ scanNumber c rest = (.int, after, errors) := by
  unfold scanAt at hscan
  split at hscan
  · cases hscan
  split at hscan
  next hc => exact ⟨hc, hscan⟩
  split at hscan
  · cases hscan
  split at hscan
  · cases hscan
  split at hscan
  · split at hscan
    · split at hscan
      · cases hscan
      · cases hscan
    · cases hscan
  split at hscan
  · cases hscan
  · cases hscan

theorem isIntLiteral_of_scan {u : Unicode} {text : List Char} (hkind : (scan u text).kind = .int)
    (hclean : (scan u text).errors = []) : IsIntLiteral (scan u text).text := by
  unfold scan at hkind hclean ⊢
  rcases hskip : skipBlank text with ⟨_ | ⟨c, rest⟩, errors⟩
  · simp [hskip] at hkind
  · rcases hscan : scanAt u c rest with ⟨kind, after, more⟩
    simp only [hskip, hscan, List.append_eq_nil_iff] at hkind hclean
    rw [hkind, hclean.1.2] at hscan
    rcases scanAt_int hscan with ⟨hc, hnumber⟩
    simp only [hscan, Token.text]
    exact isIntLiteral_of_scanNumber hc hnumber

theorem isIntLiteral_of_nextItem {u : Unicode} {text digits : List Char}
    (hfound : (nextItem u text).found = some (.leaf (.int digits)))
    (hclean : (nextItem u text).errors = []) : IsIntLiteral digits := by
  unfold nextItem at hfound hclean
  dsimp only at hfound hclean
  cases hkind : (scan u text).kind with
  | int =>
      rw [hkind] at hfound hclean
      cases hfound
      exact isIntLiteral_of_scan hkind hclean
  | ident =>
      rw [hkind] at hfound
      simp only [Option.some.injEq, Item.leaf.injEq] at hfound
      rcases parseDotted_eq (u := u) (scan u text).rest.length (scan u text).text
        ⟨(scan u text).rest, {}, []⟩ with ⟨_, _, ⟨name, hname, _⟩ | ⟨hillegal, _⟩⟩
      · rw [hname] at hfound
        cases hfound
      · rw [hillegal] at hfound
        cases hfound
  | symbol c =>
      rw [hkind] at hfound
      dsimp only at hfound
      split_ifs at hfound <;> cases hfound
  | _ =>
      rw [hkind] at hfound
      cases hfound

/-- In a text without errors every integer is a Go literal. -/
theorem isIntLiteral_of_mem_tokens {u : Unicode} {text digits : List Char}
    (hclean : (tokens u text).errors = []) (hmem : .leaf (.int digits) ∈ (tokens u text).items) :
    IsIntLiteral digits := by
  induction hlength : text.length using Nat.strong_induction_on generalizing text with
  | _ n ih =>
      subst hlength
      cases hfound : (nextItem u text).found with
      | none =>
          rw [tokens_of_none hfound] at hmem
          cases hmem
      | some item =>
          rw [tokens_of_some hfound] at hclean hmem
          rw [List.append_eq_nil_iff] at hclean
          rcases List.mem_cons.mp hmem with rfl | hmem
          · exact isIntLiteral_of_nextItem hfound hclean.1
          · exact ih _ (nextItem_length hfound) hclean.2 hmem rfl

/-! ## Programs -/

/-- What a word stands for. -/
def Word.denoted : Word → Option Ast
  | .int text => some (.int (literalValue text))
  | word => word.read

/-- The integers of an accepted text are what its literals denote exactly if each of them
is a decimal number of 63 bits, an octal number of one digit or the largest one, or a
hexadecimal zero. -/
theorem parse_ints_exact_iff {u : Unicode} {filename : String} {text : List Char}
    {trees : List Ast} (hparse : parse u filename text = .ok trees) :
    (fileTokens u text).items.map (Item.map Word.denoted) = expected trees ↔
      ∀ digits, .leaf (.int digits) ∈ (fileTokens u text).items → Exact digits := by
  rcases parse_cases u filename text with ⟨other, hother, hclean, hitems⟩ | ⟨err, hother, _⟩
  · rw [hparse] at hother
    cases hother
    rw [← hitems, readItems, List.map_inj_left]
    have hint : ∀ digits, .leaf (.int digits) ∈ (fileTokens u text).items →
        (Item.map Word.denoted (.leaf (.int digits)) = Item.map Word.read (.leaf (.int digits)) ↔
          Exact digits) := by
      intro digits hmem
      rw [← atoi_eq_literalValue_iff (isIntLiteral_of_mem_tokens hclean hmem)]
      simp only [Item.map, Word.denoted, Word.read, Item.leaf.injEq, Option.some.injEq,
        Ast.scalar.injEq, Scalar.int.injEq]
      exact eq_comm
    constructor
    · intro hall digits hmem
      exact (hint digits hmem).mp (hall _ hmem)
    · intro hexact item hmem
      cases item with
      | opening => rfl
      | closing => rfl
      | leaf word =>
          cases word with
          | int digits => exact (hint digits hmem).mpr (hexact digits hmem)
          | _ => rfl
  · rw [hparse] at hother
    cases hother

def portText : List Char := "(connect 80 07 0x0)".toList

theorem parse_ints_exact_iff_port :
    ∃ trees, parse .ascii "" portText = .ok trees ∧
      (fileTokens .ascii portText).items.map (Item.map Word.denoted) = expected trees := by
  have haccepted : (parse .ascii "" portText).isOk = true := by decide
  have hitems : (fileTokens .ascii portText).items =
      [.opening, .leaf (.name "connect".toList), .leaf (.int "80".toList),
        .leaf (.int "07".toList), .leaf (.int "0x0".toList), .closing] := by decide
  cases hparse : parse .ascii "" portText with
  | error err =>
      rw [hparse] at haccepted
      cases haccepted
  | ok trees =>
      refine ⟨trees, rfl, (parse_ints_exact_iff hparse).mpr ?_⟩
      intro digits hmem
      rw [hitems] at hmem
      simp only [List.mem_cons, Item.leaf.injEq, Word.int.injEq, reduceCtorEq,
        List.not_mem_nil, or_false, false_or] at hmem
      rcases hmem with rfl | rfl | rfl <;> decide

def silentText : List Char := "(f 010 0x1F 9223372036854775808)".toList

/-- All three literals are changed without an error. -/
theorem silentText_changed :
    (parse .ascii "" silentText).toOption.map programText =
        some "(f 10 0 9223372036854775807)" ∧
      literalValue "010".toList = 8 ∧ literalValue "0x1F".toList = 31 ∧
      literalValue "9223372036854775808".toList = 9223372036854775808 := by
  decide

end Lang
end Di
