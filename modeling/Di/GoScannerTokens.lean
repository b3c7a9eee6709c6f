import Di.GoScanner
import Di.GoFloatText

/-!
# Scanning a printed token

What the scanner finds in a text that begins with white space and one token, if
the token is followed by white space, by a closing parenthesis or by nothing.
-/

namespace Di
namespace GoScanner

/-- What follows every token of a printed program. -/
def Delimited (rest : List Char) : Prop := ∀ c ∈ rest.head?, c = ' ' ∨ c = '\n' ∨ c = ')'

theorem delimited_nil : Delimited [] := by simp [Delimited]

theorem Delimited.head {rest : List Char} (hrest : Delimited rest) {p : Char → Prop}
    (hspace : p ' ') (hline : p '\n') (hparen : p ')') : ∀ c ∈ rest.head?, p c := by
  intro c hmem
  rcases hrest c hmem with rfl | rfl | rfl
  · exact hspace
  · exact hline
  · exact hparen

@[simp] theorem between_append (front back : List Char) : between (front ++ back) back = front := by
  simp [between]

theorem dropWhile_append_stop {p : Char → Bool} {front rest : List Char}
    (hfront : ∀ c ∈ front, p c = true) (hrest : ∀ c ∈ rest.head?, p c = false) :
    (front ++ rest).dropWhile p = rest := by
  rw [List.dropWhile_append_of_pos hfront]
  cases rest with
  | nil => rfl
  | cons c more => simp [hrest c rfl]

/-! ## Classes of characters -/

section Classes

variable (u : Unicode) {c : Char}

theorem isIdentPart_ascii (hc : c.toNat < 128) :
    isIdentPart u c = (c = '_' || c.isAlpha || c.isDigit) := by
  rw [isIdentPart, u.letter_ascii c hc, u.digit_ascii c hc]

theorem isIdentStart_ascii (hc : c.toNat < 128) : isIdentStart u c = (c = '_' || c.isAlpha) := by
  rw [isIdentStart, u.letter_ascii c hc]

theorem isIdentPart_of_isIdentStart (hc : isIdentStart u c = true) : isIdentPart u c = true := by
  unfold isIdentStart at hc
  unfold isIdentPart
  rw [hc]
  rfl

theorem ne_of_isIdentPart (hc : isIdentPart u c = true) {d : Char} (hascii : d.toNat < 128)
    (hother : (d = '_' || d.isAlpha || d.isDigit) = false) : c ≠ d := by
  rintro rfl
  rw [isIdentPart_ascii u hascii, hother] at hc
  cases hc

theorem isDecimal_eq_isDigit (c : Char) : isDecimal c = c.isDigit := rfl

theorem isDigit_bounds (hc : c.isDigit = true) : 48 ≤ c.toNat ∧ c.toNat ≤ 57 := by
  simpa [Char.isDigit, UInt32.le_iff_toNat_le] using hc

theorem isIdentStart_of_isDigit (hc : c.isDigit = true) : isIdentStart u c = false := by
  have hbounds := isDigit_bounds hc
  have hunderscore : c ≠ '_' := by
    rintro rfl
    cases hc
  have halpha : c.isAlpha = false := by
    have hval : c.toNat = c.val.toNat := rfl
    delta Char.isAlpha Char.isUpper Char.isLower
    simp [UInt32.le_iff_toNat_le]
    omega
  rw [isIdentStart_ascii u (by omega)]
  simp [hunderscore, halpha]

theorem isSpace_ne_slash (hc : isSpace c = true) : c ≠ '/' := by
  rintro rfl
  cases hc

end Classes

/-! ## White space -/

theorem skipBlank_append {blank : List Char} (hblank : ∀ c ∈ blank, isSpace c = true)
    (text : List Char) : skipBlank (blank ++ text) = skipBlank text := by
  induction blank with
  | nil => rfl
  | cons c rest ih =>
      have hc := hblank c List.mem_cons_self
      have hslash := isSpace_ne_slash hc
      rw [List.cons_append, skipBlank]
      · rw [if_pos hc]
        exact ih fun d hmem => hblank d (List.mem_cons_of_mem c hmem)
      · exact fun _ h _ => hslash h
      · exact fun _ h _ => hslash h

theorem skipBlank_token {c : Char} {rest : List Char} (hspace : isSpace c = false)
    (hslash : c = '/' → ∀ d ∈ rest.head?, d ≠ '/' ∧ d ≠ '*') :
    skipBlank (c :: rest) = (c :: rest, []) := by
  rw [skipBlank]
  · rw [if_neg (by simp [hspace])]
  · rintro more rfl rfl
    exact (hslash rfl '/' rfl).1 rfl
  · rintro more rfl rfl
    exact (hslash rfl '*' rfl).2 rfl

theorem nulErrors_eq_nil {consumed : List Char} (hnul : '\x00' ∉ consumed) :
    nulErrors consumed = [] := by
  have hfilter : consumed.filter (· = '\x00') = [] := by
    rw [List.filter_eq_nil_iff]
    intro c hmem hc
    rw [decide_eq_true_eq] at hc
    exact hnul (hc ▸ hmem)
  unfold nulErrors
  rw [hfilter]
  rfl

theorem scan_token {u : Unicode} {blank token rest more : List Char} {c : Char} {kind : Kind}
    (hblank : ∀ d ∈ blank, isSpace d = true) (htoken : token = c :: more)
    (hspace : isSpace c = false)
    (hslash : c = '/' → ∀ d ∈ (more ++ rest).head?, d ≠ '/' ∧ d ≠ '*')
    (hscan : scanAt u c (more ++ rest) = (kind, rest, [])) (hnul : '\x00' ∉ token) :
    scan u (blank ++ (token ++ rest)) = ⟨kind, token ++ rest, rest, []⟩ := by
  have hskip : skipBlank (blank ++ (token ++ rest)) = (c :: (more ++ rest), []) := by
    rw [skipBlank_append hblank, htoken, List.cons_append, skipBlank_token hspace hslash]
  have hbetween : between (blank ++ (token ++ rest)) rest = blank ++ token := by
    rw [← List.append_assoc, between_append]
  have hclean : nulErrors (blank ++ token) = [] := by
    apply nulErrors_eq_nil
    rw [List.mem_append, not_or]
    refine ⟨fun hmem => ?_, hnul⟩
    exact absurd (hblank _ hmem) (by decide)
  unfold scan
  rw [hskip]
  simp only [hscan, hbetween, hclean, List.append_nil]
  rw [htoken]
  rfl

/-! ## Names and symbols -/

structure IsName (u : Unicode) (name : List Char) : Prop where
  parts : ∀ c ∈ name, isIdentPart u c = true
  head : ∃ first rest, name = first :: rest ∧ isIdentStart u first = true

section Names

variable {u : Unicode} {blank rest : List Char}

theorem scan_name {name : List Char} (hblank : ∀ d ∈ blank, isSpace d = true)
    (hname : IsName u name) (hrest : ∀ c ∈ rest.head?, isIdentPart u c = false) :
    scan u (blank ++ (name ++ rest)) = ⟨.ident, name ++ rest, rest, []⟩ := by
  rcases hname.head with ⟨first, more, rfl, hfirst⟩
  have hpart := isIdentPart_of_isIdentStart u hfirst
  apply scan_token hblank rfl
  · by_contra hspace
    rw [Bool.not_eq_false, isSpace] at hspace
    simp only [Bool.or_eq_true, decide_eq_true_eq] at hspace
    rcases hspace with ((rfl | rfl) | rfl) | rfl
    all_goals exact ne_of_isIdentPart u hpart (by decide) (by decide) rfl
  · intro hslash
    exact absurd hslash (ne_of_isIdentPart u hpart (by decide) (by decide))
  · have hdrop : (more ++ rest).dropWhile (isIdentPart u) = rest :=
      dropWhile_append_stop (fun c hmem => hname.parts c (List.mem_cons_of_mem first hmem)) hrest
    simp [scanAt, hfirst, hdrop]
  · intro hnul
    exact ne_of_isIdentPart u (hname.parts _ hnul) (by decide) (by decide) rfl

/-- A character that is a token of its own. -/
def IsSymbol (c : Char) : Prop :=
  c.toNat < 128 ∧ c.isAlpha = false ∧ c.isDigit = false ∧ isSpace c = false ∧
    c ∉ ['_', '.', doubleQuote, singleQuote, backQuote, '\x00']

theorem scan_symbol {c : Char} (hblank : ∀ d ∈ blank, isSpace d = true) (hc : IsSymbol c)
    (hslash : c = '/' → ∀ d ∈ rest.head?, d ≠ '/' ∧ d ≠ '*') :
    scan u (blank ++ ([c] ++ rest)) = ⟨.symbol c, [c] ++ rest, rest, []⟩ := by
  rcases hc with ⟨hascii, halpha, hdigit, hspace, hother⟩
  simp only [List.mem_cons, List.not_mem_nil, or_false, not_or] at hother
  rcases hother with ⟨hunderscore, hpoint, hdouble, hsingle, hback, hnul⟩
  apply scan_token hblank rfl hspace
  · exact hslash
  · have hstart : isIdentStart u c = false := by
      rw [isIdentStart_ascii u hascii]
      simp [hunderscore, halpha]
    simp [scanAt, hstart, isDecimal_eq_isDigit, hdigit, hdouble, hsingle, hpoint, hback]
  · simpa using Ne.symm hnul

end Names

/-! ## Numbers -/

section Numbers

variable {u : Unicode} {blank rest : List Char}

theorem skipDecimals_append {digits : List Char} (hdigits : ∀ c ∈ digits, c.isDigit = true)
    (hrest : ∀ c ∈ rest.head?, c.isDigit = false) : skipDecimals (digits ++ rest) = rest :=
  dropWhile_append_stop hdigits hrest

theorem Delimited.skipDecimals {digits : List Char} (hrest : Delimited rest)
    (hdigits : ∀ c ∈ digits, c.isDigit = true) : skipDecimals (digits ++ rest) = rest :=
  skipDecimals_append hdigits (hrest.head rfl rfl rfl)

theorem Delimited.continuesFloat (hrest : Delimited rest) : continuesFloat rest = false := by
  cases rest with
  | nil => rfl
  | cons c more => rcases hrest c rfl with rfl | rfl | rfl <;> rfl

theorem Delimited.scanExponent (hrest : Delimited rest) : scanExponent rest = rest := by
  cases rest with
  | nil => rfl
  | cons c more => rcases hrest c rfl with rfl | rfl | rfl <;> rfl

theorem scan_number {token more : List Char} {c : Char} {kind : Kind}
    (hblank : ∀ d ∈ blank, isSpace d = true) (htoken : token = c :: more)
    (hc : c.isDigit = true) (hscan : scanNumber c (more ++ rest) = (kind, rest, []))
    (hnul : '\x00' ∉ token) :
    scan u (blank ++ (token ++ rest)) = ⟨kind, token ++ rest, rest, []⟩ := by
  have hspace : isSpace c = false := by
    by_contra hspace
    rw [Bool.not_eq_false, isSpace] at hspace
    simp only [Bool.or_eq_true, decide_eq_true_eq] at hspace
    rcases hspace with ((rfl | rfl) | rfl) | rfl <;> cases hc
  apply scan_token hblank htoken hspace
  · rintro rfl
    cases hc
  · simp [scanAt, isIdentStart_of_isDigit u hc, isDecimal_eq_isDigit, hc, hscan]
  · exact hnul

theorem nul_notMem_of_digits {digits : List Char} (hdigits : ∀ c ∈ digits, c.isDigit = true) :
    '\x00' ∉ digits := by
  intro hmem
  exact absurd (hdigits _ hmem) (by decide)

theorem scan_int {digits : List Char} (hblank : ∀ d ∈ blank, isSpace d = true)
    (hdigits : digits = ['0'] ∨ GoFloat.Significant digits) (hrest : Delimited rest) :
    scan u (blank ++ (digits ++ rest)) = ⟨.int, digits ++ rest, rest, []⟩ := by
  rcases hdigits with rfl | hdigits
  · apply scan_number hblank rfl rfl
    · cases rest with
      | nil => rfl
      | cons c more =>
          have hskip : skipDecimals ([] ++ c :: more) = c :: more :=
            hrest.skipDecimals (by simp)
          have hfloat := hrest.continuesFloat
          rw [List.nil_append] at hskip
          have hx : ¬(c = 'x' ∨ c = 'X') := by
            rcases hrest c rfl with rfl | rfl | rfl <;> decide
          simp [scanNumber, hx, hskip, hfloat, between]
    · decide
  · rcases hdigits.head with ⟨first, more, rfl, hfirst⟩
    apply scan_number hblank rfl (hdigits.all_digits first List.mem_cons_self)
    · have hskip : skipDecimals (more ++ rest) = rest := hrest.skipDecimals
        fun c hmem => hdigits.all_digits c (List.mem_cons_of_mem first hmem)
      simp [scanNumber, hfirst, hskip, hrest.continuesFloat]
    · exact nul_notMem_of_digits hdigits.all_digits

theorem scanNumber_float {c : Char} {digits tail : List Char} (hc : c ≠ '0' ∨ digits = [])
    (hdigits : ∀ d ∈ digits, d.isDigit = true) (hstart : continuesFloat tail = true)
    (hx : tail.head? ≠ some 'x' ∧ tail.head? ≠ some 'X')
    (hstop : ∀ d ∈ tail.head?, d.isDigit = false) :
    scanNumber c (digits ++ tail) = (.float, scanExponent (scanFraction tail), []) := by
  have hskip : skipDecimals (digits ++ tail) = tail := skipDecimals_append hdigits hstop
  by_cases hzero : c = '0'
  · have hnil : digits = [] := by
      rcases hc with hc | hnil
      · exact absurd hzero hc
      · exact hnil
    subst hnil
    cases tail with
    | nil => cases hstart
    | cons x more =>
        have hx' : ¬(x = 'x' ∨ x = 'X') := by simpa using hx
        rw [List.nil_append] at hskip ⊢
        simp [scanNumber, hzero, hx', hskip, hstart]
  · simp [scanNumber, hzero, hskip, hstart]

theorem scan_float {text : List Char} {value : ℚ} (hblank : ∀ d ∈ blank, isSpace d = true)
    (hprinted : GoFloat.Printed text value) (hfloat : '.' ∈ text ∨ 'e' ∈ text)
    (hrest : Delimited rest) :
    scan u (blank ++ (text ++ rest)) = ⟨.float, text ++ rest, rest, []⟩ := by
  have hnul : '\x00' ∉ text := by
    intro hmem
    rcases hprinted.char hmem with hdigit | hother
    · cases hdigit
    · exact absurd hother (by decide)
  cases hprinted with
  | whole hdigits =>
      rcases hfloat with hpoint | hexponent
      · exact absurd (hdigits.all_digits _ hpoint) (by decide)
      · exact absurd (hdigits.all_digits _ hexponent) (by decide)
  | @point front back hfront hback =>
      have hshape : ∃ first more, front = first :: more ∧ first.isDigit = true ∧
          (first ≠ '0' ∨ more = []) ∧ ∀ c ∈ more, c.isDigit = true := by
        rcases hfront with rfl | hfront
        · exact ⟨'0', [], rfl, rfl, .inr rfl, by simp⟩
        · rcases hfront.head with ⟨first, more, rfl, hfirst⟩
          exact ⟨first, more, rfl, hfront.all_digits first List.mem_cons_self, .inl hfirst,
            fun c hmem => hfront.all_digits c (List.mem_cons_of_mem first hmem)⟩
      rcases hshape with ⟨first, more, rfl, hfirst, hzero, hmore⟩
      apply scan_number hblank (List.cons_append ..) hfirst
      · rw [List.append_assoc, List.cons_append,
          scanNumber_float hzero hmore rfl (by simp) (by simp)]
        simp [scanFraction, hrest.skipDecimals hback, hrest.scanExponent]
      · exact hnul
  | @scientific first more exponent hdigits =>
      rcases GoFloat.exponentChars_eq exponent with ⟨digits, htext, _, hexponent, _⟩
      have hfirst := hdigits.all_digits first List.mem_cons_self
      have hmore : ∀ c ∈ more, c.isDigit = true :=
        fun c hmem => hdigits.all_digits c (List.mem_cons_of_mem first hmem)
      have hsign : ∀ sign, sign = '-' ∨ sign = '+' →
          scanExponent ('e' :: sign :: (digits ++ rest)) = rest := by
        intro sign hsign
        simp [scanExponent, hsign, hrest.skipDecimals hexponent]
      have hchosen : (if exponent < 0 then '-' else '+') = '-' ∨
          (if exponent < 0 then '-' else '+') = '+' := by
        split <;> simp
      have htail : ∀ sign, sign = '-' ∨ sign = '+' → scanNumber first
          ((if more = [] then [] else '.' :: more) ++ 'e' :: sign :: digits ++ rest) =
            (.float, rest, []) := by
        intro sign hchosen
        by_cases hnil : more = []
        · have hnumber := scanNumber_float (c := first) (.inr rfl) (by simp)
            (show continuesFloat ('e' :: sign :: (digits ++ rest)) = true from rfl)
            (by simp) (by simp)
          simpa [hnil, scanFraction, hsign sign hchosen] using hnumber
        · have hnumber := scanNumber_float (c := first) (.inr rfl) (by simp)
            (show continuesFloat ('.' :: (more ++ 'e' :: sign :: (digits ++ rest))) = true from rfl)
            (by simp) (by simp)
          have hskip : skipDecimals (more ++ 'e' :: sign :: (digits ++ rest)) =
              'e' :: sign :: (digits ++ rest) := skipDecimals_append hmore (by simp)
          simpa [hnil, scanFraction, hskip, hsign sign hchosen] using hnumber
      rw [htext]
      exact scan_number hblank (List.cons_append ..) hfirst (htail _ hchosen) (htext ▸ hnul)

end Numbers

/-! ## Strings -/

section Strings

variable {u : Unicode} {blank rest : List Char}

/-- Between double quotes the text is one legal string literal. -/
def Quotable (text : List Char) : Bool :=
  let literal := scanString doubleQuote .body (text ++ [doubleQuote])
  literal.rest = [] && literal.errors = []

theorem quoteEnd_ne_nil (state : QuoteState) : quoteEnd state ≠ [] := by
  unfold quoteEnd
  split <;> simp

theorem scanString_append {quote : Char} {text : List Char} (state : QuoteState)
    (hclean : (scanString quote state text).errors = []) (rest : List Char) :
    (scanString quote state (text ++ rest)).rest = (scanString quote state text).rest ++ rest ∧
      (scanString quote state (text ++ rest)).errors = [] := by
  induction text generalizing state with
  | nil => exact absurd hclean (quoteEnd_ne_nil state)
  | cons c more ih =>
      rw [List.cons_append]
      unfold scanString at hclean ⊢
      rcases hstep : quoteStep quote c state with ⟨errors, step⟩
      cases step with
      | close =>
          simp only [hstep] at hclean ⊢
          exact ⟨trivial, hclean⟩
      | cut => simp [hstep] at hclean
      | goto next n =>
          simp only [hstep, List.append_eq_nil_iff] at hclean ⊢
          have hnext := ih next hclean.2
          exact ⟨hnext.1, hclean.1, hnext.2⟩

theorem scan_string {text : List Char} (hblank : ∀ d ∈ blank, isSpace d = true)
    (hquotable : Quotable text = true) (hnul : '\x00' ∉ text) :
    scan u (blank ++ ((doubleQuote :: (text ++ [doubleQuote])) ++ rest)) =
      ⟨.string, (doubleQuote :: (text ++ [doubleQuote])) ++ rest, rest, []⟩ := by
  rw [Quotable, Bool.and_eq_true, decide_eq_true_eq, decide_eq_true_eq] at hquotable
  have hscan := scanString_append .body hquotable.2 rest
  rw [hquotable.1, List.nil_append] at hscan
  apply scan_token hblank rfl (by decide)
  · intro hslash
    exact absurd hslash (by decide)
  · have hstart : isIdentStart u doubleQuote = false := by
      rw [isIdentStart_ascii u (by decide)]
      decide
    have hdecimal : isDecimal doubleQuote = false := by decide
    simp only [scanAt, hstart, hdecimal, if_true, hscan.1, hscan.2]
    rfl
  · have hne : '\x00' ≠ doubleQuote := by decide
    simp [hnul, hne]

end Strings

/-! ## The text of a token -/

theorem between_append_dropWhile (p : Char → Bool) (front rest : List Char) :
    between (front ++ rest) (rest.dropWhile p) = front ++ rest.takeWhile p := by
  have hsplit : front ++ rest = (front ++ rest.takeWhile p) ++ rest.dropWhile p := by
    rw [List.append_assoc, List.takeWhile_append_dropWhile]
  conv_lhs => rw [hsplit]
  exact between_append _ _

theorem between_cons_dropWhile (p : Char → Bool) (c : Char) (rest : List Char) :
    between (c :: rest) (rest.dropWhile p) = c :: rest.takeWhile p :=
  between_append_dropWhile p [c] rest

theorem scanNumber_kind (c : Char) (rest : List Char) :
    (scanNumber c rest).1 = .int ∨ (scanNumber c rest).1 = .float := by
  unfold scanNumber
  split
  · split
    · split
      · exact .inl rfl
      · simp only
        split
        · exact .inr rfl
        · exact .inl rfl
    · exact .inl rfl
  · simp only
    split
    · exact .inr rfl
    · exact .inl rfl

theorem scanAt_cases {u : Unicode} {c : Char} {rest after : List Char} {kind : Kind}
    {errors : List String} (hscan : scanAt u c rest = (kind, after, errors)) :
    (kind = .ident ∧ isIdentStart u c = true ∧ after = rest.dropWhile (isIdentPart u)) ∨
      (kind = .symbol c ∧ after = rest) ∨ kind ∈ [.int, .float, .char, .string] := by
  unfold scanAt at hscan
  split_ifs at hscan with hstart
  · cases hscan
    exact .inl ⟨rfl, hstart, rfl⟩
  · rcases scanNumber_kind c rest with hkind | hkind
    · simp [← hkind, hscan]
    · simp [← hkind, hscan]
  · cases hscan
    simp
  · cases hscan
    simp
  · split at hscan
    · split at hscan
      · cases hscan
        simp
      · cases hscan
        exact .inr (.inl ⟨rfl, rfl⟩)
    · cases hscan
      exact .inr (.inl ⟨rfl, rfl⟩)
  · cases hscan
    simp
  · cases hscan
    exact .inr (.inl ⟨rfl, rfl⟩)

theorem scan_eq {u : Unicode} {text : List Char} (hkind : (scan u text).kind ≠ .eof) :
    ∃ c rest errors, scanAt u c rest = ((scan u text).kind, (scan u text).rest, errors) ∧
      (scan u text).start = c :: rest := by
  unfold scan at hkind ⊢
  rcases hskip : skipBlank text with ⟨_ | ⟨c, rest⟩, errors⟩
  · simp [hskip] at hkind
  · exact ⟨c, rest, (scanAt u c rest).2.2, rfl, rfl⟩

theorem isName_of_scan {u : Unicode} {text : List Char} (hkind : (scan u text).kind = .ident) :
    IsName u (scan u text).text := by
  have hne : (scan u text).kind ≠ .eof := by simp [hkind]
  rcases scan_eq hne with ⟨c, rest, errors, hscan, hstart⟩
  rw [hkind] at hscan
  rcases scanAt_cases hscan with ⟨-, hc, hafter⟩ | ⟨hother, -⟩ | hother
  · unfold Token.text
    rw [hstart, hafter, between_cons_dropWhile]
    constructor
    · intro d hmem
      rcases List.mem_cons.mp hmem with rfl | hmem
      · exact isIdentPart_of_isIdentStart u hc
      · exact List.mem_takeWhile_imp hmem
    · exact ⟨c, _, rfl, hc⟩
  · cases hother
  · simp at hother

theorem text_of_symbol {u : Unicode} {text : List Char} {c : Char}
    (hkind : (scan u text).kind = .symbol c) : (scan u text).text = [c] := by
  have hne : (scan u text).kind ≠ .eof := by simp [hkind]
  rcases scan_eq hne with ⟨d, rest, errors, hscan, hstart⟩
  rw [hkind] at hscan
  rcases scanAt_cases hscan with ⟨hother, -⟩ | ⟨hsymbol, hafter⟩ | hother
  · cases hother
  · cases hsymbol
    unfold Token.text
    rw [hstart, hafter]
    exact between_append [c] rest
  · simp at hother

/-! ## Progress -/

theorem skip_length (n : ℕ) (text : List Char) (htext : text.length ≤ n) :
    (skipBlank text).1.length ≤ text.length ∧ (skipLine text).1.length ≤ text.length ∧
      (skipBlock text).1.length ≤ text.length := by
  induction n generalizing text with
  | zero =>
      rw [List.eq_nil_of_length_eq_zero (Nat.le_zero.mp htext)]
      decide
  | succ n ih =>
      have hshorter : ∀ rest : List Char, rest.length < text.length →
          (skipBlank rest).1.length ≤ text.length ∧ (skipLine rest).1.length ≤ text.length ∧
            (skipBlock rest).1.length ≤ text.length := by
        intro rest hrest
        rcases ih rest (by omega) with ⟨hblank, hline, hblock⟩
        omega
      refine ⟨?_, ?_, ?_⟩
      · fun_cases skipBlank text with
        | case1 => exact le_rfl
        | case2 rest => exact (hshorter rest (by simp)).2.1
        | case3 rest => exact (hshorter rest (by simp)).2.2
        | case4 c rest => exact (hshorter rest (by simp)).1
        | case5 c rest => exact le_rfl
      · fun_cases skipLine text with
        | case1 => exact le_rfl
        | case2 rest => exact (hshorter rest (by simp)).1
        | case3 c rest => exact (hshorter rest (by simp)).2.1
      · fun_cases skipBlock text with
        | case1 => exact le_rfl
        | case2 rest => exact (hshorter rest (by simp)).1
        | case3 c rest => exact (hshorter rest (by simp)).2.2

theorem length_dropWhile_le (p : Char → Bool) (text : List Char) :
    (text.dropWhile p).length ≤ text.length := (List.dropWhile_suffix p).length_le

theorem scanFraction_length (text : List Char) : (scanFraction text).length ≤ text.length := by
  fun_cases scanFraction text with
  | case1 rest =>
      have hdrop := length_dropWhile_le isDecimal rest
      rw [skipDecimals, List.length_cons]
      omega
  | case2 => exact le_rfl

theorem scanExponent_length (text : List Char) : (scanExponent text).length ≤ text.length := by
  fun_cases scanExponent text with
  | case1 c _ sign more =>
      have hdrop := length_dropWhile_le isDecimal more
      simp only [skipDecimals, List.length_cons]
      omega
  | case2 c _ sign more =>
      have hdrop := length_dropWhile_le isDecimal (sign :: more)
      simp only [skipDecimals, List.length_cons] at hdrop ⊢
      omega
  | case3 => simp
  | case4 => exact le_rfl
  | case5 => exact le_rfl

theorem scanNumber_length (c : Char) (rest : List Char) :
    (scanNumber c rest).2.1.length ≤ rest.length := by
  have hskip := length_dropWhile_le isDecimal rest
  have hfloat : (scanExponent (scanFraction (skipDecimals rest))).length ≤ rest.length :=
    (scanExponent_length _).trans ((scanFraction_length _).trans hskip)
  unfold scanNumber
  split
  · split
    next x more =>
      split
      · have hhex := length_dropWhile_le (fun d => decide (digitVal d < 16)) more
        simp only [List.length_cons]
        omega
      · dsimp only
        split
        · exact hfloat
        · exact hskip
    · exact le_rfl
  · dsimp only
    split
    · exact hfloat
    · exact hskip

theorem scanString_length (quote : Char) (state : QuoteState) (text : List Char) :
    (scanString quote state text).rest.length ≤ text.length := by
  induction text generalizing state with
  | nil => exact le_rfl
  | cons c text ih =>
      rw [scanString, List.length_cons]
      split
      · exact Nat.le_succ _
      · exact Nat.le_succ _
      next next _ _ => exact (ih next).trans (Nat.le_succ _)

theorem scanRawString_length (text : List Char) :
    (scanRawString text).1.length ≤ text.length := by
  induction text with
  | nil => exact le_rfl
  | cons c rest ih =>
      rw [scanRawString, List.length_cons]
      split
      · exact Nat.le_succ _
      · exact ih.trans (Nat.le_succ _)

theorem scanAt_length (u : Unicode) (c : Char) (rest : List Char) :
    (scanAt u c rest).2.1.length ≤ rest.length := by
  unfold scanAt
  split
  · exact length_dropWhile_le _ rest
  split
  · exact scanNumber_length c rest
  split
  · exact scanString_length _ _ rest
  split
  · exact scanString_length _ _ rest
  split
  · split
    · split
      · exact (scanExponent_length _).trans (length_dropWhile_le isDecimal _)
      · exact le_rfl
    · exact le_rfl
  split
  · exact scanRawString_length rest
  · exact le_rfl

/-- Every token but the end of the text consumes a character. -/
theorem scan_progress (u : Unicode) (text : List Char) :
    ((scan u text).kind = .eof ∧ (scan u text).rest = []) ∨
      (scan u text).rest.length < text.length := by
  have hskip := (skip_length text.length text le_rfl).1
  unfold scan
  rcases hblank : skipBlank text with ⟨_ | ⟨c, rest⟩, errors⟩
  · exact .inl ⟨rfl, rfl⟩
  · right
    rw [hblank, List.length_cons] at hskip
    have hat := scanAt_length u c rest
    rcases hscan : scanAt u c rest with ⟨kind, after, more⟩
    rw [hscan] at hat
    simp only [hscan]
    exact Nat.lt_of_le_of_lt hat hskip

theorem scan_rest_lt {u : Unicode} {text : List Char} (hkind : (scan u text).kind ≠ .eof) :
    (scan u text).rest.length < text.length :=
  (scan_progress u text).resolve_left fun heof => hkind heof.1

theorem scan_rest_le (u : Unicode) (text : List Char) :
    (scan u text).rest.length ≤ text.length := by
  rcases scan_progress u text with ⟨_, hrest⟩ | hlt
  · simp [hrest]
  · exact hlt.le

end GoScanner
end Di
