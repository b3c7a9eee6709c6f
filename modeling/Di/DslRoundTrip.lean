import Di.DslCompiled
import Di.DslShips

/-!
# Reading a printed program

A program that `New` compiled is printed tree by tree; the parser reads the text
back, up to what the text does not show, if every string in it is a legal literal
between double quotes, no number is infinite and no imported module is empty.
Whoever compiles the text then declares what the program itself declares there,
provided that its evaluation looks at nothing that the text does not determine.
-/

namespace Di
namespace Lang

open GoScanner
open List (Forall₂)

/-! ## Programs that survive printing -/

/-- Between double quotes the text is scanned as one string, without an error. -/
def Legible (text : List Char) : Bool := Quotable text && decide ('\x00' ∉ text)

def Scalar.portable : Scalar → Bool
  | .str text => Legible text.toList
  | .float x => x ≠ .posInf
  | _ => true

mutual

def Ast.portable : Ast → Bool
  | .sexp elems _ => Ast.portables elems
  | .moduleNode name body => Legible name.toList && !body.isEmpty && Ast.portables body
  | .scalar value => value.portable
  | _ => true

def Ast.portables : List Ast → Bool
  | [] => true
  | elem :: rest => elem.portable && Ast.portables rest

end

/-- Printing loses nothing of the program, and its evaluation looks at nothing that the text
does not determine. -/
def shippable (rt : Runtime) (fuel : ℕ) (program : List Ast) : Bool :=
  Ast.portables program && (evalProgram rt fuel program).trace.all (Event.determined program)

theorem portables_iff (elems : List Ast) :
    Ast.portables elems = true ↔ ∀ elem ∈ elems, elem.portable = true := by
  induction elems with
  | nil => simp [Ast.portables]
  | cons elem rest ih => simp [Ast.portables, ih]

/-! ## Elements -/

/-- The first element of a text, and the text behind it. -/
def Begins (u : Unicode) (text : List Char) (element : Element) (rest : List Char) : Prop :=
  ∀ pos, ∃ pos', parseElement u ⟨text, pos, []⟩ = (element, ⟨rest, pos', []⟩)

section Elements

variable {u : Unicode} {blank rest : List Char}

theorem Source.scan_clean {text start : List Char} {kind : Kind}
    (hscan : GoScanner.scan u text = ⟨kind, start, rest, []⟩) (pos : Position) :
    ∃ pos', Source.scan u ⟨text, pos, []⟩ = (⟨kind, start, rest, []⟩, ⟨rest, pos', []⟩) := by
  unfold Source.scan
  simp only [hscan, Source.moveTo]
  exact ⟨_, rfl⟩

theorem begins_eof : Begins u [] .eof [] := fun _ => ⟨_, rfl⟩

instance (c : Char) : Decidable (IsSymbol c) :=
  inferInstanceAs (Decidable (c.toNat < 128 ∧ c.isAlpha = false ∧ c.isDigit = false ∧
    isSpace c = false ∧ c ∉ ['_', '.', doubleQuote, singleQuote, backQuote, '\x00']))

theorem begins_opening (hblank : ∀ d ∈ blank, isSpace d = true) :
    Begins u (blank ++ (['('] ++ rest)) .opening rest := by
  intro pos
  have hscan : GoScanner.scan u (blank ++ (['('] ++ rest)) =
      ⟨.symbol '(', ['('] ++ rest, rest, []⟩ := scan_symbol hblank (by decide) (by simp)
  rcases Source.scan_clean hscan pos with ⟨pos', hsource⟩
  refine ⟨pos', ?_⟩
  unfold parseElement
  rw [hsource]
  rfl

theorem begins_closing : Begins u (')' :: rest) .closing rest := by
  intro pos
  have hscan : GoScanner.scan u (')' :: rest) = ⟨.symbol ')', ')' :: rest, rest, []⟩ :=
    scan_symbol (List.forall_mem_nil _) (by decide) (by simp)
  rcases Source.scan_clean hscan pos with ⟨pos', hsource⟩
  refine ⟨pos', ?_⟩
  unfold parseElement
  rw [hsource]
  rfl

theorem begins_operator (hblank : ∀ d ∈ blank, isSpace d = true) (hrest : Delimited rest)
    {c : Char} (hc : c ∈ operators) :
    Begins u (blank ++ ([c] ++ rest)) (.leaf (.ident (String.ofList [c]))) rest := by
  intro pos
  have hsymbol : ∀ d ∈ operators, IsSymbol d :=
    List.forall_iff_forall_mem.mp (by decide)
  have hident : ∀ d ∈ operators,
      String.ofList [d] ≠ "true" ∧ String.ofList [d] ≠ "false" :=
    List.forall_iff_forall_mem.mp (by decide +kernel)
  have hslash : c = '/' → ∀ d ∈ rest.head?, d ≠ '/' ∧ d ≠ '*' :=
    fun _ => hrest.head (by decide) (by decide) (by decide)
  have hscan := scan_symbol (u := u) hblank (hsymbol c hc) hslash
  rcases Source.scan_clean hscan pos with ⟨pos', hsource⟩
  refine ⟨pos', ?_⟩
  unfold parseElement
  simp only [hsource, if_pos hc, Token.text, between_append, parseIdent,
    if_neg (hident c hc).1, if_neg (hident c hc).2]

theorem isIdentPart_after_name (hrest : Delimited rest) (more : List (List Char)) :
    ∀ c ∈ (more.flatMap ('.' :: ·) ++ rest).head?, isIdentPart u c = false := by
  cases more with
  | nil =>
      exact hrest.head (by rw [isIdentPart_ascii u (by decide)]; decide)
        (by rw [isIdentPart_ascii u (by decide)]; decide)
        (by rw [isIdentPart_ascii u (by decide)]; decide)
  | cons part others =>
      intro c hmem
      cases hmem
      rw [isIdentPart_ascii u (by decide)]
      decide

theorem parseDotted_printed (hrest : Delimited rest) {more : List (List Char)}
    (hmore : ∀ part ∈ more, IsName u part) (name : List Char) (pos : Position) {fuel : ℕ}
    (hfuel : (more.flatMap ('.' :: ·) ++ rest).length ≤ fuel) :
    ∃ pos', parseDotted u fuel name ⟨more.flatMap ('.' :: ·) ++ rest, pos, []⟩ =
      (.ok (name ++ more.flatMap ('.' :: ·)), ⟨rest, pos', []⟩) := by
  induction more generalizing name pos fuel with
  | nil =>
      refine ⟨pos, ?_⟩
      have hpoint : ∀ more, rest ≠ '.' :: more := by
        rintro more rfl
        rcases hrest '.' rfl with h | h | h <;> cases h
      cases fuel with
      | zero => simp [parseDotted]
      | succ fuel =>
          unfold parseDotted
          simp only [List.flatMap_nil, List.nil_append, List.append_nil]
  | cons part others ih =>
      cases fuel with
      | zero => simp at hfuel
      | succ fuel =>
          have hpart := hmore part List.mem_cons_self
          have hothers := fun p hmem => hmore p (List.mem_cons_of_mem part hmem)
          have hscan : GoScanner.scan u (part ++ (others.flatMap ('.' :: ·) ++ rest)) =
              ⟨.ident, part ++ (others.flatMap ('.' :: ·) ++ rest),
                others.flatMap ('.' :: ·) ++ rest, []⟩ :=
            scan_name (List.forall_mem_nil _) hpart (isIdentPart_after_name hrest others)
          have htext : (part :: others).flatMap ('.' :: ·) ++ rest =
              '.' :: (part ++ (others.flatMap ('.' :: ·) ++ rest)) := by simp
          have hlength : (others.flatMap ('.' :: ·) ++ rest).length ≤ fuel := by
            rw [htext] at hfuel
            simp only [List.length_cons, List.length_append] at hfuel ⊢
            omega
          rw [htext]
          unfold parseDotted
          simp only [Source.moveTo]
          rcases Source.scan_clean hscan
            ((between ('.' :: (part ++ (others.flatMap ('.' :: ·) ++ rest)))
              (part ++ (others.flatMap ('.' :: ·) ++ rest))).foldl Position.advance pos)
            with ⟨behind, hsource⟩
          rcases ih hothers (name ++ '.' :: part) behind hlength with ⟨pos', hparse⟩
          refine ⟨pos', ?_⟩
          simp only [hsource, if_true, Token.text, between_append, hparse]
          simp

theorem begins_name (hblank : ∀ d ∈ blank, isSpace d = true) (hrest : Delimited rest)
    {name : List Char} (hname : IsDotted u name) :
    Begins u (blank ++ (name ++ rest)) (.leaf (parseIdent (String.ofList name))) rest := by
  intro pos
  rcases hname with ⟨first, more, hfirst, hmore, rfl⟩
  have hscan := scan_name hblank hfirst (isIdentPart_after_name hrest more)
  rcases Source.scan_clean hscan pos with ⟨behind, hsource⟩
  rcases parseDotted_printed hrest hmore first behind le_rfl with ⟨pos', hparse⟩
  refine ⟨pos', ?_⟩
  rw [List.append_assoc]
  unfold parseElement
  simp only [hsource, Token.text, between_append, hparse]

theorem begins_int (hblank : ∀ d ∈ blank, isSpace d = true) (hrest : Delimited rest)
    {digits : List Char} (hdigits : digits = ['0'] ∨ GoFloat.Significant digits) :
    Begins u (blank ++ (digits ++ rest)) (.leaf (.int (atoi digits))) rest := by
  intro pos
  rcases Source.scan_clean (scan_int (u := u) hblank hdigits hrest) pos with ⟨pos', hsource⟩
  refine ⟨pos', ?_⟩
  unfold parseElement
  simp only [hsource, Token.text, between_append]

theorem begins_str (hblank : ∀ d ∈ blank, isSpace d = true) {text : List Char}
    (htext : Trimmed text) (hlegible : Legible text = true) :
    Begins u (blank ++ ((doubleQuote :: (text ++ [doubleQuote])) ++ rest))
      (.leaf (.str (String.ofList text))) rest := by
  intro pos
  rw [Legible, Bool.and_eq_true, decide_eq_true_eq] at hlegible
  have hscan : GoScanner.scan u
      (blank ++ ((doubleQuote :: (text ++ [doubleQuote])) ++ rest)) = _ :=
    scan_string hblank hlegible.1 hlegible.2
  rcases Source.scan_clean hscan pos with ⟨pos', hsource⟩
  refine ⟨pos', ?_⟩
  unfold parseElement
  simp only [hsource, Token.text, between_append, trimQuotes_quoted htext]

theorem natChars_digits (n : ℕ) : natChars n = ['0'] ∨ GoFloat.Significant (natChars n) := by
  unfold natChars
  split_ifs with hzero
  · exact .inl rfl
  · right
    constructor
    · exact fun c hmem => GoFloat.isDigit_of_mem_digitChars hmem
    · cases hchars : GoFloat.digitChars n with
      | nil =>
          have hvalue := GoFloat.digitsValue_digitChars n
          rw [hchars] at hvalue
          exact absurd hvalue.symm hzero
      | cons first more => exact ⟨first, more, rfl, GoFloat.digitChars_head hchars⟩

theorem atoi_natChars {n : ℕ} (hn : n < 2 ^ 63) : atoi (natChars n) = n := by
  have hall : (natChars n).all isDecimal = true :=
    List.all_eq_true.mpr fun c hmem => isDigit_of_mem_natChars hmem
  unfold atoi
  rw [if_pos ⟨natChars_ne_nil n, hall⟩, digitsValue_natChars]
  omega

theorem begins_float (hblank : ∀ d ∈ blank, isSpace d = true) (hrest : Delimited rest) {r : ℚ}
    (hr : GoFloat.IsNumber r) :
    ∃ w, Scalar.Alike (.float (.finite r)) w ∧
      Begins u (blank ++ (GoFloat.formatG (.finite r) ++ rest)) (.leaf (.scalar w)) rest := by
  have hwhole : ∀ n < 2 ^ 63, GoFloat.formatG (.finite r) = natChars n →
      GoFloat.ofInt n = .finite r → ∃ w, Scalar.Alike (.float (.finite r)) w ∧
        Begins u (blank ++ (GoFloat.formatG (.finite r) ++ rest)) (.leaf (.scalar w)) rest := by
    intro n hn htext hvalue
    refine ⟨.int n, .whole htext hvalue, ?_⟩
    have hbegins := begins_int (u := u) hblank hrest (natChars_digits n)
    rwa [atoi_natChars hn, ← htext] at hbegins
  rcases hr.nonneg.eq_or_lt with rfl | hpos
  · exact hwhole 0 (by norm_num) rfl (by decide +kernel)
  · by_cases hfloat : '.' ∈ GoFloat.formatG (.finite r) ∨ 'e' ∈ GoFloat.formatG (.finite r)
    · refine ⟨.float (.finite r), .same _ (by simpa [Scalar.settled] using hfloat), ?_⟩
      intro pos
      rcases GoFloat.printed_positiveChars hr hpos with ⟨value, hprinted, _⟩
      have hformat : GoFloat.positiveChars r = GoFloat.formatG (.finite r) := by
        simp [GoFloat.formatG, hpos.ne', not_lt_of_gt hpos]
      rw [hformat] at hprinted
      have hscan := scan_float (u := u) hblank hprinted hfloat hrest
      rcases Source.scan_clean hscan pos with ⟨pos', hsource⟩
      refine ⟨pos', ?_⟩
      unfold parseElement
      simp only [hsource, Token.text, between_append, GoFloat.parseFloat_formatG hr]
    · rw [not_or] at hfloat
      rcases GoFloat.formatG_whole hr hpos hfloat.1 hfloat.2 with ⟨hdigits, hlength, hvalue⟩
      have hlt : GoFloat.digitsValue (GoFloat.formatG (.finite r)) < 10 ^ 6 :=
        (GoFloat.digitsValue_lt hdigits.all_digits).trans_le
          (Nat.pow_le_pow_right (by norm_num) hlength)
      have hne : GoFloat.digitsValue (GoFloat.formatG (.finite r)) ≠ 0 := by
        intro hzero
        have hchars := GoFloat.digitChars_digitsValue hdigits
        rw [hzero] at hchars
        exact hdigits.ne_nil hchars.symm
      refine hwhole _ (hlt.trans (by norm_num)) ?_ hvalue
      rw [natChars, if_neg hne, GoFloat.digitChars_digitsValue hdigits]

theorem isName_of_letters {name : List Char} (hne : name ≠ [])
    (hletters : name.Forall fun c => c.toNat < 128 ∧ c.isAlpha = true) : IsName u name := by
  rw [List.forall_iff_forall_mem] at hletters
  have hstart : ∀ c ∈ name, isIdentStart u c = true := by
    intro c hmem
    rw [isIdentStart_ascii u (hletters c hmem).1, (hletters c hmem).2, Bool.or_true]
  constructor
  · exact fun c hmem => isIdentPart_of_isIdentStart u (hstart c hmem)
  · rcases List.exists_cons_of_ne_nil hne with ⟨first, more, rfl⟩
    exact ⟨first, more, rfl, hstart first List.mem_cons_self⟩

theorem begins_scalar (hblank : ∀ d ∈ blank, isSpace d = true) (hrest : Delimited rest)
    {v : Scalar} (hread : v.Read u) (hportable : v.portable = true) :
    ∃ w, v.Alike w ∧
      Begins u (blank ++ ((v.text .empty).toList ++ rest)) (.leaf (.scalar w)) rest := by
  cases v with
  | ident name =>
      refine ⟨_, .same _ rfl, ?_⟩
      rcases hread with ⟨c, hc, hname⟩ | ⟨hdotted, htrue, hfalse⟩
      · have hbegins := begins_operator (u := u) hblank hrest hc
        rwa [← hname, String.ofList_toList] at hbegins
      · have hbegins := begins_name hblank hrest hdotted
        rwa [String.ofList_toList, parseIdent, if_neg htrue, if_neg hfalse] at hbegins
  | bool b =>
      refine ⟨_, .same _ rfl, ?_⟩
      have hname : IsName u (Scalar.text .empty (.bool b)).toList := by
        apply isName_of_letters
        · cases b <;> decide +kernel
        · cases b <;> decide +kernel
      have hbegins := begins_name hblank hrest (isDotted_of_isName hname)
      have hident : parseIdent (Scalar.text .empty (.bool b)) = .bool b := by
        cases b <;> rfl
      rwa [String.ofList_toList, hident] at hbegins
  | int x =>
      rcases Int.eq_ofNat_of_zero_le hread.1 with ⟨n, rfl⟩
      have hn : n < 2 ^ 63 := by exact_mod_cast hread.2
      refine ⟨_, .same _ rfl, ?_⟩
      have hbegins := begins_int (u := u) hblank hrest (natChars_digits n)
      rw [atoi_natChars hn] at hbegins
      rwa [Scalar.text, intText_natCast, String.toList_ofList]
  | float x =>
      rcases x with r | _
      · have hfloat := begins_float (u := u) hblank hrest (hread r rfl)
        rwa [Scalar.text, floatText, String.toList_ofList]
      · simp [Scalar.portable] at hportable
  | str text =>
      refine ⟨_, .same _ rfl, ?_⟩
      have hbegins : Begins u
          (blank ++ ((doubleQuote :: (text.toList ++ [doubleQuote])) ++ rest)) _ rest :=
        begins_str hblank hread hportable
      have hquoted : (quoted text).toList = doubleQuote :: (text.toList ++ [doubleQuote]) := by
        simp [quoted, doubleQuote]
      rwa [String.ofList_toList, ← hquoted] at hbegins
  | _ => exact hread.elim

theorem text_ne_nil {v : Scalar} (hread : v.Read u) : (v.text .empty).toList ≠ [] := by
  cases v with
  | ident name =>
      rw [Scalar.text]
      rcases hread with ⟨c, _, hname⟩ | ⟨⟨first, more, hfirst, _, hname⟩, _⟩
      · simp [hname]
      · rcases hfirst.head with ⟨c, others, hcons, _⟩
        simp [hname, hcons]
  | bool b => cases b <;> decide +kernel
  | int x =>
      rcases Int.eq_ofNat_of_zero_le hread.1 with ⟨n, rfl⟩
      rw [Scalar.text, intText_natCast, String.toList_ofList]
      exact natChars_ne_nil n
  | float x =>
      rw [Scalar.text, floatText, String.toList_ofList]
      rcases x with r | _
      · intro hnil
        have hparse := GoFloat.parseFloat_formatG (hread r rfl)
        have hzero : GoFloat.parseFloat [] = .finite 0 := by decide +kernel
        rw [hnil, hzero] at hparse
        cases hparse
        cases hnil
      · simp [GoFloat.formatG]
  | str text => simp [Scalar.text, quoted]
  | _ => exact hread.elim

end Elements

/-! ## Sequences of trees -/

/-- The parser reads the trees with any fuel that exceeds the length of the text. -/
def Parses (u : Unicode) (depth : ℕ) (src : Source) (trees : List Ast) (last : Source) : Prop :=
  ∀ fuel, src.rest.length < fuel → parseText u fuel depth src = (.ok trees, last)

/-- The parser reads trees related to the printed ones and stops at `last`. -/
def Rereads (u : Unicode) (depth : ℕ) (text : List Char) (rel : Ast → Ast → Prop)
    (printed : List Ast) (last : List Char) : Prop :=
  ∀ pos, ∃ trees pos', Forall₂ rel printed trees ∧
    Parses u depth ⟨text, pos, []⟩ trees ⟨last, pos', []⟩

section Rules

variable {u : Unicode} {depth : ℕ} {text next after last : List Char}
  {rel rel' : Ast → Ast → Prop} {tree : Ast} {printed elems : List Ast}

theorem Rereads.eof (hbegins : Begins u text .eof last) : Rereads u 0 text rel [] last := by
  intro pos
  rcases hbegins pos with ⟨pos', helement⟩
  refine ⟨[], pos', .nil, ?_⟩
  intro fuel hfuel
  cases fuel with
  | zero => exact absurd hfuel (Nat.not_lt_zero _)
  | succ fuel =>
      unfold parseText
      rw [helement]
      rfl

theorem Rereads.closing (hbegins : Begins u text .closing last) :
    Rereads u (depth + 1) text rel [] last := by
  intro pos
  rcases hbegins pos with ⟨pos', helement⟩
  refine ⟨[], pos', .nil, ?_⟩
  intro fuel hfuel
  cases fuel with
  | zero => exact absurd hfuel (Nat.not_lt_zero _)
  | succ fuel =>
      unfold parseText
      rw [helement]
      rfl

theorem Rereads.leaf {leaf : Ast} (hbegins : Begins u text (.leaf leaf) next)
    (hlength : next.length < text.length) (hleaf : rel tree leaf)
    (hrest : Rereads u depth next rel printed last) :
    Rereads u depth text rel (tree :: printed) last := by
  intro pos
  rcases hbegins pos with ⟨behind, helement⟩
  rcases hrest behind with ⟨trees, pos', htrees, hparses⟩
  refine ⟨leaf :: trees, pos', .cons hleaf htrees, ?_⟩
  intro fuel hfuel
  cases fuel with
  | zero => exact absurd hfuel (Nat.not_lt_zero _)
  | succ fuel =>
      have hshorter : next.length < fuel := by
        have hbound : text.length < fuel + 1 := hfuel
        omega
      unfold parseText
      rw [helement]
      simp only [hparses fuel hshorter]

theorem Rereads.sexp (hbegins : Begins u text .opening next) (hlength : next.length < text.length)
    (helems : Rereads u (depth + 1) next rel' elems after) (hafter : after.length < text.length)
    (hsexp : ∀ elems' pos, Forall₂ rel' elems elems' → rel tree (.sexp elems' pos))
    (hrest : Rereads u depth after rel printed last) :
    Rereads u depth text rel (tree :: printed) last := by
  intro pos
  rcases hbegins pos with ⟨inside, helement⟩
  rcases helems inside with ⟨elems', behind, hrel, hinner⟩
  rcases hrest behind with ⟨trees, pos', htrees, hparses⟩
  refine ⟨.sexp elems' inside :: trees, pos', .cons (hsexp elems' inside hrel) htrees, ?_⟩
  intro fuel hfuel
  cases fuel with
  | zero => exact absurd hfuel (Nat.not_lt_zero _)
  | succ fuel =>
      have hbound : text.length < fuel + 1 := hfuel
      have hinnerFuel : next.length < fuel := by omega
      have hrestFuel : after.length < fuel := by omega
      unfold parseText
      rw [helement]
      simp only [hinner fuel hinnerFuel, hparses fuel hrestFuel]

end Rules

/-! ## Printed trees -/

def Ast.chars (tree : Ast) : List Char := (tree.text .empty).toList

/-- Between white space and a delimiter, the text of the tree is read as one tree. -/
def Prints (u : Unicode) (good : Ast → Ast → Prop) (tree : Ast) : Prop :=
  ∀ (rel : Ast → Ast → Prop) (blank rest : List Char) (depth : ℕ) (printed : List Ast)
    (last : List Char), (∀ other, good tree other → rel tree other) →
    (∀ c ∈ blank, isSpace c = true) → Delimited rest → Rereads u depth rest rel printed last →
      Rereads u depth (blank ++ (tree.chars ++ rest)) rel (tree :: printed) last

/-- The trees of a sequence but the first, each behind a separator. -/
def spaced (sep : Char) (trees : List Ast) : List Char :=
  trees.flatMap fun tree => sep :: tree.chars

def joined (sep : Char) : List Ast → List Char
  | [] => []
  | tree :: trees => tree.chars ++ spaced sep trees

theorem toList_intercalate (sep : Char) (trees : List Ast) :
    ((String.singleton sep).intercalate (Ast.texts .empty trees)).toList = joined sep trees := by
  rw [String.toList_intercalate, Ast.texts_eq_map, List.map_map]
  cases trees with
  | nil => rfl
  | cons tree rest =>
      rw [joined]
      induction rest generalizing tree with
      | nil => simp [spaced, Ast.chars]
      | cons other more ih =>
          rw [List.map_cons, List.intercalate_cons_of_ne_nil (by simp), ih]
          simp [spaced, Ast.chars]

theorem chars_sexp (elems : List Ast) (pos : Position) :
    (Ast.sexp elems pos).chars = ['('] ++ (joined ' ' elems ++ [')']) := by
  have hsep : String.singleton ' ' = " " := rfl
  rw [Ast.chars, Ast.text, parenthesized, String.toList_append, String.toList_append, ← hsep,
    toList_intercalate]
  simp

theorem chars_module (name : String) (first : Ast) (others : List Ast) :
    (Ast.moduleNode name (first :: others)).chars =
      ['('] ++ (joined ' ' [.ident "module", .str name, first] ++ spaced '\n' others ++ [')']) := by
  have hsep : String.singleton '\n' = "\n" := rfl
  rw [Ast.chars, Ast.text, ← hsep, String.toList_append, String.toList_append,
    toList_intercalate]
  simp [joined, spaced, Ast.chars, Ast.text, Scalar.text]

section Trees

variable {u : Unicode} {good : Ast → Ast → Prop} {sep : Char}

theorem delimited_spaced {tail : List Char} (hsep : sep = ' ' ∨ sep = '\n')
    (htail : Delimited tail) (trees : List Ast) : Delimited (spaced sep trees ++ tail) := by
  cases trees with
  | nil => exact htail
  | cons tree rest =>
      intro c hmem
      cases hmem
      rcases hsep with rfl | rfl
      · exact .inl rfl
      · exact .inr (.inl rfl)

theorem rereads_spaced {trees printed : List Ast} {tail last : List Char} {depth : ℕ}
    (hsep : sep = ' ' ∨ sep = '\n') (htrees : ∀ tree ∈ trees, Prints u good tree)
    (htail : Delimited tail) (hrest : Rereads u depth tail good printed last) :
    Rereads u depth (spaced sep trees ++ tail) good (trees ++ printed) last := by
  induction trees with
  | nil => exact hrest
  | cons tree others ih =>
      have hothers := fun other hmem => htrees other (List.mem_cons_of_mem tree hmem)
      have hblank : ∀ c ∈ [sep], isSpace c = true := by
        intro c hmem
        rw [List.mem_singleton.mp hmem]
        rcases hsep with rfl | rfl <;> rfl
      have htext : spaced sep (tree :: others) ++ tail =
          [sep] ++ (tree.chars ++ (spaced sep others ++ tail)) := by simp [spaced]
      rw [htext]
      exact htrees tree List.mem_cons_self _ _ _ _ _ _ (fun _ h => h) hblank
        (delimited_spaced hsep htail others) (ih hothers)

theorem rereads_joined {trees printed : List Ast} {tail last : List Char} {depth : ℕ}
    (hsep : sep = ' ' ∨ sep = '\n') (htrees : ∀ tree ∈ trees, Prints u good tree)
    (htail : Delimited tail) (hrest : Rereads u depth tail good printed last) :
    Rereads u depth (joined sep trees ++ tail) good (trees ++ printed) last := by
  cases trees with
  | nil => exact hrest
  | cons tree others =>
      have hothers := fun other hmem => htrees other (List.mem_cons_of_mem tree hmem)
      rw [joined, List.append_assoc]
      exact htrees tree List.mem_cons_self good [] _ depth _ last (fun _ h => h)
        (List.forall_mem_nil _) (delimited_spaced hsep htail others)
        (rereads_spaced hsep hothers htail hrest)

theorem prints_scalar {v : Scalar} (hread : v.Read u) (hportable : v.portable = true) :
    Prints u ReadsAs (.scalar v) := by
  intro rel blank rest depth printed last hrel hblank hrest hreads
  rcases begins_scalar hblank hrest hread hportable with ⟨w, halike, hbegins⟩
  have hpos := List.length_pos_of_ne_nil (text_ne_nil hread)
  have hlength : rest.length < (blank ++ ((v.text .empty).toList ++ rest)).length := by
    simp only [List.length_append]
    omega
  exact .leaf hbegins hlength (hrel _ (.scalar halike)) hreads

theorem delimited_closing (rest : List Char) : Delimited (')' :: rest) := by
  intro c hmem
  cases hmem
  exact .inr (.inr rfl)

theorem rereads_closing (depth : ℕ) (rest : List Char) :
    Rereads u (depth + 1) (')' :: rest) good [] rest := .closing begins_closing

theorem prints_parenthesized {tree : Ast} {inner : List Char} {elems : List Ast}
    {among : Ast → Ast → Prop} (htext : tree.chars = ['('] ++ (inner ++ [')']))
    (hinner : ∀ depth rest, Rereads u (depth + 1) (inner ++ ')' :: rest) among elems rest)
    (hsexp : ∀ elems' pos, Forall₂ among elems elems' → good tree (.sexp elems' pos)) :
    Prints u good tree := by
  intro rel blank rest depth printed last hrel hblank hrest hreads
  have hshape : blank ++ (tree.chars ++ rest) = blank ++ (['('] ++ (inner ++ ')' :: rest)) := by
    simp [htext]
  rw [hshape]
  apply Rereads.sexp (begins_opening hblank) _ (hinner depth rest) _
    (fun elems' pos hall => hrel _ (hsexp elems' pos hall)) hreads
  · simp only [List.length_append, List.length_singleton]
    omega
  · simp only [List.length_append, List.length_cons]
    omega

theorem prints_read {tree : Ast} (hread : tree.Read u) (hportable : tree.portable = true) :
    Prints u ReadsAs tree := by
  induction hread with
  | scalar hvalue => exact prints_scalar hvalue hportable
  | @sexp elems pos _ ih =>
      have helems := fun elem hmem => ih elem hmem ((portables_iff elems).mp hportable elem hmem)
      apply prints_parenthesized (chars_sexp elems pos)
      · intro depth rest
        have hreads := rereads_joined (.inl rfl) helems (delimited_closing rest)
          (rereads_closing depth rest)
        rwa [List.append_nil] at hreads
      · exact fun elems' pos' hall => .sexp hall

theorem Prints.mono {good' : Ast → Ast → Prop} {tree : Ast} (hprints : Prints u good tree)
    (hgood : ∀ other, good tree other → good' tree other) : Prints u good' tree :=
  fun rel blank rest depth printed last hrel =>
    hprints rel blank rest depth printed last fun other h => hrel other (hgood other h)

theorem read_ident_module : Scalar.Read u (.ident "module") := by
  refine .inr ⟨isDotted_of_isName (isName_of_letters ?_ ?_), ?_, ?_⟩ <;> decide +kernel

theorem ReadsAs.eq_of_settled {v : Scalar} {tree : Ast} (hreads : ReadsAs (.scalar v) tree)
    (hsettled : v.settled = true) : tree = .scalar v := by
  cases hreads with
  | scalar hvalue => rw [hvalue.eq_of_settled hsettled]

theorem Ships.eq_of_settled {v : Scalar} {tree : Ast} (hships : Ships (.scalar v) tree)
    (hsettled : v.settled = true) : tree = .scalar v := by
  cases hships with
  | tree hreads => exact hreads.eq_of_settled hsettled

theorem ships_module {name : String} {first : Ast} {others elems : List Ast}
    (helems : Forall₂ Ships (.ident "module" :: .str name :: first :: others) elems)
    (pos : Position) : Ships (.moduleNode name (first :: others)) (.sexp elems pos) := by
  rcases helems with _ | ⟨hhead, helems⟩
  rcases helems with _ | ⟨hname, helems⟩
  rcases helems with _ | ⟨hfirst, hothers⟩
  rw [hhead.eq_of_settled rfl, hname.eq_of_settled rfl]
  exact .imported hfirst hothers

theorem prints_statement {tree : Ast} (hstatement : Statement u tree)
    (hportable : tree.portable = true) : Prints u Ships tree := by
  induction hstatement with
  | tree hread _ => exact (prints_read hread hportable).mono fun _ h => .tree h
  | @imported name body hname _ ih =>
      rw [Ast.portable, Bool.and_eq_true, Bool.and_eq_true, portables_iff] at hportable
      rcases hportable with ⟨⟨hlegible, hnonempty⟩, hbody⟩
      have hprints := fun tree hmem => ih tree hmem (hbody tree hmem)
      cases body with
      | nil => cases hnonempty
      | cons first others =>
          have hscalar : ∀ v : Scalar, v.Read u → v.portable = true → Prints u Ships (.scalar v) :=
            fun v hread hport => (prints_scalar hread hport).mono fun _ h => .tree h
          have hfront : ∀ tree ∈ [.ident "module", .str name, first], Prints u Ships tree := by
            intro tree hmem
            simp only [List.mem_cons, List.not_mem_nil, or_false] at hmem
            rcases hmem with rfl | rfl | rfl
            · exact hscalar _ read_ident_module rfl
            · exact hscalar _ hname hlegible
            · exact hprints _ List.mem_cons_self
          have hothers := fun tree hmem => hprints tree (List.mem_cons_of_mem first hmem)
          apply prints_parenthesized (chars_module name first others)
          · intro depth rest
            have hreads := rereads_joined (.inl rfl) hfront
              (delimited_spaced (.inr rfl) (delimited_closing rest) others)
              (rereads_spaced (.inr rfl) hothers (delimited_closing rest)
                (rereads_closing depth rest))
            rw [List.append_nil, ← List.append_assoc] at hreads
            exact hreads
          · exact fun elems' pos hall => ships_module hall pos

end Trees

/-! ## Programs -/

section Programs

variable {u : Unicode} {files : Files} {paths imported : List String}

/-- A text that begins with a byte order mark is refused, unless the mark is skipped; so no
printed program begins with one. -/
theorem parseText_byteOrderMark (fuel depth : ℕ) (rest : List Char) (pos : Position)
    (trees : List Ast) (last : Source) :
    parseText u fuel depth ⟨'\uFEFF' :: rest, pos, []⟩ ≠ (.ok trees, last) := by
  have hstart : isIdentStart u '\uFEFF' = false := by
    rw [isIdentStart, u.letter_byteOrderMark]
    decide
  have hat : scanAt u '\uFEFF' ([] ++ rest) = (.symbol '\uFEFF', rest, []) := by
    unfold scanAt
    rw [if_neg (by simp [hstart]), if_neg (by decide), if_neg (by decide), if_neg (by decide),
      if_neg (by decide), if_neg (by decide), List.nil_append]
  have hscan : GoScanner.scan u ('\uFEFF' :: rest) =
      ⟨.symbol '\uFEFF', '\uFEFF' :: rest, rest, []⟩ :=
    scan_token (List.forall_mem_nil _) rfl (by decide) (fun h => absurd h (by decide)) hat
      (by decide)
  rcases Source.scan_clean hscan pos with ⟨pos', hsource⟩
  cases fuel with
  | zero => simp [parseText]
  | succ fuel =>
      unfold parseText parseElement
      simp only [hsource]
      rw [if_neg (by decide), if_neg (by decide), if_neg (by decide)]
      simp

/-- The text of trees that print well is read as trees related to them. -/
theorem parse_printed {good : Ast → Ast → Prop} {trees : List Ast}
    (hprints : ∀ tree ∈ trees, Prints u good tree) (filename : String) :
    ∃ reread, Forall₂ good trees reread ∧
      parse u filename (programText trees).toList = .ok reread := by
  have hsep : String.singleton '\n' = "\n" := rfl
  have htext : (programText trees).toList = joined '\n' trees := by
    rw [programText, ← hsep, toList_intercalate]
  have hreads := rereads_joined (.inr rfl) hprints delimited_nil (Rereads.eof begins_eof)
  rw [List.append_nil, List.append_nil, ← htext] at hreads
  rcases hreads ⟨filename, 0, 1, 1⟩ with ⟨reread, pos', hgood, hparses⟩
  have hparse := hparses _ (Nat.lt_succ_self _)
  refine ⟨reread, hgood, ?_⟩
  have hstart : Source.start filename (programText trees).toList =
      ⟨(programText trees).toList, ⟨filename, 0, 1, 1⟩, []⟩ := by
    unfold Source.start
    split
    next rest hmark =>
      rw [hmark] at hparse
      exact absurd hparse (parseText_byteOrderMark _ _ _ _ _ _)
    · rfl
  unfold parse
  rw [hstart]
  simp only [Nat.succ_eq_add_one] at hparse
  simp [hparse]

/-- The text of a compiled program is read as the trees of that program, up to
what the text does not show. -/
theorem parse_programText {program : List Ast} (hstatements : ∀ tree ∈ program, Statement u tree)
    (hportable : Ast.portables program = true) :
    ∃ shipped, Forall₂ Ships program shipped ∧
      parse u "" (programText program).toList = .ok shipped :=
  parse_printed (fun tree hmem => prints_statement (hstatements tree hmem)
    ((portables_iff program).mp hportable tree hmem)) ""

theorem parseImport_args {args args' : List Ast} (hargs : Forall₂ ReadsAs args args')
    (name : String) (pos pos' : Position) :
    parseImport (.sexp (.ident name :: args') pos') =
      parseImport (.sexp (.ident name :: args) pos) := by
  cases hargs with
  | nil => rfl
  | cons harg _ =>
      cases harg with
      | @scalar v w hvalue =>
          cases hvalue with
          | same => cases v <;> rfl
          | whole _ _ => rfl
      | sexp _ => rfl

theorem parseImport_eq_of_readsAs {a b : Ast} (hreads : ReadsAs a b) :
    parseImport b = parseImport a := by
  cases hreads with
  | sexp helems =>
      cases helems with
      | nil => rfl
      | cons hhead hargs =>
          cases hhead with
          | @scalar v w hvalue =>
              cases hvalue with
              | same =>
                  cases v with
                  | ident name => exact parseImport_args hargs name _ _
                  | _ => rfl
              | whole _ _ => rfl
          | sexp _ => rfl
  | scalar _ => rfl

theorem parseImport_of_ships {tree shipped : Ast} (hstatement : Statement u tree)
    (hships : Ships tree shipped) : parseImport shipped = .ok "" := by
  cases hships with
  | tree hreads =>
      rw [parseImport_eq_of_readsAs hreads]
      cases hstatement with
      | tree _ himport => exact himport
      | imported _ _ => rfl
  | imported _ _ => rfl

theorem parseImport_of_shipped {program shipped : List Ast}
    (hstatements : ∀ tree ∈ program, Statement u tree) (hships : Forall₂ Ships program shipped) :
    ∀ tree ∈ shipped, parseImport tree = .ok "" := by
  induction hships with
  | nil => simp
  | cons hhead _ ih =>
      rw [List.forall_mem_cons] at hstatements ⊢
      exact ⟨parseImport_of_ships hstatements.1 hhead, ih hstatements.2⟩

theorem resolveTrees_of_no_import
    {resolve : List String → List Ast → Outcome DslError (List Ast)} {trees : List Ast}
    (htrees : ∀ tree ∈ trees, parseImport tree = .ok "") (top : Bool) :
    resolveTrees u files paths imported resolve top trees = .ok trees := by
  induction trees generalizing top with
  | nil => rfl
  | cons tree rest ih =>
      have hrest := ih (fun other hmem => htrees other (List.mem_cons_of_mem tree hmem)) false
      unfold resolveTrees
      refine Outcome.bind_eq_ok.mpr ⟨"", htrees tree List.mem_cons_self, ?_⟩
      rw [if_pos rfl]
      exact Outcome.bind_eq_ok.mpr ⟨rest, hrest, rfl⟩

theorem compile_programText (files : Files) {program : List Ast}
    (hstatements : ∀ tree ∈ program, Statement u tree) (hportable : Ast.portables program = true)
    (fuel : ℕ) :
    ∃ shipped, Forall₂ Ships program shipped ∧ ({} :: Ast.positionsAll shipped).Nodup ∧
      compile u files (fuel + 1) { text := (programText program).toList } = .ok shipped := by
  rcases parse_programText hstatements hportable with ⟨shipped, hships, hparse⟩
  refine ⟨shipped, hships, nodup_parse hparse, ?_⟩
  unfold compile
  rw [hparse]
  exact resolveTrees_of_no_import (parseImport_of_shipped hstatements hships) true

/-- A compilation succeeds and declares the containers, in order, and the connections of a
specification. -/
def Declares (result : Outcome DslError Dsl) (dsl : Dsl) : Prop :=
  ∃ dsl', result = .ok dsl' ∧ dsl'.queryContainers = dsl.queryContainers ∧
    ∀ connection, connection ∈ dsl'.queryConnections ↔ connection ∈ dsl.queryConnections

theorem Declares.of_store {program shipped : List Ast} {env env' : Env} {dsl : Dsl}
    (hdeclares : Declares (.ok (env.dsl program)) dsl) (hstore : env'.store = env.store) :
    Declares (.ok (env'.dsl shipped)) dsl := by
  rcases hdeclares with ⟨_, heq, hcontainers, hconnections⟩
  cases heq
  refine ⟨_, rfl, ?_, ?_⟩
  · rw [← hcontainers]
    unfold Dsl.queryContainers Env.dsl
    rw [hstore]
  · intro connection
    rw [← hconnections]
    unfold Dsl.queryConnections Env.dsl
    rw [hstore]

end Programs

def webModule : String := "(define Image \"nginx\")\n(define Ports (list 80 81))"

def webFiles : Files := fun path => if path = "lib/web.spec" then some webModule.toList else none

def importingSpec : Spec where
  text := ("(import \"web\")\n(label \"web\" (docker web.Image \"-p\"))\n" ++
    "(label \"db\" (docker \"db\"))\n(connect web.Ports \"web\" \"db\")").toList
  paths := ["lib"]

/-- Code may be compared if the comparison does not hinge on positions that the text moves. -/
example :
    ((compile .ascii noFiles 10 { text := ("(define f (lambda (x) (+ x 1)))" ++
      "(if (= f f) (docker \"a\"))(if (= f 5) (docker \"b\"))").toList }).value?.any
        (shippable plainRuntime 10)) = true := by decide +kernel

/-- What happens to a specification on the way to the minions. -/
def recompiled (rt : Runtime) (files : Files) (fuel : ℕ) (spec : Spec) : Outcome DslError Dsl := do
  let dsl ← new rt files fuel spec
  new rt noFiles fuel { text := dsl.code.toList }

def emptyModule : Files := fun path => if path = "lib/empty.spec" then some [] else none

end Lang
end Di
