import Di.Brackets
import Di.DslRead

/-!
# The tokens of a program

What the scanner delivers when the parser asks it for a whole text: words and
parentheses, where identifiers joined by periods are one word.  The parser accepts
exactly the texts in which every word is legal and the parentheses are balanced, and
the trees it returns are those words in order, with a pair of parentheses for each
S-expression.
-/

namespace Di
namespace Lang

open GoScanner Brackets

/-! ## Words -/

inductive Word
  | operator (c : Char)
  /-- Identifiers joined by periods. -/
  | name (text : List Char)
  | int (text : List Char)
  | float (text : List Char)
  | str (text : List Char)
  | illegal
  deriving DecidableEq, Repr

/-- The tree that the parser makes of a word. -/
def Word.read : Word → Option Ast
  | .operator c => some (parseIdent (String.ofList [c]))
  | .name text => some (parseIdent (String.ofList text))
  | .int text => some (.int (atoi text))
  | .float text => some (.float (GoFloat.parseFloat text))
  | .str text => some (.str (String.ofList (trimQuotes text)))
  | .illegal => none

/-- Something read from a text: what it is, the text behind it and the errors on the way. -/
structure Lexed (α : Type) where
  found : α
  rest : List Char
  errors : List String

/-- An identifier goes on behind a period. -/
def dottedName (u : Unicode) : ℕ → List Char → List Char → Lexed Word
  | 0, name, text => ⟨.name name, text, []⟩
  | fuel + 1, name, text =>
      match text with
      | '.' :: rest =>
          let token := scan u rest
          if token.kind = .ident then
            let more := dottedName u fuel (name ++ '.' :: token.text) token.rest
            { more with errors := token.errors ++ more.errors }
          else ⟨.illegal, token.rest, token.errors⟩
      | _ => ⟨.name name, text, []⟩

/-- The next item of a text, none at its end. -/
def nextItem (u : Unicode) (text : List Char) : Lexed (Option (Item Word)) :=
  let token := scan u text
  let found : Item Word → Lexed (Option (Item Word)) :=
    fun item => ⟨some item, token.rest, token.errors⟩
  match token.kind with
  | .symbol c =>
      if c ∈ operators then found (.leaf (.operator c))
      else if c = '(' then found .opening
      else if c = ')' then found .closing
      else found (.leaf .illegal)
  | .ident =>
      let word := dottedName u token.rest.length token.text token.rest
      ⟨some (.leaf word.found), word.rest, token.errors ++ word.errors⟩
  | .float => found (.leaf (.float token.text))
  | .int => found (.leaf (.int token.text))
  | .string => found (.leaf (.str token.text))
  | .char => found (.leaf .illegal)
  | .eof => ⟨none, token.rest, token.errors⟩

structure Tokens where
  items : List (Item Word)
  errors : List String

def tokensFrom (u : Unicode) : ℕ → List Char → Tokens
  | 0, _ => ⟨[], []⟩
  | fuel + 1, text =>
      let next := nextItem u text
      match next.found with
      | none => ⟨[], next.errors⟩
      | some item =>
          let more := tokensFrom u fuel next.rest
          ⟨item :: more.items, next.errors ++ more.errors⟩

/-- Every item consumes a character, so the length of the text bounds their number. -/
def tokens (u : Unicode) (text : List Char) : Tokens := tokensFrom u (text.length + 1) text

/-! ## Progress -/

section Progress

variable {u : Unicode}

theorem dottedName_length (fuel : ℕ) (name text : List Char) :
    (dottedName u fuel name text).rest.length ≤ text.length := by
  induction fuel generalizing name text with
  | zero => exact le_rfl
  | succ fuel ih =>
      unfold dottedName
      split
      next rest =>
        have hscan := scan_rest_le u rest
        dsimp only
        split
        · have hmore := ih (name ++ '.' :: (scan u rest).text) (scan u rest).rest
          exact (hmore.trans hscan).trans (Nat.le_succ _)
        · rw [List.length_cons]
          exact hscan.trans (Nat.le_succ _)
      · exact le_rfl

theorem nextItem_length {text : List Char} {item : Item Word}
    (hfound : (nextItem u text).found = some item) :
    (nextItem u text).rest.length < text.length := by
  have hscan : (scan u text).kind ≠ .eof := by
    intro heof
    simp [nextItem, heof] at hfound
  have hrest := scan_rest_lt hscan
  unfold nextItem
  dsimp only
  split
  · split_ifs <;> exact hrest
  · exact (dottedName_length _ _ _).trans_lt hrest
  all_goals exact hrest

theorem tokensFrom_eq {fuel : ℕ} {text : List Char} (hfuel : text.length < fuel) :
    tokensFrom u fuel text = tokens u text := by
  have hany : ∀ fuel fuel' text, text.length < fuel → text.length < fuel' →
      tokensFrom u fuel text = tokensFrom u fuel' text := by
    intro fuel
    induction fuel with
    | zero => exact fun _ _ h => absurd h (Nat.not_lt_zero _)
    | succ fuel ih =>
        intro fuel' text hfuel hfuel'
        cases fuel' with
        | zero => exact absurd hfuel' (Nat.not_lt_zero _)
        | succ fuel' =>
            unfold tokensFrom
            dsimp only
            split
            · rfl
            next item hfound =>
              have hrest := nextItem_length hfound
              rw [ih fuel' (nextItem u text).rest (by omega) (by omega)]
  exact hany fuel _ text hfuel (Nat.lt_succ_self _)

theorem tokens_of_none {text : List Char} (hfound : (nextItem u text).found = none) :
    tokens u text = ⟨[], (nextItem u text).errors⟩ := by
  rw [tokens, tokensFrom]
  simp only [hfound]

theorem tokens_of_some {text : List Char} {item : Item Word}
    (hfound : (nextItem u text).found = some item) :
    tokens u text = ⟨item :: (tokens u (nextItem u text).rest).items,
      (nextItem u text).errors ++ (tokens u (nextItem u text).rest).errors⟩ := by
  conv_lhs => rw [tokens, tokensFrom]
  simp only [hfound, tokensFrom_eq (nextItem_length hfound)]

end Progress

/-! ## Elements -/

/-- The element that the parser finds where there is such an item. -/
inductive ReadAs : Option (Item Word) → Element → Prop
  | eof : ReadAs none .eof
  | opening : ReadAs (some .opening) .opening
  | closing : ReadAs (some .closing) .closing
  | leaf {word : Word} {tree : Ast} (hread : word.read = some tree) :
      ReadAs (some (.leaf word)) (.leaf tree)
  | bad {word : Word} (hread : word.read = none) (err : DslError) :
      ReadAs (some (.leaf word)) (.bad err)

section Elements

variable {u : Unicode}

/-- A result of the parser and the scanner behind it, for a word and what it left. -/
def Reaches (src : Source) (rest : List Char) (errors : List String) (next : Source) : Prop :=
  next.rest = rest ∧ next.errors = src.errors ++ errors

theorem reaches_scan (src : Source) :
    Reaches src (scan u src.rest).rest (scan u src.rest).errors (src.scan u).2 := ⟨rfl, rfl⟩

theorem dottedName_ident {fuel : ℕ} {name rest : List Char} (hkind : (scan u rest).kind = .ident) :
    dottedName u (fuel + 1) name ('.' :: rest) =
      { dottedName u fuel (name ++ '.' :: (scan u rest).text) (scan u rest).rest with
        errors := (scan u rest).errors ++
          (dottedName u fuel (name ++ '.' :: (scan u rest).text) (scan u rest).rest).errors } :=
  if_pos hkind

theorem dottedName_broken {fuel : ℕ} {name rest : List Char}
    (hkind : (scan u rest).kind ≠ .ident) :
    dottedName u (fuel + 1) name ('.' :: rest) =
      ⟨.illegal, (scan u rest).rest, (scan u rest).errors⟩ := if_neg hkind

theorem dottedName_end {fuel : ℕ} {name text : List Char} (htext : ∀ rest, text ≠ '.' :: rest) :
    dottedName u (fuel + 1) name text = ⟨.name name, text, []⟩ := by
  unfold dottedName
  split
  next rest => exact absurd rfl (htext rest)
  · rfl

theorem parseDotted_eq (fuel : ℕ) (name : List Char) (src : Source) :
    ∃ next, Reaches src (dottedName u fuel name src.rest).rest
        (dottedName u fuel name src.rest).errors next ∧
      ((∃ text, (dottedName u fuel name src.rest).found = .name text ∧
          parseDotted u fuel name src = (.ok text, next)) ∨
        ((dottedName u fuel name src.rest).found = .illegal ∧
          ∃ err, parseDotted u fuel name src = (.error err, next))) := by
  induction fuel generalizing name src with
  | zero => exact ⟨src, ⟨rfl, (List.append_nil _).symm⟩, .inl ⟨name, rfl, rfl⟩⟩
  | succ fuel ih =>
      rcases src with ⟨text, pos, errors⟩
      by_cases hperiod : ∃ rest, text = '.' :: rest
      · rcases hperiod with ⟨rest, rfl⟩
        by_cases hkind : (scan u rest).kind = .ident
        · rw [dottedName_ident hkind]
          rcases ih (name ++ '.' :: (scan u rest).text)
            (Source.scan u (Source.moveTo ⟨'.' :: rest, pos, errors⟩ rest)).2 with
            ⟨next, ⟨hrest, herrors⟩, hresult⟩
          have hparse : parseDotted u (fuel + 1) name ⟨'.' :: rest, pos, errors⟩ =
              parseDotted u fuel (name ++ '.' :: (scan u rest).text)
                (Source.scan u (Source.moveTo ⟨'.' :: rest, pos, errors⟩ rest)).2 :=
            if_pos hkind
          rw [hparse]
          exact ⟨next, ⟨hrest, herrors.trans (List.append_assoc _ _ _)⟩, hresult⟩
        · rw [dottedName_broken hkind]
          exact ⟨_, ⟨rfl, rfl⟩, .inr ⟨rfl, _, if_neg hkind⟩⟩
      · have hother : ∀ rest, text ≠ '.' :: rest := fun rest h => hperiod ⟨rest, h⟩
        have hparse : parseDotted u (fuel + 1) name ⟨text, pos, errors⟩ =
            (.ok name, ⟨text, pos, errors⟩) := by
          unfold parseDotted
          dsimp only
          split
          next rest => exact absurd rfl (hother rest)
          · rfl
        rw [dottedName_end hother, hparse]
        exact ⟨_, ⟨rfl, (List.append_nil _).symm⟩, .inl ⟨name, rfl, rfl⟩⟩

theorem parseElement_eq (src : Source) :
    ∃ element next, parseElement u src = (element, next) ∧
      ReadAs (nextItem u src.rest).found element ∧
      Reaches src (nextItem u src.rest).rest (nextItem u src.rest).errors next := by
  have hreaches := reaches_scan (u := u) src
  have htoken : (src.scan u).1 = scan u src.rest := rfl
  unfold parseElement nextItem
  dsimp only
  rw [htoken]
  cases hkind : (scan u src.rest).kind with
  | eof => exact ⟨_, _, rfl, .eof, hreaches⟩
  | int => exact ⟨_, _, rfl, .leaf rfl, hreaches⟩
  | float => exact ⟨_, _, rfl, .leaf rfl, hreaches⟩
  | char => exact ⟨_, _, rfl, .bad rfl _, hreaches⟩
  | string => exact ⟨_, _, rfl, .leaf rfl, hreaches⟩
  | symbol c =>
      dsimp only
      split_ifs with hoperator hopening hclosing
      · have htext : (scan u src.rest).text = [c] := text_of_symbol hkind
        rw [htext]
        exact ⟨_, _, rfl, .leaf rfl, hreaches⟩
      · exact ⟨_, _, rfl, .opening, hreaches⟩
      · exact ⟨_, _, rfl, .closing, hreaches⟩
      · exact ⟨_, _, rfl, .bad rfl _, hreaches⟩
  | ident =>
      rcases parseDotted_eq (u := u) (src.scan u).2.rest.length (scan u src.rest).text
        (src.scan u).2 with ⟨next, ⟨hrest, herrors⟩, hresult⟩
      have hnext : Reaches src (dottedName u (scan u src.rest).rest.length
          (scan u src.rest).text (scan u src.rest).rest).rest ((scan u src.rest).errors ++
            (dottedName u (scan u src.rest).rest.length (scan u src.rest).text
              (scan u src.rest).rest).errors) next := by
        refine ⟨hrest, herrors.trans ?_⟩
        exact List.append_assoc _ _ _
      dsimp only
      rcases hresult with ⟨text, hfound, hparse⟩ | ⟨hfound, err, hparse⟩
      · rw [hparse]
        refine ⟨_, _, rfl, .leaf ?_, hnext⟩
        have hword : (dottedName u (scan u src.rest).rest.length (scan u src.rest).text
          (scan u src.rest).rest).found = .name text := hfound
        rw [hword]
        rfl
      · rw [hparse]
        refine ⟨_, _, rfl, .bad ?_ _, hnext⟩
        have hword : (dottedName u (scan u src.rest).rest.length (scan u src.rest).text
          (scan u src.rest).rest).found = .illegal := hfound
        rw [hword]
        rfl

end Elements

/-! ## Trees -/

mutual

/-- A tree as a sequence of leaves and parentheses. -/
def Ast.yield : Ast → List (Item Ast)
  | .sexp elems _ => .opening :: (Ast.yields elems ++ [.closing])
  | tree => [.leaf tree]

def Ast.yields : List Ast → List (Item Ast)
  | [] => []
  | tree :: rest => tree.yield ++ Ast.yields rest

end

theorem Word.read_isLeaf {word : Word} {tree : Ast} (hread : word.read = some tree) :
    tree.yield = [.leaf tree] := by
  have hident : ∀ name, (parseIdent name).yield = [.leaf (parseIdent name)] := by
    intro name
    unfold parseIdent
    split_ifs <;> rfl
  cases word with
  | operator c =>
      cases hread
      exact hident _
  | name text =>
      cases hread
      exact hident _
  | illegal => cases hread
  | _ =>
      cases hread
      rfl

mutual

theorem level_yield (depth : ℕ) : ∀ tree : Ast, level depth tree.yield = some depth
  | .sexp elems _ => by
      rw [Ast.yield, level, level_append, level_yields (depth + 1) elems]
      rfl
  | .list _ _ => rfl
  | .hmap _ => rfl
  | .lambda _ _ _ => rfl
  | .moduleNode _ _ => rfl
  | .label _ => rfl
  | .scalar _ => rfl

theorem level_yields (depth : ℕ) : ∀ trees : List Ast, level depth (Ast.yields trees) = some depth
  | [] => rfl
  | tree :: rest => by
      rw [Ast.yields, level_append, level_yield depth tree]
      exact level_yields depth rest

end

/-! ## The parser -/

section Parser

variable {u : Unicode}

def Source.items (u : Unicode) (src : Source) : List (Item Word) := (tokens u src.rest).items

/-- The errors so far and those that are still to come. -/
def Source.allErrors (u : Unicode) (src : Source) : List String :=
  src.errors ++ (tokens u src.rest).errors

/-- The words of some items as the parser reads them. -/
def readItems (items : List (Item Word)) : List (Item (Option Ast)) :=
  items.map (Item.map Word.read)

def expected (trees : List Ast) : List (Item (Option Ast)) :=
  (Ast.yields trees).map (Item.map some)

def Legal (items : List (Item Word)) : Prop := ∀ item ∈ items, item ≠ .leaf .illegal

def Unbalanced (err : DslError) : Prop :=
  ∃ pos, err = .located pos (.plain "unbalanced Parenthesis")

structure Steps (u : Unicode) (src next : Source) (item : Item Word) : Prop where
  items : src.items u = item :: next.items u
  errors : next.allErrors u = src.allErrors u
  shorter : next.rest.length < src.rest.length

theorem parseElement_steps (src : Source) :
    ∃ element next, parseElement u src = (element, next) ∧
      ((element = .eof ∧ src.items u = [] ∧ next.errors = src.allErrors u) ∨
        ∃ item, ReadAs (some item) element ∧ Steps u src next item) := by
  rcases parseElement_eq (u := u) src with ⟨element, next, hparse, hreadAs, hrest, herrors⟩
  refine ⟨element, next, hparse, ?_⟩
  cases hfound : (nextItem u src.rest).found with
  | none =>
      left
      rw [hfound] at hreadAs
      have htokens := tokens_of_none hfound
      cases hreadAs
      refine ⟨rfl, ?_, ?_⟩
      · rw [Source.items, htokens]
      · rw [Source.allErrors, htokens, herrors]
  | some item =>
      right
      rw [hfound] at hreadAs
      have htokens := tokens_of_some hfound
      rw [← hrest] at htokens
      refine ⟨item, hreadAs, ?_, ?_, ?_⟩
      · rw [Source.items, htokens]
        rfl
      · rw [Source.allErrors, Source.allErrors, htokens, herrors, List.append_assoc]
      · rw [hrest]
        exact nextItem_length hfound

/-- What a call of `parseText` says about the items that it was given. -/
inductive Parsed (u : Unicode) (depth : ℕ) (src : Source) :
    Except DslError (List Ast) → Source → Prop
  | top {trees : List Ast} {last : Source} (hdepth : depth = 0)
      (hitems : readItems (src.items u) = expected trees)
      (herrors : last.errors = src.allErrors u) : Parsed u depth src (.ok trees) last
  | nested {trees : List Ast} {last : Source} (hdepth : depth ≠ 0)
      (hitems : readItems (src.items u) =
        expected trees ++ .closing :: readItems (last.items u))
      (herrors : last.allErrors u = src.allErrors u)
      (hshorter : last.rest.length < src.rest.length) : Parsed u depth src (.ok trees) last
  | failed {err : DslError} {last : Source}
      (hlevel : Legal (src.items u) → Unbalanced err ∧
        if depth = 0 then level 0 (src.items u) ≠ some 0 else (level 0 (src.items u)).isSome)
      (herrors : last.errors <+: src.allErrors u) : Parsed u depth src (.error err) last

theorem Legal.tail {item : Item Word} {items : List (Item Word)} (hlegal : Legal (item :: items)) :
    Legal items := fun other hmem => hlegal other (List.mem_cons_of_mem item hmem)

theorem expected_cons (tree : Ast) (trees : List Ast) :
    expected (tree :: trees) = expected [tree] ++ expected trees := by
  simp [expected, Ast.yields]

theorem expected_leaf {word : Word} {tree : Ast} (hread : word.read = some tree) :
    expected [tree] = [.leaf (some tree)] := by
  simp [expected, Ast.yields, Word.read_isLeaf hread, Item.map]

theorem expected_sexp (elems : List Ast) (pos : Position) :
    expected [.sexp elems pos] = .opening :: (expected elems ++ [.closing]) := by
  simp [expected, Ast.yields, Ast.yield, Item.map]

theorem readItems_cons (item : Item Word) (items : List (Item Word)) :
    readItems (item :: items) = item.map Word.read :: readItems items := rfl

theorem level_readItems (depth : ℕ) (items : List (Item Word)) :
    level depth (readItems items) = level depth items := level_map _ _ _

theorem level_expected (depth : ℕ) (trees : List Ast) :
    level depth (expected trees) = some depth := by
  rw [expected, level_map, level_yields]

theorem Word.read_eq_none_iff (word : Word) : word.read = none ↔ word = .illegal := by
  cases word <;> simp [Word.read]

theorem legal_iff {items : List (Item Word)} :
    Legal items ↔ .leaf none ∉ readItems items := by
  rw [readItems, List.mem_map, not_exists]
  apply forall_congr'
  intro item
  rw [not_and]
  apply imp_congr_right
  intro _
  cases item with
  | leaf word => simp [Item.map, Word.read_eq_none_iff]
  | _ => simp [Item.map]

theorem legal_expected (trees : List Ast) : .leaf none ∉ expected trees := by
  rw [expected, List.mem_map]
  rintro ⟨item, _, hitem⟩
  cases item <;> cases hitem

section Rules

variable {depth : ℕ} {src next after last : Source} {word : Word} {tree : Ast}
  {trees elems : List Ast} {err : DslError}

theorem Parsed.leaf (hsteps : Steps u src next (.leaf word)) (hread : word.read = some tree)
    (hrest : Parsed u depth next (.ok trees) last) :
    Parsed u depth src (.ok (tree :: trees)) last := by
  have hitems : readItems (src.items u) = expected [tree] ++ readItems (next.items u) := by
    rw [hsteps.items, readItems_cons, Item.map, hread, expected_leaf hread]
    rfl
  cases hrest with
  | top hdepth hnext herrors =>
      apply Parsed.top hdepth
      · rw [hitems, hnext, ← expected_cons]
      · rw [herrors, hsteps.errors]
  | nested hdepth hnext herrors hshorter =>
      apply Parsed.nested hdepth
      · rw [hitems, hnext, ← List.append_assoc, ← expected_cons]
      · rw [herrors, hsteps.errors]
      · exact hshorter.trans hsteps.shorter

theorem Parsed.leaf_error (hsteps : Steps u src next (.leaf word))
    (hrest : Parsed u depth next (.error err) last) : Parsed u depth src (.error err) last := by
  cases hrest with
  | failed hlevel herrors =>
      apply Parsed.failed
      · intro hlegal
        rw [hsteps.items] at hlegal ⊢
        exact hlevel hlegal.tail
      · rwa [hsteps.errors] at herrors

theorem Parsed.split_sexp (hsteps : Steps u src next .opening)
    (helems : Parsed u (depth + 1) next (.ok elems) after) (pos : Position) :
    readItems (src.items u) = expected [.sexp elems pos] ++ readItems (after.items u) ∧
      after.allErrors u = src.allErrors u ∧ after.rest.length < src.rest.length := by
  cases helems with
  | top hdepth => cases hdepth
  | nested _ hitems herrors hshorter =>
      refine ⟨?_, herrors.trans hsteps.errors, hshorter.trans hsteps.shorter⟩
      rw [hsteps.items, readItems_cons, hitems, expected_sexp]
      simp [Item.map]

theorem Parsed.sexp (hsteps : Steps u src next .opening)
    (helems : Parsed u (depth + 1) next (.ok elems) after)
    (hrest : Parsed u depth after (.ok trees) last) (pos : Position) :
    Parsed u depth src (.ok (.sexp elems pos :: trees)) last := by
  rcases Parsed.split_sexp hsteps helems pos with ⟨hitems, herrors, hshorter⟩
  cases hrest with
  | top hdepth hafter hlast =>
      apply Parsed.top hdepth
      · rw [hitems, hafter, ← expected_cons]
      · rw [hlast, herrors]
  | nested hdepth hafter hlast hbehind =>
      apply Parsed.nested hdepth
      · rw [hitems, hafter, ← List.append_assoc, ← expected_cons]
      · rw [hlast, herrors]
      · exact hbehind.trans hshorter

theorem Parsed.inner_error (hsteps : Steps u src next .opening)
    (helems : Parsed u (depth + 1) next (.error err) last) :
    Parsed u depth src (.error err) last := by
  cases helems with
  | failed hlevel herrors =>
      apply Parsed.failed
      · intro hlegal
        rw [hsteps.items] at hlegal ⊢
        rcases hlevel hlegal.tail with ⟨hunbalanced, hopen⟩
        rw [if_neg (Nat.succ_ne_zero depth)] at hopen
        rcases Option.isSome_iff_exists.mp hopen with ⟨final, hfinal⟩
        have hshifted := level_shift hfinal
        refine ⟨hunbalanced, ?_⟩
        rw [level, hshifted]
        split
        · simp
        · rfl
      · rwa [hsteps.errors] at herrors

theorem Parsed.rest_error (hsteps : Steps u src next .opening)
    (helems : Parsed u (depth + 1) next (.ok elems) after)
    (hrest : Parsed u depth after (.error err) last) : Parsed u depth src (.error err) last := by
  rcases Parsed.split_sexp hsteps helems {} with ⟨hitems, herrors, _⟩
  have hlevel : ∀ start, level start (src.items u) = level start (after.items u) := by
    intro start
    have hread := congrArg (level start) hitems
    rw [level_append, level_expected, Option.bind_some] at hread
    rwa [level_readItems, level_readItems] at hread
  cases hrest with
  | failed hafter hlast =>
      apply Parsed.failed
      · intro hlegal
        rw [hlevel]
        apply hafter
        rw [legal_iff, hitems, List.mem_append, not_or] at hlegal
        exact legal_iff.mpr hlegal.2
      · rwa [herrors] at hlast

end Rules

/-- The parser reads the items up to the parenthesis that closes its own, or to the end. -/
theorem parsed_parseText {fuel depth : ℕ} {src last : Source}
    {result : Except DslError (List Ast)} (hfuel : src.rest.length < fuel)
    (hcall : parseText u fuel depth src = (result, last)) : Parsed u depth src result last := by
  induction fuel generalizing depth src last result with
  | zero => exact absurd hfuel (Nat.not_lt_zero _)
  | succ fuel ih =>
      unfold parseText at hcall
      rcases parseElement_steps (u := u) src with ⟨element, next, hparse, heof | hitem⟩
      · rcases heof with ⟨rfl, hitems, herrors⟩
        rw [hparse] at hcall
        dsimp only at hcall
        split at hcall
        next hdepth =>
          cases hcall
          exact .top hdepth (by rw [hitems]; rfl) herrors
        next hdepth =>
          cases hcall
          apply Parsed.failed
          · intro _
            rw [hitems, if_neg hdepth]
            exact ⟨⟨_, rfl⟩, rfl⟩
          · rw [herrors]
      · rcases hitem with ⟨item, hreadAs, hsteps⟩
        have hfuel' : next.rest.length < fuel := by
          have hshorter := hsteps.shorter
          omega
        rw [hparse] at hcall
        cases hreadAs with
        | leaf hread =>
            dsimp only at hcall
            split at hcall
            next hrest =>
              cases hcall
              exact .leaf hsteps hread (ih hfuel' hrest)
            next hrest =>
              cases hcall
              exact .leaf_error hsteps (ih hfuel' hrest)
        | opening =>
            dsimp only at hcall
            split at hcall
            next elems after helems =>
              have hinner := ih hfuel' helems
              have hafter : after.rest.length < fuel := by
                have hshorter := (Parsed.split_sexp hsteps hinner {}).2.2
                omega
              split at hcall
              next hrest =>
                cases hcall
                exact .sexp hsteps hinner (ih hafter hrest) next.pos
              next hrest =>
                cases hcall
                exact .rest_error hsteps hinner (ih hafter hrest)
            next helems =>
              cases hcall
              exact .inner_error hsteps (ih hfuel' helems)
        | closing =>
            dsimp only at hcall
            split at hcall
            next hdepth =>
              cases hcall
              apply Parsed.failed
              · intro _
                rw [hsteps.items, if_pos hdepth]
                exact ⟨⟨_, rfl⟩, nofun⟩
              · rw [← hsteps.errors]
                exact List.prefix_append _ _
            next hdepth =>
              cases hcall
              apply Parsed.nested hdepth _ hsteps.errors hsteps.shorter
              rw [hsteps.items]
              rfl
        | bad hread err =>
            cases hcall
            apply Parsed.failed
            · intro hlegal
              rw [hsteps.items] at hlegal
              rw [Word.read_eq_none_iff] at hread
              exact absurd (by rw [hread]) (hlegal _ List.mem_cons_self)
            · rw [← hsteps.errors]
              exact List.prefix_append _ _

end Parser

/-! ## Programs -/

/-- A byte order mark at the beginning does not belong to the program. -/
def skipMark : List Char → List Char
  | '\uFEFF' :: rest => rest
  | text => text

theorem start_rest (filename : String) (text : List Char) :
    (Source.start filename text).rest = skipMark text ∧
      (Source.start filename text).errors = [] := by
  unfold Source.start
  split
  · exact ⟨rfl, rfl⟩
  next hmark =>
    refine ⟨?_, rfl⟩
    unfold skipMark
    split
    next rest => exact absurd rfl (hmark rest)
    · rfl

section Programs

variable {u : Unicode} {filename : String} {text : List Char}

def fileTokens (u : Unicode) (text : List Char) : Tokens := tokens u (skipMark text)

/-- What `parse` says about the tokens of its text. -/
theorem parse_cases (u : Unicode) (filename : String) (text : List Char) :
    (∃ trees, parse u filename text = .ok trees ∧ (fileTokens u text).errors = [] ∧
        readItems (fileTokens u text).items = expected trees) ∨
      ∃ err, parse u filename text = .error err ∧
        ((fileTokens u text).errors = [] → Legal (fileTokens u text).items →
          Unbalanced err ∧ ¬Balanced (fileTokens u text).items) := by
  rcases start_rest filename text with ⟨hrest, hnone⟩
  have hitems : (Source.start filename text).items u = (fileTokens u text).items := by
    rw [Source.items, hrest, fileTokens]
  have herrors : (Source.start filename text).allErrors u = (fileTokens u text).errors := by
    rw [Source.allErrors, hrest, hnone, fileTokens, List.nil_append]
  have hfuel : (Source.start filename text).rest.length < text.length + 1 := by
    rw [hrest, Nat.lt_succ_iff]
    unfold skipMark
    split
    · exact Nat.le_succ _
    · exact le_rfl
  unfold parse
  rcases hcall : parseText u (text.length + 1) 0 (Source.start filename text) with ⟨result, last⟩
  dsimp only
  cases parsed_parseText hfuel hcall with
  | @top trees _ _ htrees hlast =>
      rw [herrors] at hlast
      rw [hitems] at htrees
      by_cases hclean : last.errors = []
      · rw [if_pos hclean]
        exact .inl ⟨trees, rfl, hlast ▸ hclean, htrees⟩
      · rw [if_neg hclean]
        exact .inr ⟨_, rfl, fun hnone => absurd (hlast.trans hnone) hclean⟩
  | nested hdepth => exact absurd rfl hdepth
  | failed hlevel hlast =>
      rw [herrors] at hlast
      rw [hitems, if_pos rfl] at hlevel
      right
      by_cases hclean : last.errors = []
      · rw [if_pos hclean]
        refine ⟨_, rfl, fun _ hlegal => ?_⟩
        rw [balanced_iff_level]
        exact hlevel hlegal
      · rw [if_neg hclean]
        refine ⟨_, rfl, fun hnone => ?_⟩
        rw [hnone, List.prefix_nil] at hlast
        exact absurd hlast hclean

/-- The parser accepts exactly the texts of legal words with balanced parentheses, and
returns their words in order. -/
theorem parse_accepts_balanced (hclean : (fileTokens u text).errors = []) :
    ((∃ trees, parse u filename text = .ok trees) ↔
        Legal (fileTokens u text).items ∧ Balanced (fileTokens u text).items) ∧
      (∀ trees, parse u filename text = .ok trees →
        readItems (fileTokens u text).items = expected trees) ∧
      (Legal (fileTokens u text).items → ¬Balanced (fileTokens u text).items →
        ∃ pos, parse u filename text =
          .error (.located pos (.plain "unbalanced Parenthesis"))) := by
  rcases parse_cases u filename text with ⟨trees, hparse, _, hitems⟩ | ⟨err, hparse, hfailed⟩
  · have hlegal : Legal (fileTokens u text).items := by
      rw [legal_iff, hitems]
      exact legal_expected trees
    have hbalanced : Balanced (fileTokens u text).items := by
      rw [balanced_iff_level, ← level_readItems, hitems, level_expected]
    rw [hparse]
    refine ⟨⟨fun _ => ⟨hlegal, hbalanced⟩, fun _ => ⟨trees, rfl⟩⟩, ?_, ?_⟩
    · rintro _ ⟨⟩
      exact hitems
    · exact fun _ hunbalanced => absurd hbalanced hunbalanced
  · rw [hparse]
    refine ⟨⟨?_, ?_⟩, ?_, ?_⟩
    · rintro ⟨_, ⟨⟩⟩
    · rintro ⟨hlegal, hbalanced⟩
      exact absurd hbalanced (hfailed hclean hlegal).2
    · rintro _ ⟨⟩
    · intro hlegal _
      rcases (hfailed hclean hlegal).1 with ⟨pos, rfl⟩
      exact ⟨pos, rfl⟩

end Programs

instance : DecidablePred Legal := fun items =>
  inferInstanceAs (Decidable (∀ item ∈ items, item ≠ .leaf .illegal))

def defineText : List Char := "(define net.web (list 80 1.5 \"a b\" (+ 1 2)))".toList

theorem parse_accepts_balanced_define :
    (fileTokens .ascii defineText).errors = [] ∧
      ∃ trees, parse .ascii "spec" defineText = .ok trees := by
  have hclean : (fileTokens .ascii defineText).errors = [] := by decide
  refine ⟨hclean, (parse_accepts_balanced hclean).1.mpr ?_⟩
  decide

end Lang
end Di
