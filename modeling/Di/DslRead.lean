import Di.DslParse
import Di.GoScannerTokens

/-!
# What the parser reads

The trees of a compiled program in terms of the tokens they were read from: the
names are identifiers joined by periods or single operators, integers lie between
zero and the largest 64-bit integer, a number is the value of a literal, and a
string neither begins nor ends with a double quote.  No two S-expressions of a text
have the same position.  Import resolution adds modules around such trees and leaves
no import behind.
-/

namespace Di
namespace Lang

open GoScanner

/-! ## Trimmed strings -/

/-- Neither begins nor ends with a double quote. -/
def Trimmed (text : List Char) : Prop :=
  text.head? ≠ some doubleQuote ∧ text.getLast? ≠ some doubleQuote

theorem head?_dropWhile_ne (text : List Char) :
    (text.dropWhile (· = doubleQuote)).head? ≠ some doubleQuote := by
  have hstop := List.head?_dropWhile_not (fun c => decide (c = doubleQuote)) text
  intro hquote
  simp [hquote] at hstop

theorem trimmed_trimQuotes (text : List Char) : Trimmed (trimQuotes text) := by
  unfold Trimmed trimQuotes
  constructor
  · rw [List.head?_reverse]
    intro hlast
    have hsuffix := List.dropWhile_suffix (l := (text.dropWhile (· = doubleQuote)).reverse)
      fun c => decide (c = doubleQuote)
    rcases hsuffix with ⟨front, hfront⟩
    have hhead := congrArg List.getLast? hfront
    rw [List.getLast?_append, hlast, Option.some_or, List.getLast?_reverse] at hhead
    exact head?_dropWhile_ne text hhead.symm
  · rw [List.getLast?_reverse]
    exact head?_dropWhile_ne _

theorem trimQuotes_quoted {text : List Char} (htext : Trimmed text) :
    trimQuotes (doubleQuote :: (text ++ [doubleQuote])) = text := by
  have hdrop : ∀ front : List Char, front.head? ≠ some doubleQuote →
      front.dropWhile (· = doubleQuote) = front := by
    intro front hfront
    cases front with
    | nil => rfl
    | cons c rest => simpa using hfront
  unfold trimQuotes
  rw [List.dropWhile_cons_of_pos (by simp)]
  cases text with
  | nil => decide
  | cons c rest =>
      rw [hdrop (c :: rest ++ [doubleQuote]) (by simpa using htext.1), List.reverse_append,
        List.reverse_singleton, List.singleton_append, List.dropWhile_cons_of_pos (by simp),
        hdrop _ (by rw [List.head?_reverse]; exact htext.2), List.reverse_reverse]

/-! ## Trees and statements -/

/-- Identifiers joined by periods. -/
def IsDotted (u : Unicode) (name : List Char) : Prop :=
  ∃ (first : List Char) (more : List (List Char)), IsName u first ∧ (∀ part ∈ more, IsName u part) ∧
    name = first ++ more.flatMap ('.' :: ·)

def Scalar.Read (u : Unicode) : Scalar → Prop
  | .ident name =>
      (∃ c ∈ operators, name.toList = [c]) ∨
        IsDotted u name.toList ∧ name ≠ "true" ∧ name ≠ "false"
  | .bool _ => True
  | .int x => 0 ≤ x ∧ x < 2 ^ 63
  | .float x => ∀ r, x = .finite r → GoFloat.IsNumber r
  | .str text => Trimmed text.toList
  | _ => False

inductive Ast.Read (u : Unicode) : Ast → Prop
  | scalar {value : Scalar} (hvalue : value.Read u) : Ast.Read u (.scalar value)
  | sexp {elems : List Ast} {pos : Position} (helems : ∀ elem ∈ elems, elem.Read u) :
      Ast.Read u (.sexp elems pos)

/-- A tree at the top of a compiled program or module. -/
inductive Statement (u : Unicode) : Ast → Prop
  | tree {tree : Ast} (hread : tree.Read u) (himport : parseImport tree = .ok "") :
      Statement u tree
  | imported {name : String} {body : List Ast} (hname : Scalar.Read u (.str name))
      (hbody : ∀ tree ∈ body, Statement u tree) : Statement u (.moduleNode name body)

/-! ## Tokens -/

section Tokens

variable {u : Unicode}

theorem isDotted_of_isName {name : List Char} (hname : IsName u name) : IsDotted u name :=
  ⟨name, [], hname, by simp, by simp⟩

theorem IsDotted.append {name part : List Char} (hname : IsDotted u name)
    (hpart : IsName u part) : IsDotted u (name ++ '.' :: part) := by
  rcases hname with ⟨first, more, hfirst, hmore, rfl⟩
  refine ⟨first, more ++ [part], hfirst, ?_, by simp⟩
  intro other hmem
  rcases List.mem_append.mp hmem with hmem | hmem
  · exact hmore other hmem
  · exact List.mem_singleton.mp hmem ▸ hpart

theorem isDotted_of_parseDotted {fuel : ℕ} {name result : List Char} {src next : Source}
    (hname : IsDotted u name) (hparse : parseDotted u fuel name src = (.ok result, next)) :
    IsDotted u result := by
  induction fuel generalizing name src with
  | zero =>
      cases hparse
      exact hname
  | succ fuel ih =>
      unfold parseDotted at hparse
      split at hparse
      next rest hrest =>
        simp only at hparse
        split at hparse
        next hkind => exact ih (hname.append (isName_of_scan hkind)) hparse
        · cases hparse
      · cases hparse
        exact hname

theorem read_parseIdent {name : List Char}
    (hname : (∃ c ∈ operators, name = [c]) ∨ IsDotted u name) :
    (parseIdent (String.ofList name)).Read u := by
  unfold parseIdent
  split_ifs with htrue hfalse
  · exact .scalar trivial
  · exact .scalar trivial
  · apply Ast.Read.scalar
    rcases hname with ⟨c, hc, rfl⟩ | hname
    · exact .inl ⟨c, hc, by simp⟩
    · exact .inr ⟨by simpa using hname, htrue, hfalse⟩

theorem atoi_bounds (text : List Char) : 0 ≤ atoi text ∧ atoi text < 2 ^ 63 := by
  unfold atoi
  split_ifs
  · omega
  · norm_num

theorem read_of_leaf {src next : Source} {tree : Ast}
    (helement : parseElement u src = (.leaf tree, next)) : tree.Read u := by
  unfold parseElement at helement
  rcases hscan : Source.scan u src with ⟨token, behind⟩
  have htoken : token = scan u src.rest := (congrArg Prod.fst hscan).symm
  simp only [hscan] at helement
  split at helement
  next c hkind =>
    split at helement
    next hc =>
      cases helement
      rw [htoken] at hkind ⊢
      exact read_parseIdent (.inl ⟨c, hc, text_of_symbol hkind⟩)
    · split at helement
      · cases helement
      · split at helement
        · cases helement
        · cases helement
  next hkind =>
    split at helement
    next name after hdotted =>
      cases helement
      rw [htoken] at hkind hdotted
      have hname := isDotted_of_isName (isName_of_scan hkind)
      exact read_parseIdent (.inr (isDotted_of_parseDotted hname hdotted))
    · cases helement
  · cases helement
    exact .scalar fun r hr => GoFloat.isNumber_of_parseFloat hr
  · cases helement
    exact .scalar (atoi_bounds _)
  · cases helement
    apply Ast.Read.scalar
    simpa [Scalar.Read] using trimmed_trimQuotes _
  · cases helement
  · cases helement

end Tokens

/-! ## Parsing and import resolution -/

section Trees

variable {u : Unicode} {files : Files} {paths imported : List String}

theorem read_parseText (fuel depth : ℕ) {src last : Source} {trees : List Ast}
    (hparse : parseText u fuel depth src = (.ok trees, last)) : ∀ tree ∈ trees, tree.Read u := by
  induction fuel generalizing depth src last trees with
  | zero => cases hparse
  | succ fuel ih =>
      unfold parseText at hparse
      split at hparse
      next tree next helement =>
        split at hparse
        next rest after hrest =>
          cases hparse
          simpa [read_of_leaf helement] using ih depth hrest
        · cases hparse
      next next helement =>
        split at hparse
        next elems after helems =>
          split at hparse
          next rest final hrest =>
            cases hparse
            have hsexp : Ast.Read u (.sexp elems next.pos) := .sexp (ih _ helems)
            simpa [hsexp] using ih depth hrest
          · cases hparse
        · cases hparse
      · split at hparse
        · cases hparse
        · cases hparse
          simp
      · split at hparse
        · cases hparse
          simp
        · cases hparse
      · cases hparse

theorem read_parse {filename : String} {text : List Char} {trees : List Ast}
    (hparse : parse u filename text = .ok trees) : ∀ tree ∈ trees, tree.Read u := by
  unfold parse at hparse
  split at hparse
  next result last htext =>
    split at hparse
    · rw [hparse] at htext
      exact read_parseText _ _ htext
    · cases hparse

theorem liftParse_eq_ok {α : Type} {result : Except DslError α} {a : α} :
    liftParse result = .ok a ↔ result = .ok a := by
  cases result with
  | ok b => simp [liftParse]
  | error err => simp [liftParse]

theorem read_parseImport {tree : Ast} {name : String} (hread : tree.Read u)
    (himport : parseImport tree = .ok name) (hname : name ≠ "") :
    Scalar.Read u (.str name) := by
  unfold parseImport at himport
  split at himport
  next head args pos =>
    split at himport
    · split at himport
      · cases himport
      next text rest =>
        cases himport
        cases hread with
        | sexp helems =>
            cases helems (.str name) (by simp) with
            | scalar hvalue => exact hvalue
      · cases himport
        exact absurd rfl hname
    · cases himport
      exact absurd rfl hname
  · cases himport
    exact absurd rfl hname

theorem statements_resolveTrees
    {resolve : List String → List Ast → Outcome DslError (List Ast)}
    (hresolve : ∀ names trees resolved, (∀ tree ∈ trees, tree.Read u) →
      resolve names trees = .ok resolved → ∀ tree ∈ resolved, Statement u tree)
    (trees resolved : List Ast) (top : Bool) (htrees : ∀ tree ∈ trees, tree.Read u)
    (hok : resolveTrees u files paths imported resolve top trees = .ok resolved) :
    ∀ tree ∈ resolved, Statement u tree := by
  induction trees generalizing resolved top with
  | nil =>
      cases hok
      simp
  | cons tree rest ih =>
      have htree := htrees tree List.mem_cons_self
      have hrest := fun other hmem => htrees other (List.mem_cons_of_mem tree hmem)
      unfold resolveTrees at hok
      rcases Outcome.bind_eq_ok.mp hok with ⟨name, himport, hok⟩
      split at hok
      next hname =>
        rcases Outcome.bind_eq_ok.mp hok with ⟨more, hmore, hok⟩
        cases hok
        rw [List.forall_mem_cons]
        exact ⟨.tree htree (hname ▸ himport), ih _ _ hrest hmore⟩
      next hname =>
        split at hok
        · cases hok
        · split at hok
          · cases hok
          · split at hok
            · cases hok
            · rcases Outcome.bind_eq_ok.mp hok with ⟨parsed, hparsed, hok⟩
              rcases Outcome.bind_eq_ok.mp hok with ⟨body, hbody, hok⟩
              rcases Outcome.bind_eq_ok.mp hok with ⟨more, hmore, hok⟩
              cases hok
              have hread := read_parse (liftParse_eq_ok.mp hparsed)
              rw [List.forall_mem_cons]
              exact ⟨.imported (read_parseImport htree himport hname)
                (hresolve _ _ _ hread hbody), ih _ _ hrest hmore⟩

theorem statements_resolveImportsRec (fuel : ℕ) :
    ∀ imported trees resolved, (∀ tree ∈ trees, tree.Read u) →
      resolveImportsRec u files paths fuel imported trees = .ok resolved →
        ∀ tree ∈ resolved, Statement u tree := by
  induction fuel with
  | zero =>
      intro imported trees resolved _ hok
      cases hok
  | succ fuel ih =>
      intro imported trees resolved htrees hok
      exact statements_resolveTrees ih trees resolved true htrees hok

theorem statements_compile {fuel : ℕ} {spec : Spec} {program : List Ast}
    (hok : compile u files fuel spec = .ok program) : ∀ tree ∈ program, Statement u tree := by
  rcases Outcome.bind_eq_ok.mp hok with ⟨parsed, hparsed, hresolved⟩
  exact statements_resolveImportsRec fuel [] parsed program
    (read_parse (liftParse_eq_ok.mp hparsed)) hresolved

end Trees

/-! ## Positions -/

mutual

/-- The positions of the S-expressions of a program. -/
def Ast.positions : Ast → List Position
  | .sexp elems pos => pos :: Ast.positionsAll elems
  | .moduleNode _ body => Ast.positionsAll body
  | _ => []

def Ast.positionsAll : List Ast → List Position
  | [] => []
  | elem :: rest => elem.positions ++ Ast.positionsAll rest

end

/-- Positions in the order of a text, behind `low` and up to `high`. -/
structure Increasing (low high : ℕ) (positions : List Position) : Prop where
  le : low ≤ high
  within : ∀ pos ∈ positions, low < pos.offset ∧ pos.offset ≤ high
  sorted : positions.Pairwise fun p q => p.offset < q.offset

namespace Increasing

variable {low middle high : ℕ} {ps qs : List Position}

theorem nil (hle : low ≤ high) : Increasing low high [] :=
  ⟨hle, List.forall_mem_nil _, .nil⟩

theorem append (hps : Increasing low middle ps) (hqs : Increasing middle high qs) :
    Increasing low high (ps ++ qs) where
  le := hps.le.trans hqs.le
  within := by
    intro pos hmem
    rcases List.mem_append.mp hmem with hmem | hmem
    · exact ⟨(hps.within pos hmem).1, (hps.within pos hmem).2.trans hqs.le⟩
    · exact ⟨hps.le.trans_lt (hqs.within pos hmem).1, (hqs.within pos hmem).2⟩
  sorted := by
    rw [List.pairwise_append]
    refine ⟨hps.sorted, hqs.sorted, ?_⟩
    intro p hp q hq
    exact (hps.within p hp).2.trans_lt (hqs.within q hq).1

theorem singleton {pos : Position} (hlow : low < pos.offset) :
    Increasing low pos.offset [pos] where
  le := hlow.le
  within := by simpa using hlow
  sorted := List.pairwise_singleton _ _

theorem nodup (hps : Increasing low high ps) : ({} :: ps).Nodup := by
  rw [List.nodup_cons]
  constructor
  · intro hmem
    exact absurd (hps.within _ hmem).1 (Nat.not_lt_zero _)
  · exact hps.sorted.imp fun hlt heq => absurd (heq ▸ hlt) (Nat.lt_irrefl _)

end Increasing

section Positions

variable {u : Unicode}

theorem offset_advance (pos : Position) (c : Char) : pos.offset < (pos.advance c).offset := by
  have hsize := c.utf8Size_pos
  unfold Position.advance
  split
  · exact Nat.lt_add_of_pos_right hsize
  · exact Nat.lt_add_of_pos_right hsize

theorem offset_foldl (text : List Char) (pos : Position) :
    pos.offset + text.length ≤ (text.foldl Position.advance pos).offset := by
  induction text generalizing pos with
  | nil => exact le_rfl
  | cons c text ih =>
      have hstep := offset_advance pos c
      have hrest := ih (pos.advance c)
      rw [List.length_cons, List.foldl_cons]
      omega

theorem offset_moveTo (src : Source) (rest : List Char) :
    src.pos.offset + (src.rest.length - rest.length) ≤ (src.moveTo rest).pos.offset := by
  have hfold := offset_foldl (between src.rest rest) src.pos
  rwa [between, List.length_take, Nat.min_eq_left (Nat.sub_le _ _)] at hfold

theorem offset_scan (src : Source) :
    src.pos.offset + (src.rest.length - (scan u src.rest).rest.length) ≤
      (src.scan u).2.pos.offset := offset_moveTo src _

theorem offset_parseDotted (fuel : ℕ) (name : List Char) (src : Source) :
    src.pos.offset ≤ (parseDotted u fuel name src).2.pos.offset := by
  induction fuel generalizing name src with
  | zero => exact le_rfl
  | succ fuel ih =>
      unfold parseDotted
      split
      next rest _ =>
        have hmove := offset_moveTo src rest
        have hscan := offset_scan (u := u) (src.moveTo rest)
        have hle : src.pos.offset ≤ ((src.moveTo rest).scan u).2.pos.offset := by omega
        dsimp only
        split
        · exact hle.trans (ih _ _)
        · exact hle
      · exact le_rfl

theorem offset_parseElement (src : Source) :
    src.pos.offset ≤ (parseElement u src).2.pos.offset := by
  have hscan := offset_scan (u := u) src
  have hle : src.pos.offset ≤ (src.scan u).2.pos.offset := by omega
  unfold parseElement
  dsimp only
  split
  · split_ifs <;> exact hle
  · have hdotted := offset_parseDotted (u := u) (src.scan u).2.rest.length
      (src.scan u).1.text (src.scan u).2
    split
    next hparse =>
      rw [hparse] at hdotted
      exact hle.trans hdotted
    next hparse =>
      rw [hparse] at hdotted
      exact hle.trans hdotted
  all_goals exact hle

theorem offset_opening {src next : Source} (hopening : parseElement u src = (.opening, next)) :
    src.pos.offset < next.pos.offset := by
  have hkind : (scan u src.rest).kind ≠ .eof := by
    intro heof
    have htoken : (src.scan u).1 = scan u src.rest := rfl
    simp [parseElement, htoken, heof] at hopening
  have hnext : next = (src.scan u).2 := by
    unfold parseElement at hopening
    dsimp only at hopening
    split at hopening
    · split_ifs at hopening <;> cases hopening
      rfl
    · split at hopening <;> cases hopening
    all_goals cases hopening
  have hscan := offset_scan (u := u) src
  have hrest := scan_rest_lt hkind
  rw [hnext]
  omega

theorem positions_parseIdent (name : String) : (parseIdent name).positions = [] := by
  unfold parseIdent
  split_ifs <;> rfl

theorem positions_leaf {src next : Source} {tree : Ast}
    (hleaf : parseElement u src = (.leaf tree, next)) : tree.positions = [] := by
  unfold parseElement at hleaf
  dsimp only at hleaf
  split at hleaf
  · split_ifs at hleaf <;> cases hleaf
    exact positions_parseIdent _
  · split at hleaf <;> cases hleaf
    exact positions_parseIdent _
  all_goals cases hleaf
  all_goals rfl

theorem increasing_parseText (fuel depth : ℕ) {src last : Source} {trees : List Ast}
    (hparse : parseText u fuel depth src = (.ok trees, last)) :
    Increasing src.pos.offset last.pos.offset (Ast.positionsAll trees) := by
  induction fuel generalizing depth src last trees with
  | zero => cases hparse
  | succ fuel ih =>
      have helement := offset_parseElement (u := u) src
      unfold parseText at hparse
      split at hparse
      next tree next hleaf =>
        split at hparse
        next rest after hrest =>
          cases hparse
          rw [hleaf] at helement
          rw [Ast.positionsAll, positions_leaf hleaf]
          exact (Increasing.nil helement).append (ih _ hrest)
        · cases hparse
      next next hopening =>
        split at hparse
        next elems after helems =>
          split at hparse
          next rest final hrest =>
            cases hparse
            have hpos := Increasing.singleton (offset_opening hopening)
            exact (hpos.append (ih _ helems)).append (ih _ hrest)
          · cases hparse
        · cases hparse
      next next hclosing =>
        rw [hclosing] at helement
        split at hparse
        · cases hparse
        · cases hparse
          exact .nil helement
      next next heof =>
        rw [heof] at helement
        split at hparse
        · cases hparse
          exact .nil helement
        · cases hparse
      · cases hparse

theorem nodup_parse {filename : String} {text : List Char} {trees : List Ast}
    (hparse : parse u filename text = .ok trees) : ({} :: Ast.positionsAll trees).Nodup := by
  unfold parse at hparse
  split at hparse
  next result last htext =>
    split at hparse
    · rw [hparse] at htext
      exact (increasing_parseText _ _ htext).nodup
    · cases hparse

end Positions
end Lang
end Di
