import Di.DslRoundTrip

/-!
# Reading back what was printed

The trees whose text shows everything but their source positions: names, operators,
truth values, natural numbers of 63 bits, strings that need no escape, and
S-expressions of these.  The parser reads such trees back from their text.  A string
must not hold the character NUL, which the scanner refuses, and a name must not be
spelled like a truth value, which the parser takes for one.
-/

namespace Di
namespace Lang

open GoScanner
open List (Forall₂)

/-- A string that stands between double quotes without an escape. -/
def NeedsNoEscape (text : List Char) : Prop :=
  doubleQuote ∉ text ∧ '\\' ∉ text ∧ '\n' ∉ text

inductive Ast.Printable (u : Unicode) : Ast → Prop
  | operator {c : Char} (hc : c ∈ operators) : Ast.Printable u (.ident (String.ofList [c]))
  | name {name : String} (hname : IsDotted u name.toList) (htrue : name ≠ "true")
      (hfalse : name ≠ "false") : Ast.Printable u (.ident name)
  | bool (b : Bool) : Ast.Printable u (.bool b)
  | int {x : ℤ} (hnonneg : 0 ≤ x) (hsmall : x < 2 ^ 63) : Ast.Printable u (.int x)
  | str {text : String} (htext : NeedsNoEscape text.toList) (hnul : '\x00' ∉ text.toList) :
      Ast.Printable u (.str text)
  | sexp {elems : List Ast} {pos : Position} (helems : ∀ elem ∈ elems, elem.Printable u) :
      Ast.Printable u (.sexp elems pos)

theorem unplaceds_eq_map (elems : List Ast) :
    Ast.unplaceds elems = elems.map Ast.unplaced := by
  induction elems with
  | nil => rfl
  | cons elem rest ih => rw [Ast.unplaceds, ih, List.map_cons]

/-- Equal up to positions. -/
def SameTree (a b : Ast) : Prop := a.unplaced = b.unplaced

theorem map_unplaced_eq {as bs : List Ast} (hsame : Forall₂ SameTree as bs) :
    as.map Ast.unplaced = bs.map Ast.unplaced := by
  induction hsame with
  | nil => rfl
  | cons hhead _ ih => rw [List.map_cons, List.map_cons, hhead, ih]

theorem sameTree_sexp {as bs : List Ast} (hsame : Forall₂ SameTree as bs) (p q : Position) :
    SameTree (.sexp as p) (.sexp bs q) := by
  unfold SameTree
  rw [Ast.unplaced, Ast.unplaced, unplaceds_eq_map, unplaceds_eq_map, map_unplaced_eq hsame]

theorem NeedsNoEscape.quotable {text : List Char} (htext : NeedsNoEscape text) :
    Quotable text = true := by
  have hscan : ∀ rest : List Char, (∀ c ∈ rest, c ∈ text) →
      (scanString doubleQuote .body (rest ++ [doubleQuote])).rest = [] ∧
        (scanString doubleQuote .body (rest ++ [doubleQuote])).errors = [] := by
    intro rest hrest
    induction rest with
    | nil => decide
    | cons c rest ih =>
        rw [List.forall_mem_cons] at hrest
        have hquote : c ≠ doubleQuote := fun h => htext.1 (h ▸ hrest.1)
        have hescape : c ≠ '\\' := fun h => htext.2.1 (h ▸ hrest.1)
        have hline : c ≠ '\n' := fun h => htext.2.2 (h ▸ hrest.1)
        have hstep : quoteStep doubleQuote c .body = ([], .goto .body 1) := by
          simp [quoteStep, bodyStep, hquote, hescape, hline]
        rw [List.cons_append, scanString, hstep]
        exact ih hrest.2
  rcases hscan text fun _ hmem => hmem with ⟨hrest, herrors⟩
  simp [Quotable, hrest, herrors]

theorem NeedsNoEscape.trimmed {text : List Char} (htext : NeedsNoEscape text) : Trimmed text :=
  ⟨fun hhead => htext.1 (List.mem_of_mem_head? hhead),
    fun hlast => htext.1 (List.mem_of_mem_getLast? hlast)⟩

section Reprint

variable {u : Unicode}

theorem prints_settled {v : Scalar} (hread : v.Read u) (hportable : v.portable = true)
    (hsettled : v.settled = true) : Prints u SameTree (.scalar v) :=
  (prints_scalar hread hportable).mono fun _ hreads => by rw [hreads.eq_of_settled hsettled]; rfl

theorem prints_printable {tree : Ast} (hprintable : tree.Printable u) :
    Prints u SameTree tree := by
  induction hprintable with
  | operator hc => exact prints_settled (.inl ⟨_, hc, by simp⟩) rfl rfl
  | name hname htrue hfalse => exact prints_settled (.inr ⟨hname, htrue, hfalse⟩) rfl rfl
  | bool b => exact prints_settled trivial rfl rfl
  | int hnonneg hsmall => exact prints_settled ⟨hnonneg, hsmall⟩ rfl rfl
  | str htext hnul =>
      refine prints_settled htext.trimmed ?_ rfl
      simp [Scalar.portable, Legible, htext.quotable, hnul]
  | @sexp elems pos _ ih =>
      apply prints_parenthesized (chars_sexp elems pos)
      · intro depth rest
        have hreads := rereads_joined (.inl rfl) ih (delimited_closing rest)
          (rereads_closing depth rest)
        rwa [List.append_nil] at hreads
      · exact fun elems' pos' hall => sameTree_sexp hall pos pos'

/-- Parsing the text of printable trees succeeds and returns the trees, up to source
positions. -/
theorem parse_undoes_print {trees : List Ast} (htrees : ∀ tree ∈ trees, tree.Printable u)
    (filename : String) :
    ∃ reread, parse u filename (programText trees).toList = .ok reread ∧
      reread.map Ast.unplaced = trees.map Ast.unplaced := by
  rcases parse_printed (fun tree hmem => prints_printable (htrees tree hmem)) filename with
    ⟨reread, hsame, hparse⟩
  exact ⟨reread, hparse, (map_unplaced_eq hsame).symm⟩

end Reprint

/-- `(connect 80 net.web "a b")`. -/
def connectTree : Ast := .sexp [.ident "connect", .int 80, .ident "net.web", .str "a b"] {}

theorem printable_connectTree (u : Unicode) : connectTree.Printable u := by
  have hletters : ∀ name ∈ ["connect".toList, "net".toList, "web".toList], IsName u name := by
    intro name hmem
    simp only [List.mem_cons, List.not_mem_nil, or_false] at hmem
    rcases hmem with rfl | rfl | rfl <;> apply isName_of_letters <;> decide
  have hdotted : IsDotted u "net.web".toList :=
    ⟨"net".toList, ["web".toList], hletters _ (by simp), by simpa using hletters _ (by simp),
      by decide⟩
  apply Ast.Printable.sexp
  intro elem hmem
  simp only [List.mem_cons, List.not_mem_nil, or_false] at hmem
  rcases hmem with rfl | rfl | rfl | rfl
  · exact .name (isDotted_of_isName (hletters _ (by simp))) (by decide) (by decide)
  · exact .int (by norm_num) (by norm_num)
  · exact .name hdotted (by decide) (by decide)
  · exact .str ⟨by decide, by decide, by decide⟩ (by decide)

theorem parse_undoes_print_connect :
    connectTree.Printable .ascii ∧
      ∃ reread, parse .ascii "spec" (programText [connectTree]).toList = .ok reread ∧
        reread.map Ast.unplaced = [connectTree].map Ast.unplaced := by
  have hprintable := printable_connectTree .ascii
  exact ⟨hprintable, parse_undoes_print (by simpa using hprintable) "spec"⟩

/-- A string with the character NUL is refused; a name spelled like a truth value is read
as one. -/
theorem reprint_failures :
    NeedsNoEscape "\x00".toList ∧
      (parse .ascii "" (programText [.str "\x00"]).toList).isOk = false ∧
      IsDotted .ascii "true".toList ∧
      (parse .ascii "" (programText [.ident "true"]).toList) = .ok [.bool true] := by
  refine ⟨⟨by decide, by decide, by decide⟩, by decide, ?_, ?_⟩
  · exact isDotted_of_isName (isName_of_letters (by decide) (by decide))
  · rfl

end Lang
end Di
