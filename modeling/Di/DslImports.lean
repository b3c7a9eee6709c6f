import Di.DslRead
import Mathlib.Data.Set.Finite.Lattice
import Mathlib.Logic.Relation

/-!
# Import resolution

Resolving the imports of a program is a depth-first traversal: an import is looked up
in the import path, its file is parsed, and the imports of that file are resolved with
the name added to the chain of the modules being imported.  A name that is on the chain
already is a cycle.  In a finite file system a chain cannot go on for ever, so the
traversal ends; its first fault decides the result, and without a fault no module
imports itself through others.
-/

namespace Di
namespace Lang

open GoScanner
open Relation (TransGen)

/-! ## Chains -/

/-- What holds of a chain if it holds of all its extensions by a new name, out of finitely
many names, holds of every chain. -/
theorem chain_induction {α : Type} [DecidableEq α] {names : Set α} (hfinite : names.Finite)
    {motive : List α → Prop}
    (hstep : ∀ chain, (∀ a ∈ names, a ∉ chain → motive (chain ++ [a])) → motive chain)
    (chain : List α) : motive chain := by
  induction hcard : (hfinite.toFinset \ chain.toFinset).card using Nat.strong_induction_on
    generalizing chain with
  | _ n ih =>
      apply hstep
      intro a ha hnew
      refine ih _ ?_ _ rfl
      rw [← hcard]
      apply Finset.card_lt_card
      rw [Finset.ssubset_iff_of_subset]
      · refine ⟨a, ?_, ?_⟩
        · simp [ha, hnew]
        · simp
      · intro b hb
        simp only [Finset.mem_sdiff, Set.Finite.mem_toFinset, List.mem_toFinset,
          List.mem_append, not_or] at hb ⊢
        exact ⟨hb.1, hb.2.1⟩

/-! ## The traversal -/

/-- An import that the traversal meets. -/
structure Visit where
  /-- The modules that are being imported, the outermost first. -/
  chain : List String
  name : String
  /-- Whether only imports stand before it in its module. -/
  top : Bool

inductive Fault
  | late
  | cycle
  | missing
  deriving DecidableEq

section Imports

variable (u : Unicode) (files : Files) (paths : List String)

def Visit.fault (visit : Visit) : Option Fault :=
  if visit.top = false then some .late
  else if visit.name ∈ visit.chain then some .cycle
  else if openImport files visit.name paths = none then some .missing
  else none

def Visit.error (visit : Visit) : Fault → DslError
  | .late => .plain "import must be begin the module"
  | .cycle =>
      .plain ("import cycle: [" ++ " ".intercalate (visit.chain ++ [visit.name]) ++ "]")
  | .missing => .plain ("unable to open import " ++ visit.name)

/-- The depth-first, in-order traversal of the imports of a module: all imports it meets,
in order.  It does not enter a module that is on the chain or has no file. -/
inductive Traverses : List String → Bool → List Ast → List Visit → Prop
  | nil {chain : List String} {top : Bool} : Traverses chain top [] []
  | other {chain : List String} {top : Bool} {tree : Ast} {rest : List Ast}
      {visits : List Visit} (hname : parseImport tree = .ok "")
      (hrest : Traverses chain false rest visits) : Traverses chain top (tree :: rest) visits
  | blocked {chain : List String} {top : Bool} {tree : Ast} {rest : List Ast}
      {visits : List Visit} {name : String} (hname : parseImport tree = .ok name)
      (hne : name ≠ "") (hblocked : name ∈ chain ∨ openImport files name paths = none)
      (hrest : Traverses chain top rest visits) :
      Traverses chain top (tree :: rest) (⟨chain, name, top⟩ :: visits)
  | enters {chain : List String} {top : Bool} {tree : Ast} {rest parsed : List Ast}
      {inner visits : List Visit} {name path : String} {text : List Char}
      (hname : parseImport tree = .ok name) (hne : name ≠ "") (hnew : name ∉ chain)
      (hopen : openImport files name paths = some (path, text))
      (hparse : parse u path text = .ok parsed)
      (hinner : Traverses (chain ++ [name]) true parsed inner)
      (hrest : Traverses chain top rest visits) :
      Traverses chain top (tree :: rest) (⟨chain, name, top⟩ :: (inner ++ visits))

/-- The error of the first visit with a fault. -/
def firstFault (visits : List Visit) : Option DslError :=
  visits.findSome? fun visit => (visit.fault files paths).map visit.error

/-! ## The result of the traversal -/

variable {u files paths}

/-- The result that the visits lead to. -/
def Decides (files : Files) (paths : List String) (visits : List Visit)
    (result : Outcome DslError (List Ast)) : Prop :=
  match firstFault files paths visits with
  | none => ∃ resolved, result = .ok resolved
  | some err => result = .error err

section Steps

variable {imported : List String} {resolve : List String → List Ast → Outcome DslError (List Ast)}
  {top : Bool} {tree : Ast} {rest : List Ast} {name : String}

theorem resolveTrees_other (hname : parseImport tree = .ok "") :
    resolveTrees u files paths imported resolve top (tree :: rest) =
      (resolveTrees u files paths imported resolve false rest).bind
        fun more => .ok (tree :: more) := by
  rw [resolveTrees, hname]
  rfl

theorem resolveTrees_fault (hname : parseImport tree = .ok name) (hne : name ≠ "") {fault : Fault}
    (hfault : Visit.fault files paths ⟨imported, name, top⟩ = some fault) :
    resolveTrees u files paths imported resolve top (tree :: rest) =
      .error (Visit.error ⟨imported, name, top⟩ fault) := by
  rw [resolveTrees, hname]
  change (if name = "" then _ else _) = _
  rw [if_neg hne]
  unfold Visit.fault at hfault
  dsimp only at hfault
  split_ifs at hfault with htop hcycle hmissing
  · cases hfault
    rw [if_pos htop]
    rfl
  · cases hfault
    rw [if_neg htop, if_pos hcycle]
    rfl
  · cases hfault
    rw [if_neg htop, if_neg hcycle, hmissing]
    rfl

theorem resolveTrees_enters (hname : parseImport tree = .ok name) (hne : name ≠ "")
    (htop : top = true) (hnew : name ∉ imported) {path : String} {text : List Char}
    (hopen : openImport files name paths = some (path, text)) {parsed : List Ast}
    (hparse : parse u path text = .ok parsed) :
    resolveTrees u files paths imported resolve top (tree :: rest) =
      (resolve (imported ++ [name]) parsed).bind fun body =>
        (resolveTrees u files paths imported resolve top rest).bind
          fun more => .ok (.moduleNode name body :: more) := by
  have htop : ¬top = false := by simp [htop]
  rw [resolveTrees, hname]
  change (if name = "" then _ else _) = _
  rw [if_neg hne, if_neg htop, if_neg hnew, hopen]
  dsimp only
  rw [hparse]
  rfl

end Steps

theorem firstFault_cons_of_fault {visit : Visit} {fault : Fault}
    (hfault : visit.fault files paths = some fault) (visits : List Visit) :
    firstFault files paths (visit :: visits) = some (visit.error fault) := by
  simp [firstFault, hfault]

theorem firstFault_cons_of_none {visit : Visit} (hfault : visit.fault files paths = none)
    (visits : List Visit) :
    firstFault files paths (visit :: visits) = firstFault files paths visits := by
  simp [firstFault, hfault]

theorem firstFault_append (front back : List Visit) :
    firstFault files paths (front ++ back) =
      (firstFault files paths front).or (firstFault files paths back) := by
  simp [firstFault]

theorem Decides.bind_ok {visits : List Visit} {result : Outcome DslError (List Ast)}
    (hdecides : Decides files paths visits result) (f : List Ast → List Ast) :
    Decides files paths visits (result.bind fun trees => .ok (f trees)) := by
  unfold Decides at hdecides ⊢
  split at hdecides
  · rcases hdecides with ⟨resolved, rfl⟩
    exact ⟨f resolved, rfl⟩
  · rw [hdecides]
    rfl

theorem Decides.bind {front back : List Visit} {result : Outcome DslError (List Ast)}
    (hfront : Decides files paths front result)
    {f : List Ast → Outcome DslError (List Ast)}
    (hback : ∀ trees, Decides files paths back (f trees)) :
    Decides files paths (front ++ back) (result.bind f) := by
  unfold Decides at hfront
  split at hfront
  next hnone =>
    rcases hfront with ⟨resolved, rfl⟩
    have hrest := hback resolved
    unfold Decides at hrest ⊢
    rw [firstFault_append, hnone, Option.none_or]
    exact hrest
  next err hsome =>
    rw [hfront, Decides, firstFault_append, hsome]
    rfl

/-- With enough fuel the resolver returns what the traversal decides. -/
theorem Traverses.resolves {chain : List String} {top : Bool} {trees : List Ast}
    {visits : List Visit} (htraverses : Traverses u files paths chain top trees visits) :
    ∃ bound result, Decides files paths visits result ∧ ∀ fuel, bound ≤ fuel →
      resolveTrees u files paths chain (resolveImportsRec u files paths fuel) top trees =
        result := by
  induction htraverses with
  | nil => exact ⟨0, .ok [], ⟨[], rfl⟩, fun _ _ => rfl⟩
  | @other chain top tree rest visits hname _ ih =>
      rcases ih with ⟨bound, result, hdecides, hresolve⟩
      refine ⟨bound, _, hdecides.bind_ok (tree :: ·), fun fuel hfuel => ?_⟩
      rw [resolveTrees_other hname, hresolve fuel hfuel]
  | @blocked chain top tree rest visits name hname hne hblocked _ _ =>
      have hfault : ∃ fault, Visit.fault files paths ⟨chain, name, top⟩ = some fault := by
        unfold Visit.fault
        split_ifs with htop hcycle hmissing
        · exact ⟨_, rfl⟩
        · exact ⟨_, rfl⟩
        · exact ⟨_, rfl⟩
        · exact absurd (hblocked.resolve_left hcycle) hmissing
      rcases hfault with ⟨fault, hfault⟩
      refine ⟨0, _, ?_, fun _ _ => resolveTrees_fault hname hne hfault⟩
      rw [Decides, firstFault_cons_of_fault hfault]
  | @enters chain top tree rest parsed inner visits name path text hname hne hnew hopen hparse _ _
      ihinner ihrest =>
      cases top with
      | false =>
          have hfault : Visit.fault files paths ⟨chain, name, false⟩ = some .late := if_pos rfl
          refine ⟨0, _, ?_, fun _ _ => resolveTrees_fault hname hne hfault⟩
          rw [Decides, firstFault_cons_of_fault hfault]
      | true =>
          have hfault : Visit.fault files paths ⟨chain, name, true⟩ = none := by
            simp [Visit.fault, hnew, hopen]
          rcases ihinner with ⟨innerBound, body, hbody, hresolveBody⟩
          rcases ihrest with ⟨restBound, more, hmore, hresolveMore⟩
          refine ⟨max (innerBound + 1) restBound, body.bind fun body =>
            more.bind fun more => .ok (.moduleNode name body :: more), ?_, ?_⟩
          · rw [Decides, firstFault_cons_of_none hfault]
            exact hbody.bind fun body => hmore.bind_ok _
          · intro fuel hfuel
            cases fuel with
            | zero => omega
            | succ fuel =>
                have hinner : resolveImportsRec u files paths (fuel + 1) (chain ++ [name])
                    parsed = body := hresolveBody fuel (by omega)
                rw [resolveTrees_enters hname hne rfl hnew hopen hparse, hinner,
                  hresolveMore (fuel + 1) (by omega)]

/-! ## Finite file systems -/

def beginsWithStr : List Ast → Bool
  | .str _ :: _ => true
  | _ => false

/-- An import form has a string as its argument. -/
def namesImport : Ast → Bool
  | .sexp (.ident head :: args) _ => head ≠ "import" || beginsWithStr args
  | _ => true

theorem exists_parseImport {tree : Ast} (htree : namesImport tree = true) :
    ∃ name, parseImport tree = .ok name := by
  unfold parseImport
  split
  next head args pos =>
    split
    next hhead =>
      cases args with
      | nil => simp [namesImport, hhead, beginsWithStr] at htree
      | cons first more =>
          split
          · contradiction
          · exact ⟨_, rfl⟩
          · exact ⟨_, rfl⟩
    · exact ⟨_, rfl⟩
  · exact ⟨_, rfl⟩

theorem exists_path_of_openImport {name : String} {found : String × List Char}
    (hopen : openImport files name paths = some found) :
    files found.1 = some found.2 ∧ ∃ path ∈ paths, found.1 = path ++ "/" ++ name ++ ".spec" := by
  induction paths with
  | nil => cases hopen
  | cons path rest ih =>
      unfold openImport at hopen
      dsimp only at hopen
      split at hopen
      next text hfile =>
        cases hopen
        exact ⟨hfile, path, List.mem_cons_self, rfl⟩
      next =>
        rcases ih hopen with ⟨hfile, other, hmem, hfound⟩
        exact ⟨hfile, other, List.mem_cons_of_mem path hmem, hfound⟩

/-- Finitely many files make finitely many names that can be imported. -/
theorem finite_openImport (hfinite : {path | files path ≠ none}.Finite) (paths : List String) :
    {name | openImport files name paths ≠ none}.Finite := by
  have hcover : {name | openImport files name paths ≠ none} ⊆
      ⋃ path ∈ {path | path ∈ paths},
        Set.preimage (fun name => path ++ "/" ++ name ++ ".spec") {path | files path ≠ none} := by
    intro name hname
    rcases Option.ne_none_iff_exists'.mp hname with ⟨found, hfound⟩
    rcases exists_path_of_openImport hfound with ⟨hfile, path, hmem, hpath⟩
    simp only [Set.mem_iUnion, Set.mem_preimage, Set.mem_ofPred_eq]
    refine ⟨path, hmem, ?_⟩
    rw [← hpath, hfile]
    simp
  refine Set.Finite.subset (Set.Finite.biUnion paths.finite_toSet fun path _ => ?_) hcover
  apply hfinite.preimage
  intro a _ b _ hequal
  have hlists := congrArg String.toList hequal
  simp only [String.toList_append, List.append_cancel_right_eq,
    List.append_cancel_left_eq] at hlists
  exact String.toList_inj.mp hlists

theorem exists_traverses (hfinite : {path | files path ≠ none}.Finite)
    (hfiles : ∀ path text, files path = some text →
      ∃ parsed, parse u path text = .ok parsed ∧ ∀ tree ∈ parsed, namesImport tree = true)
    (chain : List String) :
    ∀ (top : Bool) (trees : List Ast), (∀ tree ∈ trees, namesImport tree = true) →
      ∃ visits, Traverses u files paths chain top trees visits := by
  induction chain using chain_induction (finite_openImport hfinite paths) with
  | _ chain ih =>
      intro top trees htrees
      induction trees generalizing top with
      | nil => exact ⟨[], .nil⟩
      | cons tree rest ihrest =>
          rw [List.forall_mem_cons] at htrees
          rcases exists_parseImport htrees.1 with ⟨name, hname⟩
          by_cases hempty : name = ""
          · subst hempty
            rcases ihrest false htrees.2 with ⟨visits, hvisits⟩
            exact ⟨visits, .other hname hvisits⟩
          · rcases ihrest top htrees.2 with ⟨visits, hvisits⟩
            by_cases hblocked : name ∈ chain ∨ openImport files name paths = none
            · exact ⟨_, .blocked hname hempty hblocked hvisits⟩
            · rw [not_or] at hblocked
              rcases Option.ne_none_iff_exists'.mp hblocked.2 with ⟨⟨path, text⟩, hopen⟩
              rcases hfiles path text (exists_path_of_openImport hopen).1 with
                ⟨parsed, hparse, hnames⟩
              rcases ih name hblocked.2 hblocked.1 true parsed hnames with ⟨inner, hinner⟩
              exact ⟨_, .enters hname hempty hblocked.1 hopen hparse hinner hvisits⟩

/-! ## Modules that import modules -/

variable (u files paths) in
/-- The trees of the module with a name. -/
def IsModule (name : String) (trees : List Ast) : Prop :=
  ∃ path text, openImport files name paths = some (path, text) ∧ parse u path text = .ok trees

def ImportsName (trees : List Ast) (name : String) : Prop :=
  ∃ tree ∈ trees, parseImport tree = .ok name ∧ name ≠ ""

variable (u files paths) in
/-- The module of one name imports that of another. -/
def Imports (a b : String) : Prop := ∃ trees, IsModule u files paths a trees ∧ ImportsName trees b

variable (u files paths) in
/-- The modules that a program reaches. -/
inductive Reached (program : List Ast) : String → Prop
  | direct {a : String} (himport : ImportsName program a) : Reached program a
  | through {a b : String} (hreached : Reached program a) (himports : Imports u files paths a b) :
      Reached program b

variable (u files paths) in
def Succeeds (chain : List String) (trees : List Ast) : Prop :=
  ∃ fuel resolved, resolveImportsRec u files paths fuel chain trees = .ok resolved

theorem resolveTrees_ok_import {imported : List String}
    {resolve : List String → List Ast → Outcome DslError (List Ast)} {top : Bool}
    {trees resolved : List Ast}
    (hok : resolveTrees u files paths imported resolve top trees = .ok resolved) {name : String}
    (himport : ImportsName trees name) :
    name ∉ imported ∧ ∃ parsed body, IsModule u files paths name parsed ∧
      resolve (imported ++ [name]) parsed = .ok body := by
  rcases himport with ⟨tree, hmem, hname, hne⟩
  induction trees generalizing resolved top with
  | nil => cases hmem
  | cons first rest ih =>
      unfold resolveTrees at hok
      rcases Outcome.bind_eq_ok.mp hok with ⟨firstName, hfirst, hok⟩
      split at hok
      next hempty =>
        rcases Outcome.bind_eq_ok.mp hok with ⟨more, hmore, _⟩
        rcases List.mem_cons.mp hmem with rfl | hmem
        · rw [hname] at hfirst
          cases hfirst
          exact absurd hempty hne
        · exact ih hmore hmem
      next =>
        split at hok
        · cases hok
        split at hok
        · cases hok
        next hnew =>
          split at hok
          · cases hok
          next path text hopen =>
            rcases Outcome.bind_eq_ok.mp hok with ⟨parsed, hparsed, hok⟩
            rcases Outcome.bind_eq_ok.mp hok with ⟨body, hbody, hok⟩
            rcases Outcome.bind_eq_ok.mp hok with ⟨more, hmore, _⟩
            rcases List.mem_cons.mp hmem with rfl | hmem
            · rw [hname] at hfirst
              cases hfirst
              exact ⟨hnew, parsed, body, ⟨path, text, hopen, liftParse_eq_ok.mp hparsed⟩, hbody⟩
            · exact ih hmore hmem

theorem Succeeds.enters {chain : List String} {trees : List Ast} {name : String}
    (hsucceeds : Succeeds u files paths chain trees) (himport : ImportsName trees name) :
    name ∉ chain ∧ ∃ parsed, IsModule u files paths name parsed ∧
      Succeeds u files paths (chain ++ [name]) parsed := by
  rcases hsucceeds with ⟨fuel, resolved, hok⟩
  cases fuel with
  | zero => cases hok
  | succ fuel =>
      rcases resolveTrees_ok_import hok himport with ⟨hnew, parsed, body, hmodule, hbody⟩
      exact ⟨hnew, parsed, hmodule, fuel, body, hbody⟩

theorem IsModule.unique {name : String} {trees other : List Ast}
    (htrees : IsModule u files paths name trees) (hother : IsModule u files paths name other) :
    trees = other := by
  rcases htrees with ⟨path, text, hopen, hparse⟩
  rcases hother with ⟨_, _, hopen', hparse'⟩
  rw [hopen] at hopen'
  cases hopen'
  rw [hparse] at hparse'
  cases hparse'
  rfl

theorem Reached.entered {program : List Ast} (hsucceeds : Succeeds u files paths [] program)
    {a : String} (hreached : Reached u files paths program a) :
    ∃ chain trees, a ∈ chain ∧ IsModule u files paths a trees ∧
      Succeeds u files paths chain trees := by
  induction hreached with
  | direct himport =>
      rcases hsucceeds.enters himport with ⟨_, trees, hmodule, hinner⟩
      exact ⟨_, trees, by simp, hmodule, hinner⟩
  | through _ himports ih =>
      rcases ih with ⟨chain, trees, _, hmodule, hchain⟩
      rcases himports with ⟨other, hother, himport⟩
      rw [← hmodule.unique hother] at himport
      rcases hchain.enters himport with ⟨_, parsed, hparsed, hinner⟩
      exact ⟨_, parsed, by simp, hparsed, hinner⟩

theorem Succeeds.follows {chain : List String} {trees : List Ast} {a b : String}
    (hsucceeds : Succeeds u files paths chain trees) (hmodule : IsModule u files paths a trees)
    (hpath : TransGen (Imports u files paths) a b) :
    b ∉ chain ∧ ∃ longer parsed, chain ⊆ longer ∧ IsModule u files paths b parsed ∧
      Succeeds u files paths longer parsed := by
  induction hpath with
  | single himports =>
      rcases himports with ⟨other, hother, himport⟩
      rw [← hmodule.unique hother] at himport
      rcases hsucceeds.enters himport with ⟨hnew, parsed, hparsed, hinner⟩
      exact ⟨hnew, _, parsed, by simp, hparsed, hinner⟩
  | tail _ himports ih =>
      rcases ih with ⟨_, longer, parsed, hlonger, hparsed, hinner⟩
      rcases himports with ⟨other, hother, himport⟩
      rw [← hparsed.unique hother] at himport
      rcases hinner.enters himport with ⟨hnew, next, hnext, hdeeper⟩
      refine ⟨fun hmem => hnew (hlonger hmem), _, next, ?_, hnext, hdeeper⟩
      exact fun name hmem => List.mem_append_left _ (hlonger hmem)

/-- If the imports can be resolved, no module imports itself through others. -/
theorem Succeeds.acyclic {program : List Ast} (hsucceeds : Succeeds u files paths [] program)
    {a : String} (hreached : Reached u files paths program a) :
    ¬TransGen (Imports u files paths) a a := by
  intro hcycle
  rcases hreached.entered hsucceeds with ⟨chain, trees, hmem, hmodule, hchain⟩
  exact (hchain.follows hmodule hcycle).1 hmem

/-! ## What is left of the imports -/

/-- The statements of a program or of one of its modules, at any depth. -/
inductive Within : List Ast → List Ast → Prop
  | here {trees : List Ast} : Within trees trees
  | inside {trees body inner : List Ast} {name : String} (hmem : .moduleNode name body ∈ trees)
      (hinner : Within body inner) : Within trees inner

theorem Within.statements {trees inner : List Ast} (hwithin : Within trees inner)
    (htrees : ∀ tree ∈ trees, Statement u tree) : ∀ tree ∈ inner, Statement u tree := by
  induction hwithin with
  | here => exact htrees
  | inside hmem _ ih =>
      apply ih
      cases htrees _ hmem with
      | tree hread => cases hread
      | imported _ hbody => exact hbody

theorem Statement.not_import {tree : Ast} (hstatement : Statement u tree) {name : String}
    (hne : name ≠ "") {args : List Ast} {pos : Position} :
    tree ≠ .sexp (.ident "import" :: .str name :: args) pos := by
  rintro rfl
  cases hstatement with
  | tree _ himport =>
      cases himport
      exact hne rfl

/-! ## The resolver -/

/-- The imports of a whole program. -/
def resolveImports (u : Unicode) (files : Files) (paths : List String) (fuel : ℕ)
    (trees : List Ast) : Outcome DslError (List Ast) :=
  resolveImportsRec u files paths fuel [] trees

/-- In a finite file system of files that parse, resolving the imports of a program ends.
If it succeeds, no import is left at any depth and no module imports itself through others.
If the first fault of the traversal is a name that is on the chain, the result is the error
that names this chain. -/
theorem resolveImports_ends (paths : List String) {filename : String} {text : List Char}
    {trees : List Ast}
    (hprogram : parse u filename text = .ok trees)
    (htrees : ∀ tree ∈ trees, namesImport tree = true)
    (hfinite : {path | files path ≠ none}.Finite)
    (hfiles : ∀ path text, files path = some text →
      ∃ parsed, parse u path text = .ok parsed ∧ ∀ tree ∈ parsed, namesImport tree = true) :
    ∃ result bound, (∀ fuel, bound ≤ fuel → resolveImports u files paths fuel trees = result) ∧
      result ≠ .timeout ∧ result ≠ .panic ∧
      (∀ resolved, result = .ok resolved →
        (∀ inner, Within resolved inner → ∀ name args pos, name ≠ "" →
          .sexp (.ident "import" :: .str name :: args) pos ∉ inner) ∧
        ∀ a, Reached u files paths trees a → ¬TransGen (Imports u files paths) a a) ∧
      (∃ visits, Traverses u files paths [] true trees visits) ∧
      ∀ before visit after, Traverses u files paths [] true trees (before ++ visit :: after) →
        (∀ other ∈ before, other.fault files paths = none) →
        visit.fault files paths = some .cycle →
        result = .error (.plain ("import cycle: [" ++
          " ".intercalate (visit.chain ++ [visit.name]) ++ "]")) := by
  have htraverses : ∃ visits, Traverses u files paths [] true trees visits :=
    exists_traverses hfinite hfiles [] true trees htrees
  rcases htraverses with ⟨visits, hvisits⟩
  rcases hvisits.resolves with ⟨bound, result, hdecides, hresolve⟩
  have hresult : ∀ fuel, bound + 1 ≤ fuel → resolveImports u files paths fuel trees = result := by
    intro fuel hfuel
    cases fuel with
    | zero => omega
    | succ fuel => exact hresolve fuel (by omega)
  have hdecided : (∃ resolved, result = .ok resolved) ∨ ∃ err, result = .error err := by
    unfold Decides at hdecides
    split at hdecides
    · exact .inl hdecides
    next err _ => exact .inr ⟨err, hdecides⟩
  refine ⟨result, bound + 1, hresult, ?_, ?_, ?_, ⟨visits, hvisits⟩, ?_⟩
  · rintro rfl
    rcases hdecided with ⟨_, ⟨⟩⟩ | ⟨_, ⟨⟩⟩
  · rintro rfl
    rcases hdecided with ⟨_, ⟨⟩⟩ | ⟨_, ⟨⟩⟩
  · rintro resolved rfl
    have hok := hresult (bound + 1) le_rfl
    constructor
    · intro inner hwithin name args pos hne hmem
      have hstatements := statements_resolveImportsRec (bound + 1) [] trees resolved
        (read_parse hprogram) hok
      exact (hwithin.statements hstatements _ hmem).not_import hne rfl
    · intro a hreached
      exact Succeeds.acyclic ⟨bound + 1, resolved, hok⟩ hreached
  · intro before visit after hmet hbefore hcycle
    rcases hmet.resolves with ⟨otherBound, other, hother, hresolveOther⟩
    have hsame : other = result := by
      rw [← hresolve (max bound otherBound) (le_max_left _ _),
        ← hresolveOther (max bound otherBound) (le_max_right _ _)]
    have hfirst : firstFault files paths (before ++ visit :: after) =
        some (visit.error .cycle) := by
      have hnone : firstFault files paths before = none := by
        rw [firstFault, List.findSome?_eq_none_iff]
        intro other hmem
        rw [hbefore other hmem]
        rfl
      rw [firstFault_append, hnone, Option.none_or, firstFault_cons_of_fault hcycle]
    rw [hsame, Decides, hfirst] at hother
    exact hother

end Imports

def diamondText : List Char := "(import \"a\") (import \"b\")".toList

def diamondFiles : Files := fun path =>
  if path = "lib/a.spec" ∨ path = "lib/b.spec" then some "(import \"c\")".toList
  else if path = "lib/c.spec" then some "(define x 1)".toList
  else none

theorem parses_of_check {u : Unicode} {path : String} {text : List Char}
    (hcheck : (parse u path text).toOption.any (fun trees => trees.all namesImport) = true) :
    ∃ parsed, parse u path text = .ok parsed ∧ ∀ tree ∈ parsed, namesImport tree = true := by
  cases hparse : parse u path text with
  | error err =>
      rw [hparse] at hcheck
      cases hcheck
  | ok parsed =>
      rw [hparse] at hcheck
      exact ⟨parsed, rfl, List.all_eq_true.mp hcheck⟩

theorem resolveImports_ends_diamond :
    ∃ trees result bound, parse .ascii "spec" diamondText = .ok trees ∧
      (∀ fuel, bound ≤ fuel →
        resolveImports .ascii diamondFiles ["lib"] fuel trees = result) ∧
      result ≠ .timeout ∧ result ≠ .panic := by
  have hprogram : ∃ trees, parse .ascii "spec" diamondText = .ok trees ∧
      ∀ tree ∈ trees, namesImport tree = true := parses_of_check (by decide)
  rcases hprogram with ⟨trees, hparse, htrees⟩
  have hfinite : {path | diamondFiles path ≠ none}.Finite := by
    apply Set.Finite.subset (List.finite_toSet ["lib/a.spec", "lib/b.spec", "lib/c.spec"])
    intro path hpath
    by_contra hother
    simp only [Set.mem_ofPred_eq, List.mem_cons, List.not_mem_nil, or_false, not_or] at hother
    apply hpath
    simp [diamondFiles, hother]
  have hfiles : ∀ path text, diamondFiles path = some text →
      ∃ parsed, parse .ascii path text = .ok parsed ∧
        ∀ tree ∈ parsed, namesImport tree = true := by
    intro path text hfile
    unfold diamondFiles at hfile
    split_ifs at hfile with hfirst hsecond
    · cases hfile
      rcases hfirst with rfl | rfl <;> exact parses_of_check (by decide)
    · cases hfile
      rw [hsecond]
      exact parses_of_check (by decide)
  rcases resolveImports_ends ["lib"] hparse htrees hfinite hfiles with
    ⟨result, bound, hresult, htimeout, hpanic, _⟩
  exact ⟨trees, result, bound, hparse, hresult, htimeout, hpanic⟩

end Lang
end Di
