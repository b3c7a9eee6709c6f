import Di.GoFloat
import Mathlib.Data.Finmap

/-!
# Syntax trees, values and the global store of the policy language

The language evaluates syntax trees to syntax trees, so one type serves for
both, as in the source.  Machines and containers are shared mutable objects:
a tree holds an index into the global store, which keeps them in the order of
their creation.  Everything a specification can produce is in that store: the
labels, the connections, the machines and the containers.
-/

namespace Di
namespace Lang

/-- `scanner.Position`. -/
structure Position where
  filename : String := ""
  offset : ℕ := 0
  line : ℕ := 0
  column : ℕ := 0
  deriving DecidableEq, Repr

/-- A pointer to a machine or to a container. -/
inductive Atom
  | machine (index : ℕ)
  | container (index : ℕ)
  deriving DecidableEq, Repr

/-- An SSH key. -/
inductive Key
  | github (username : String)
  | plaintext (key : String)
  deriving DecidableEq, Repr

structure AstRange where
  ident : String := ""
  min : GoFloat := .zero
  max : GoFloat := .zero
  deriving DecidableEq

structure AstLabel where
  ident : String
  elems : List Atom
  deriving DecidableEq, Repr

/-- The kinds of value that Go can compare with `==`, and so the possible keys of a hash map.
All other kinds hold a slice or a map. -/
inductive Scalar
  | atom (atom : Atom)
  | ident (name : String)
  | str (text : String)
  | float (x : GoFloat)
  | int (x : ℤ)
  | bool (b : Bool)
  | key (key : Key)
  | size (text : String)
  | provider (text : String)
  | role (text : String)
  | region (text : String)
  | diskSize (x : ℤ)
  | range (range : AstRange)
  deriving DecidableEq

/-- A syntax tree.  A list carries whether its slice is `nil`, which only the
empty list can be; the context of a lambda is the chain of its frames of
bindings, the innermost first. -/
inductive Ast
  | list (isNil : Bool) (elems : List Ast)
  | hmap (entries : List (Scalar × Ast))
  | sexp (elems : List Ast) (pos : Position)
  | lambda (argNames : List String) (body : List Ast)
      (ctx : List (List (String × Ast)))
  | moduleNode (name : String) (body : List Ast)
  | label (label : AstLabel)
  | scalar (value : Scalar)

namespace Ast

@[match_pattern] abbrev atom (atom : Atom) : Ast := .scalar (.atom atom)
@[match_pattern] abbrev ident (name : String) : Ast := .scalar (.ident name)
@[match_pattern] abbrev str (text : String) : Ast := .scalar (.str text)
@[match_pattern] abbrev float (x : GoFloat) : Ast := .scalar (.float x)
@[match_pattern] abbrev int (x : ℤ) : Ast := .scalar (.int x)
@[match_pattern] abbrev bool (b : Bool) : Ast := .scalar (.bool b)
@[match_pattern] abbrev key (key : Key) : Ast := .scalar (.key key)
@[match_pattern] abbrev size (text : String) : Ast := .scalar (.size text)
@[match_pattern] abbrev provider (text : String) : Ast := .scalar (.provider text)
@[match_pattern] abbrev role (text : String) : Ast := .scalar (.role text)
@[match_pattern] abbrev region (text : String) : Ast := .scalar (.region text)
@[match_pattern] abbrev diskSize (x : ℤ) : Ast := .scalar (.diskSize x)
@[match_pattern] abbrev range (range : AstRange) : Ast := .scalar (.range range)

end Ast

instance : Inhabited Ast := ⟨.list true []⟩

/-- The bindings of one context, `evalCtx.binds`. -/
abbrev Binds := List (String × Ast)

/-- A chain of contexts, the innermost first.  Every context but the root has
empty stores, so only the bindings are kept. -/
abbrev Ctx := List Binds

/-- Assignment to a key of a map that is kept as a list of its entries. -/
def assign {κ : Type} [DecidableEq κ] (entries : List (κ × Ast)) (k : κ) (value : Ast) :
    List (κ × Ast) :=
  if (entries.lookup k).isSome then
    entries.map fun entry => if entry.1 = k then (k, value) else entry
  else entries ++ [(k, value)]

structure AstMachine where
  provider : String := ""
  role : String := ""
  size : String := ""
  region : String := ""
  cpu : AstRange := {}
  ram : AstRange := {}
  diskSize : ℤ := 0
  sshKeys : List Key := []
  labels : List String := []
  deriving DecidableEq

/-- `astContainer`; command and environment hold strings only. -/
structure AstContainer where
  image : String
  command : List String
  env : Finmap (fun _ : String => String) := ∅
  exclusive : Finset (String × String) := ∅
  labels : List String := []
  deriving DecidableEq

structure Connection where
  fromLabel : String
  toLabel : String
  minPort : ℤ
  maxPort : ℤ
  deriving DecidableEq, Repr

/-- The keys of a `map[Connection]struct{}`, in the order of their insertion. -/
structure ConnectionSet where
  elems : List Connection
  nodup : elems.Nodup

namespace ConnectionSet

def empty : ConnectionSet := ⟨[], List.nodup_nil⟩

def insert (set : ConnectionSet) (connection : Connection) : ConnectionSet where
  elems := if connection ∈ set.elems then set.elems else set.elems ++ [connection]
  nodup := by
    split
    next => exact set.nodup
    next hnew =>
      rw [List.nodup_append]
      refine ⟨set.nodup, by simp, ?_⟩
      intro left hleft right hright heq
      rw [List.mem_singleton] at hright
      exact hnew (hright ▸ heq ▸ hleft)

@[simp] theorem mem_insert
    (set : ConnectionSet) (connection other : Connection) :
    other ∈ (set.insert connection).elems ↔
      other = connection ∨ other ∈ set.elems := by
  unfold insert
  by_cases hmem : connection ∈ set.elems
  · simp only [if_pos hmem]
    constructor
    · exact .inr
    · rintro (rfl | hother)
      · exact hmem
      · exact hother
  · simp [if_neg hmem, or_comm]

end ConnectionSet

/-- What a specification has declared so far: the maps and slices that the
root context shares with every other context. -/
structure Store where
  labels : Finmap (fun _ : String => AstLabel)
  connections : ConnectionSet
  machines : List AstMachine
  containers : List AstContainer

def Store.empty : Store := ⟨∅, .empty, [], []⟩

/-- The labels of the object an atom points to. -/
def Store.labelsOf (store : Store) : Atom → List String
  | .machine i => (store.machines[i]?.map AstMachine.labels).getD []
  | .container i => (store.containers[i]?.map AstContainer.labels).getD []

def publicInternetLabel : String := "public"

end Lang
end Di
