import Di.DslAst
import Di.GoStrings
import Mathlib.Data.String.Basic

/-!
# The text of syntax trees

The `String` methods of the trees.  A program is sent from the controller to
the minions as the text of its trees; error messages contain the texts of the
offending values, for which the objects that a value points to are looked up in
the store.
-/

namespace Di
namespace Lang

def quoted (text : String) : String := "\"" ++ text ++ "\""

def parenthesized (texts : List String) : String := "(" ++ " ".intercalate texts ++ ")"

def natChars (n : ℕ) : List Char := if n = 0 then ['0'] else GoFloat.digitChars n

theorem isDigit_of_mem_natChars {n : ℕ} {c : Char} (hmem : c ∈ natChars n) :
    c.isDigit = true := by
  have hdigit : ∀ d < 10, (GoFloat.digitChar d).isDigit = true := by decide
  unfold natChars at hmem
  split at hmem
  · rw [List.mem_singleton.mp hmem]
    rfl
  · rcases List.mem_map.mp hmem with ⟨d, hd, rfl⟩
    exact hdigit d (Nat.digits_lt_base (by norm_num) (List.mem_reverse.mp hd))

def intText (x : ℤ) : String :=
  String.ofList (if x < 0 then '-' :: natChars x.natAbs else natChars x.natAbs)

def floatText (x : GoFloat) : String := String.ofList x.formatG

def AstRange.text (range : AstRange) : String :=
  parenthesized (range.ident :: floatText range.min ::
    if range.max = .zero then [] else [floatText range.max])

def Key.text : Key → String
  | .github username => parenthesized ["githubKey", quoted username]
  | .plaintext key => parenthesized ["plaintextKey", quoted key]

def AstMachine.text (machine : AstMachine) : String :=
  parenthesized ("machine" ::
    ((if machine.provider = "" then []
      else [parenthesized ["provider", quoted machine.provider]]) ++
    (if machine.region = "" then [] else [parenthesized ["region", quoted machine.region]]) ++
    (if machine.size = "" then [] else [parenthesized ["size", quoted machine.size]]) ++
    (if machine.diskSize = 0 then [] else [parenthesized ["diskSize", intText machine.diskSize]]) ++
    (if machine.ram.ident = "" then [] else [machine.ram.text]) ++
    (if machine.cpu.ident = "" then [] else [machine.cpu.text]) ++
    (if machine.role = "" then [] else [parenthesized ["role", quoted machine.role]]) ++
    machine.sshKeys.map Key.text))

/-- `astHmap.String` of an environment: the pairs sorted as texts. -/
def envText (env : Finmap fun _ : String => String) : String :=
  parenthesized ("hmap" ::
    (env.keys.val.map fun k =>
      parenthesized [quoted k, quoted ((env.lookup k).getD "")]).sort (· ≤ ·))

/-- Without a command the environment is not printed. -/
def AstContainer.text (container : AstContainer) : String :=
  parenthesized ("docker" :: quoted container.image ::
    if container.command = [] then []
    else container.command.map quoted ++
      if container.env = ∅ then [] else [envText container.env])

def Store.atomText (store : Store) : Atom → String
  | .machine i => (store.machines[i]?.map AstMachine.text).getD ""
  | .container i => (store.containers[i]?.map AstContainer.text).getD ""

def AstLabel.text (store : Store) (label : AstLabel) : String :=
  "(label " ++ quoted label.ident ++ " " ++
    " ".intercalate (label.elems.map store.atomText) ++ ")"

def Scalar.text (store : Store) : Scalar → String
  | .atom ref => store.atomText ref
  | .ident name => name
  | .str text => quoted text
  | .float x => floatText x
  | .int x => intText x
  | .bool b => if b then "true" else "false"
  | .key sshKey => sshKey.text
  | .size text => parenthesized ["size", quoted text]
  | .provider text => parenthesized ["provider", quoted text]
  | .role text => parenthesized ["role", quoted text]
  | .region text => parenthesized ["region", quoted text]
  | .diskSize x => parenthesized ["diskSize", intText x]
  | .range r => r.text

mutual

def Ast.text (store : Store) : Ast → String
  | .list _ elems => parenthesized ("list" :: Ast.texts store elems)
  | .hmap entries => parenthesized ("hmap" :: sortStrings (Ast.entryTexts store entries))
  | .sexp elems _ => parenthesized (Ast.texts store elems)
  -- the body is a plain slice, which prints in square brackets
  | .lambda argNames body _ =>
      "(lambda " ++ parenthesized argNames ++ " [" ++
        " ".intercalate (Ast.texts store body) ++ "])"
  | .moduleNode name body =>
      "(module " ++ quoted name ++ " " ++ "\n".intercalate (Ast.texts store body) ++ ")"
  | .label l => l.text store
  | .scalar value => value.text store

def Ast.texts (store : Store) : List Ast → List String
  | [] => []
  | elem :: rest => elem.text store :: Ast.texts store rest

def Ast.entryTexts (store : Store) : List (Scalar × Ast) → List String
  | [] => []
  | (k, value) :: rest =>
      parenthesized [k.text store, value.text store] :: Ast.entryTexts store rest

end

/-- A slice of trees in a message. -/
def slicedText (store : Store) (elems : List Ast) : String :=
  "[" ++ " ".intercalate (Ast.texts store elems) ++ "]"

/-- `astRoot.String`. -/
def programText (program : List Ast) : String :=
  "\n".intercalate (Ast.texts Store.empty program)

theorem Ast.texts_eq_map (store : Store) (elems : List Ast) :
    Ast.texts store elems = elems.map (Ast.text store) := by
  induction elems with
  | nil => rfl
  | cons elem rest ih => rw [Ast.texts, ih, List.map_cons]

end Lang
end Di
