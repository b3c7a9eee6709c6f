import Di.DslAst

/-!
# Querying an evaluated specification

A `Dsl` is the printed program together with the root context it was evaluated
in.  The query functions are all that the controller and the minions see of a
specification.
-/

namespace Di
namespace Lang

/-- `Range`: the acceptable values of a machine attribute. -/
structure Range where
  min : GoFloat
  max : GoFloat
  deriving DecidableEq

def Range.accepts (range : Range) (x : GoFloat) : Bool :=
  range.min.le x && (range.max == .zero || x.le range.max)

structure Machine where
  provider : String
  role : String
  size : String
  cpu : Range
  ram : Range
  diskSize : ℤ
  region : String
  sshKeys : List String
  deriving DecidableEq

structure Container where
  image : String
  command : List String
  env : Finmap (fun _ : String => String)
  exclusive : Finset (String × String)
  labels : List String
  deriving DecidableEq

structure Dsl where
  code : String
  binds : Binds
  store : Store

/-- `getGithubKeys`: the keys of a user, or an error. -/
abbrev GithubKeys := String → Option (List String)

def Key.keys (github : GithubKeys) : Key → Option (List String)
  | .github username => github username
  | .plaintext key => some [key]

/-- `parseKeys`: keys that cannot be retrieved are skipped. -/
def parseKeys (github : GithubKeys) (rawKeys : List Key) : List String :=
  rawKeys.flatMap fun key => (key.keys github).getD []

def convertAstMachine (github : GithubKeys) (machine : AstMachine) : Machine where
  provider := machine.provider
  role := machine.role
  size := machine.size
  cpu := ⟨machine.cpu.min, machine.cpu.max⟩
  ram := ⟨machine.ram.min, machine.ram.max⟩
  diskSize := machine.diskSize
  region := machine.region
  sshKeys := parseKeys github machine.sshKeys

namespace Dsl

def queryMachines (dsl : Dsl) (github : GithubKeys) : List Machine :=
  dsl.store.machines.map (convertAstMachine github)

def queryContainers (dsl : Dsl) : List Container :=
  dsl.store.containers.map fun container =>
    { image := container.image
      command := container.command
      env := container.env
      exclusive := container.exclusive
      labels := container.labels }

/-- The connections in the order of their insertion; the program returns them
in the order of a map traversal. -/
def queryConnections (dsl : Dsl) : List Connection := dsl.store.connections.elems

/-- `QueryString`: the empty string if the name is unbound or not a string. -/
def queryString (dsl : Dsl) (name : String) : String :=
  match dsl.binds.lookup name with
  | some (.str text) => text
  | _ => ""

/-- `QueryFloat` with its error ignored. -/
def queryFloat (dsl : Dsl) (name : String) : GoFloat :=
  match dsl.binds.lookup name with
  | some (.float x) => x
  | _ => .zero

def strings : List Ast → Option (List String)
  | [] => some []
  | .str text :: rest => (strings rest).map (text :: ·)
  | _ => none

/-- `QueryStrSlice`: nothing unless the name is bound to a list of strings. -/
def queryStrSlice (dsl : Dsl) (name : String) : List String :=
  match dsl.binds.lookup name with
  | some (.list _ elems) => (strings elems).getD []
  | _ => []

end Dsl
end Lang
end Di
