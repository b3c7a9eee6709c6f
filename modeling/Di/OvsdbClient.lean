import Di.KeyedTable
import Di.Procedure

/-!
# The client of OVSDB

A transaction is a list of operations on tables of rows, and its replies come as JSON in the
notation of RFC 7047: a set of one atom is written as the atom, other sets and maps as arrays with
a tag, and the order of their elements is the server's.  Type assertions that fail are crashes.
Identifiers are sent as such only if they look like one, other texts are sent as names.

The server is a parameter.  What the passes need of it is said where they are.
-/

namespace Di
namespace Ovsdb

open Procedure (Returns Leaves)

inductive Atom
  | text (value : String)
  | number (value : ℤ)
  | flag (value : Bool)
  | uuid (value : String)
  /-- The identifier that a row gets in the same transaction. -/
  | named (name : String)
  deriving DecidableEq, Repr

inductive Datum
  | set (atoms : List Atom)
  | map (entries : List (Atom × Atom))
  deriving DecidableEq, Repr

/-! ## Operations -/

inductive Test
  | equal
  | unequal
  deriving DecidableEq, Repr

/-- The columns are compared with one atom; `none` is the identifier of the row. -/
structure Condition (κ : Type) where
  column : Option κ
  test : Test
  value : Atom

inductive Mutator
  | insert
  | delete
  deriving DecidableEq, Repr

structure Mutation (κ : Type) where
  column : κ
  mutator : Mutator
  value : Datum

inductive Operation (τ κ : Type)
  | select (table : τ) (conds : List (Condition κ))
  | insert (table : τ) (row : List (κ × Datum)) (uuidName : String)
  | update (table : τ) (conds : List (Condition κ)) (row : List (κ × Datum))
  | mutate (table : τ) (conds : List (Condition κ)) (mutations : List (Mutation κ))
  | delete (table : τ) (conds : List (Condition κ))

/-! ## Notation -/

/-- What `encoding/json` makes of a reply. -/
inductive Json
  | str (value : String)
  | num (value : ℤ)
  | bool (value : Bool)
  | arr (items : List Json)

inductive Failure
  | exist (msg : String)
  | other (msg : String)
  deriving DecidableEq, Repr

def Json.ofAtom : Atom → Json
  | .text value => .str value
  | .number value => .num value
  | .flag value => .bool value
  | .uuid value => .arr [.str "uuid", .str value]
  | .named name => .arr [.str "named-uuid", .str name]

/-- The orders in which a server writes sets and maps. -/
structure Wire where
  atoms : IterOrder Atom
  entries : IterOrder (Atom × Atom)

namespace Wire

def asStored : Wire := ⟨.asStored Atom, .asStored (Atom × Atom)⟩

def datum (wire : Wire) : Datum → Json
  | .set atoms =>
      match wire.atoms.visit atoms with
      | [atom] => .ofAtom atom
      | visited => .arr [.str "set", .arr (visited.map .ofAtom)]
  | .map entries =>
      .arr [.str "map", .arr ((wire.entries.visit entries).map fun entry =>
        .arr [.ofAtom entry.1, .ofAtom entry.2])]

end Wire

/-- A row of a reply, which has all columns. -/
structure JsonRow (κ : Type) where
  uuid : Json
  columns : κ → Json

namespace Json

def isTag (tag : String) : Json → Bool
  | .str value => value = tag
  | _ => false

def asText : Json → Outcome Failure String
  | .str value => .ok value
  | _ => .panic

def asInt : Json → Outcome Failure ℤ
  | .num value => .ok value
  | _ => .panic

def asBool : Json → Outcome Failure Bool
  | .bool value => .ok value
  | _ => .panic

/-- `v.([]interface{})[1].(string)`. -/
def asUUID : Json → Outcome Failure String
  | .arr (_ :: value :: _) => value.asText
  | _ => .panic

end Json

def ovsUUIDSetToSlice : Json → Outcome Failure (List String)
  | .arr [] => .panic
  | .arr (tag :: rest) =>
      if tag.isTag "set" then
        match rest with
        | .arr items :: _ => Outcome.collect Json.asUUID items
        | _ => .panic
      else do
        let value ← (Json.arr (tag :: rest)).asUUID
        pure [value]
  | _ => .panic

def ovsStringSetToSlice : Json → Outcome Failure (List String)
  | .arr [] => .panic
  | .arr (tag :: rest) =>
      if tag.isTag "set" then
        match rest with
        | .arr items :: _ => Outcome.collect Json.asText items
        | _ => .panic
      else .panic
  | json => do
      let value ← json.asText
      pure [value]

/-- One pair of `ovsStringMapToMap`. -/
def pairOf : Json → Outcome Failure (String × String)
  | .arr (key :: rest) =>
      match key, rest with
      | .str key, .str value :: _ => .ok (key, value)
      | .str _, [] => .panic
      | .str _, _ => .error (.other "ovs map value must be string")
      | _, _ => .error (.other "ovs map key must be string")
  | .arr [] => .panic
  | _ => .error (.other "ovs map block must be a slice")

/-- The pairs in the order of the reply, of which the last one with a key counts. -/
def ovsStringMapToMap : Json → Outcome Failure (List (String × String))
  | .arr [] => .panic
  | .arr (tag :: rest) =>
      if tag.isTag "map" then
        match rest with
        | .arr items :: _ => Outcome.collect pairOf items
        | [] => .panic
        | _ => .error (.other "ovs map content invalid")
      else .error (.other "ovs map invalid identifier")
  | _ => .error (.other "ovs map outermost layer invalid")

section RoundTrip

variable (wire : Wire)

@[simp] theorem Wire.datum_singleton (atom : Atom) :
    wire.datum (.set [atom]) = .ofAtom atom := by
  rw [datum, List.perm_singleton.mp (wire.atoms.perm [atom])]

theorem Wire.datum_set {atoms : List Atom} (hatoms : ∀ atom, atoms ≠ [atom]) :
    wire.datum (.set atoms) =
      .arr [.str "set", .arr ((wire.atoms.visit atoms).map .ofAtom)] := by
  rw [datum]
  split
  next atom hvisit =>
    have hperm := wire.atoms.perm atoms
    rw [hvisit] at hperm
    exact absurd (List.singleton_perm.mp hperm).symm (hatoms atom)
  next => rfl

theorem exists_map_eq_of_perm {α β : Type*} {f : α → β} {values : List β} {list : List α}
    (hperm : values.Perm (list.map f)) :
    ∃ visited : List α, values = visited.map f ∧ visited.Perm list := by
  have hforall : List.Forall₂ (fun b a => b = f a) (list.map f) list := by
    rw [List.forall₂_map_left_iff, List.forall₂_same]
    exact fun _ _ => rfl
  obtain ⟨visited, hvisited, hlist⟩ := List.perm_comp_forall₂ hperm hforall
  refine ⟨visited, ?_, hlist⟩
  rwa [← List.forall₂_map_right_iff, List.forall₂_eq_eq_eq] at hvisited

theorem collect_map {α β γ : Type} {f : α → β} {g : β → Outcome Failure γ} {h : α → γ}
    {list : List α} (hg : ∀ a ∈ list, g (f a) = .ok (h a)) :
    Outcome.collect g (list.map f) = .ok (list.map h) := by
  induction list with
  | nil => rfl
  | cons a rest ih =>
      rw [List.forall_mem_cons] at hg
      exact Outcome.collect_cons_eq_ok.mpr ⟨h a, rest.map h, hg.1, ih hg.2, rfl⟩

/-- A set is read back, in the order of the server, if its atoms are. -/
theorem read_set {f : String → Atom} {item : Json → Outcome Failure String}
    (hitem : ∀ a, item (.ofAtom (f a)) = .ok a)
    {read : Json → Outcome Failure (List String)} (hone : ∀ a, read (.ofAtom (f a)) = .ok [a])
    (hmany : ∀ items, read (.arr [.str "set", .arr items]) = Outcome.collect item items)
    (values : List String) :
    ∃ visited, read (wire.datum (.set (values.map f))) = .ok visited ∧ visited.Perm values := by
  by_cases hsingle : ∃ atom, values.map f = [atom]
  · obtain ⟨atom, hatom⟩ := hsingle
    obtain ⟨value, rfl, rfl⟩ := List.map_eq_singleton_iff.mp hatom
    exact ⟨[value], by rw [List.map_singleton, wire.datum_singleton, hone], .rfl⟩
  · obtain ⟨visited, hvisit, hperm⟩ := exists_map_eq_of_perm (wire.atoms.perm (values.map f))
    refine ⟨visited, ?_, hperm⟩
    rw [wire.datum_set fun atom hatom => hsingle ⟨atom, hatom⟩, hvisit, List.map_map, hmany]
    have hcollect := collect_map (h := id) fun a (_ : a ∈ visited) => hitem a
    rwa [List.map_id] at hcollect

theorem ovsUUIDSetToSlice_datum (uuids : List String) :
    ∃ visited, ovsUUIDSetToSlice (wire.datum (.set (uuids.map .uuid))) = .ok visited ∧
      visited.Perm uuids :=
  read_set wire (fun _ => rfl) (fun _ => rfl) (fun _ => rfl) uuids

theorem ovsStringSetToSlice_datum (values : List String) :
    ∃ visited, ovsStringSetToSlice (wire.datum (.set (values.map .text))) = .ok visited ∧
      visited.Perm values :=
  read_set wire (fun _ => rfl) (fun _ => rfl) (fun _ => rfl) values

end RoundTrip

/-! ## Requests -/

def isHex (c : Char) : Bool := c.isDigit || ('a' ≤ c && c ≤ 'f')

/-- `validateUUID`. -/
def validUUID (uuid : String) : Bool :=
  let groups := uuid.toList.splitOn '-'
  groups.map List.length = [8, 4, 4, 4, 12] && groups.all fun group => group.all isHex

/-- `UUID.MarshalJSON`. -/
def marshalUUID (uuid : String) : Atom := if validUUID uuid then .uuid uuid else .named uuid

section Requests

variable {κ : Type}

/-- `newCondition` for the column `_uuid`. -/
def uuidIs (uuid : String) : Condition κ := ⟨none, .equal, marshalUUID uuid⟩

def textIs (column : κ) (text : String) : Condition κ := ⟨some column, .equal, .text text⟩

/-- `newMutation` for an identifier. -/
def mutateUUID (column : κ) (mutator : Mutator) (uuid : String) : Mutation κ :=
  ⟨column, mutator, .set [marshalUUID uuid]⟩

structure Result (κ : Type) where
  count : ℕ := 0
  error : String := ""
  details : String := ""
  rows : List (JsonRow κ) := []

def errorCheck (results : List (Result κ)) (expectedResponses expectedCount : ℕ) :
    Outcome Failure Unit :=
  if results.length < expectedResponses then
    .error (.other "mismatched responses and operations")
  else match results.zipIdx.find? (fun result => result.1.error ≠ "") with
    | some (result, i) =>
        .error (.other ("[" ++ toString i ++ "] " ++ result.error ++ ": " ++ result.details))
    | none =>
        if (results.map Result.count).sum ≠ expectedCount then
          .error (.other "unexpected number of rows altered")
        else .ok ()

end Requests

/-- A server whose state is that of its databases. -/
structure Server (τ κ σ : Type) where
  connect : σ → Except String Unit × σ
  transact : List (Operation τ κ) → σ → Except String (List (Result κ)) × σ

/-- Calls change the state of the server and record the failures that are only logged. -/
abbrev Call (σ α : Type) := Procedure σ Failure Failure α

def Failure.text : Failure → String
  | .exist msg => msg
  | .other msg => msg

/-- `fmt.Errorf` with an error at the end. -/
def Failure.under (msg : String) (err : Failure) : Failure := .other (msg ++ err.text)

section Client

variable {τ κ σ α : Type}

def lift (outcome : Outcome Failure α) : Call σ α := fun s => ⟨outcome, s, []⟩

def answer (reply : Except String α × σ) : Ran σ Failure Failure α :=
  match reply.1 with
  | .ok a => ⟨.ok a, reply.2, []⟩
  | .error err => ⟨.error (.other err), reply.2, []⟩

/-- A failure does not go further than this call. -/
def contained (record : Failure → List Failure) (call : Call σ Unit) : Call σ Unit := fun s =>
  match call s with
  | ⟨.error err, after, failures⟩ => ⟨.ok (), after, failures ++ record err⟩
  | ran => ran

def logged (call : Call σ Unit) : Call σ Unit := contained (fun err => [err]) call

def ignored (call : Call σ Unit) : Call σ Unit := contained (fun _ => []) call

namespace Server

variable (server : Server τ κ σ)

/-- `Open`. -/
def dial : Call σ Unit := fun s => answer (server.connect s)

def request (ops : List (Operation τ κ)) : Call σ (List (Result κ)) := fun s =>
  answer (server.transact ops s)

def selectRows (table : τ) (conds : List (Condition κ)) : Call σ (List (JsonRow κ)) := do
  let results ← server.request [.select table conds]
  match results with
  | [] => Procedure.crash
  | result :: _ => pure result.rows

/-- A transaction that is to alter a number of rows. -/
def change (msg : Failure → Failure) (ops : List (Operation τ κ))
    (expectedResponses expectedCount : ℕ) : Call σ Unit := do
  let results ← Procedure.mapError msg (server.request ops)
  lift (errorCheck results expectedResponses expectedCount)

/-- The rows that are selected show the values of a list, and the state keeps its property. -/
def Shows (P : σ → Prop) (table : τ) (conds : List (Condition κ)) {γ : Type}
    (shown : γ → JsonRow κ → Prop) (list : List γ) : Prop :=
  Returns P (server.request [.select table conds]) fun results s =>
    ∃ found, results = [{ rows := found }] ∧ List.Forall₂ shown list found ∧ P s

end Server

def transactionError (_ : Failure) : Failure := .other "transaction error"

section Rules

variable {P : σ → Prop} {Q : α → σ → Prop}

theorem returns_lift {outcome : Outcome Failure α} {a : α} (hok : outcome = .ok a)
    (hQ : ∀ s, P s → Q a s) : Returns P (lift outcome) Q := by
  subst hok
  exact .pure hQ

theorem returns_lift_bind {β : Type} {outcome : Outcome Failure α} {a : α} (hok : outcome = .ok a)
    {f : α → Call σ β} {R : β → σ → Prop} (hf : Returns P (f a) R) :
    Returns P (lift outcome >>= f) R := by
  subst hok
  exact (Procedure.pure_bind a f).symm ▸ hf

theorem returns_contained {record : Failure → List Failure} {call : Call σ Unit} {R : σ → Prop}
    (hcall : Leaves P call R) : Returns P (contained record call) fun _ => R := by
  intro s hs
  obtain ⟨hends, hR⟩ := hcall s hs
  rcases hran : call s with ⟨outcome, after, failures⟩
  rw [hran] at hends hR
  rcases hends with ⟨a, rfl⟩ | ⟨err, rfl⟩
  · exact ⟨a, after, failures, by rw [contained, hran], hR⟩
  · exact ⟨(), after, failures ++ record err, by rw [contained, hran], hR⟩

/-- A loop over calls whose failures are logged. -/
theorem returns_forEach {α β : Type} {call : α → Call σ Unit} {step : β → α → β}
    {p : List α → β → Prop} {R : List α → β → σ → Prop}
    (hstep : ∀ a rest b, p (a :: rest) b →
      p rest (step b a) ∧ Leaves (R (a :: rest) b) (call a) (R rest (step b a)))
    (list : List α) (b : β) (hp : p list b) :
    Returns (R list b) (Procedure.forEach (fun a => logged (call a)) list) fun _ =>
      R [] (list.foldl step b) := by
  induction list generalizing b with
  | nil => exact .pure fun s hs => hs
  | cons a rest ih =>
      obtain ⟨hrest, hcall⟩ := hstep a rest b hp
      exact (returns_contained hcall).bind fun _ => ih (step b a) hrest

variable {server : Server τ κ σ}

theorem Server.Shows.selectRows {table : τ} {conds : List (Condition κ)} {γ : Type}
    {shown : γ → JsonRow κ → Prop} {list : List γ}
    (hshows : server.Shows P table conds shown list) :
    Returns P (server.selectRows table conds) fun found s =>
      List.Forall₂ shown list found ∧ P s := by
  refine Returns.bind hshows fun results => ?_
  rintro s ⟨found, rfl, hfound⟩
  exact ⟨found, s, [], rfl, hfound⟩

theorem Server.Shows.selectOne {table : τ} {conds : List (Condition κ)} {γ : Type}
    {shown : γ → JsonRow κ → Prop} {c : γ} (hshows : server.Shows P table conds shown [c]) :
    Returns P (server.selectRows table conds) fun found s =>
      (∃ row, found = [row] ∧ shown c row) ∧ P s := by
  refine hshows.selectRows.imp ?_
  rintro found s ⟨hfound, hs⟩
  obtain ⟨row, rest, hrow, hrest, rfl⟩ := List.forall₂_cons_left_iff.mp hfound
  rw [List.forall₂_nil_left_iff] at hrest
  exact ⟨⟨row, by rw [hrest], hrow⟩, hs⟩

theorem returns_change {msg : Failure → Failure} {ops : List (Operation τ κ)}
    {results : List (Result κ)} {responses count : ℕ} {R : σ → Prop}
    (hcheck : errorCheck results responses count = .ok ())
    (hrequest : Returns P (server.request ops) fun results' s => results' = results ∧ R s) :
    Returns P (server.change msg ops responses count) fun _ => R := by
  refine (hrequest.mapError msg).bind fun results' => ?_
  rintro s ⟨rfl, hs⟩
  exact returns_lift hcheck (fun _ h => h) s hs

end Rules

end Client

/-! ## Rows by their keys -/

/-- Of rows with distinct keys one is selected by its key. -/
theorem filter_key_eq_singleton {α γ : Type*} [DecidableEq γ] {key : α → γ} {list : List α} {a : α}
    (hnodup : (list.map key).Nodup) (hmem : a ∈ list) :
    list.filter (fun b => decide (key b = key a)) = [a] := by
  induction list with
  | nil => exact absurd hmem List.not_mem_nil
  | cons b rest ih =>
      rw [List.map_cons, List.nodup_cons] at hnodup
      rcases List.mem_cons.mp hmem with rfl | hmem
      · rw [List.filter_cons_of_pos (by simp), List.filter_eq_nil_iff.mpr]
        intro c hc hkey
        exact hnodup.1 (of_decide_eq_true hkey ▸ List.mem_map_of_mem hc)
      · have hne : key b ≠ key a := fun heq => hnodup.1 (heq ▸ List.mem_map_of_mem hmem)
        rw [List.filter_cons_of_neg (by simpa using hne), ih hnodup.2 hmem]

theorem filter_key_eq_nil {α γ : Type*} [DecidableEq γ] {key : α → γ} {list : List α} {c : γ}
    (hnew : c ∉ list.map key) : list.filter (fun b => decide (key b = c)) = [] := by
  rw [List.filter_eq_nil_iff]
  intro b hb heq
  exact hnew (List.mem_map.mpr ⟨b, hb, of_decide_eq_true heq⟩)

theorem nodup_map_concat {α β : Type*} {key : α → β} {list : List α} {a : α}
    (hnodup : (list.map key).Nodup) (hnew : key a ∉ list.map key) :
    ((list ++ [a]).map key).Nodup := by
  rw [List.map_append, List.nodup_append]
  refine ⟨hnodup, List.nodup_singleton _, ?_⟩
  rintro b hb c hc rfl
  exact hnew (List.mem_singleton.mp hc ▸ hb)

/-! ## Rows that belong to another -/

/-- The rows of a table that a column refers to. -/
structure Members (α : Type) where
  list : List (String × α)
  nodup : (list.map Prod.fst).Nodup
  valid : ∀ uuid ∈ list.map Prod.fst, validUUID uuid = true

namespace Members

variable {α : Type} (members : Members α)

def ids : List String := members.list.map Prod.fst

def refs : Datum := .set (members.ids.map .uuid)

def empty : Members α := ⟨[], List.nodup_nil, by simp⟩

def add (uuid : String) (a : α) (hvalid : validUUID uuid = true) (hnew : uuid ∉ members.ids) :
    Members α where
  list := members.list ++ [(uuid, a)]
  nodup := nodup_map_concat members.nodup hnew
  valid := by
    rw [List.map_append, List.forall_mem_append]
    exact ⟨members.valid, by simpa using hvalid⟩

def delete (uuid : String) : Members α where
  list := members.list.filter fun member => member.1 ≠ uuid
  nodup := (List.filter_sublist.map Prod.fst).nodup members.nodup
  valid := fun id hid => members.valid id ((List.filter_sublist.map Prod.fst).mem hid)

@[simp] theorem ids_add (uuid : String) (a : α) (hvalid : validUUID uuid = true)
    (hnew : uuid ∉ members.ids) : (members.add uuid a hvalid hnew).ids = members.ids ++ [uuid] :=
  List.map_append

/-- The references are read back, in the order of the server. -/
theorem ovsUUIDSetToSlice_refs (wire : Wire) :
    ∃ visited : List (String × α),
      ovsUUIDSetToSlice (wire.datum members.refs) = .ok (visited.map Prod.fst) ∧
        visited.Perm members.list := by
  obtain ⟨ids, hread, hperm⟩ := ovsUUIDSetToSlice_datum wire members.ids
  obtain ⟨visited, rfl, hvisited⟩ := exists_map_eq_of_perm hperm
  exact ⟨visited, hread, hvisited⟩

end Members

/-! ## Columns that map texts to texts -/

structure Entries where
  list : List (String × String)
  nodup : (list.map Prod.fst).Nodup

namespace Entries

def get (entries : Entries) (key : String) : Option String := entries.list.lookup key

def datum (entries : Entries) : Datum :=
  .map (entries.list.map fun entry => (.text entry.1, .text entry.2))

def empty : Entries := ⟨[], List.nodup_nil⟩

def insert (key value : String) (entries : Entries) : Entries :=
  if hkey : key ∈ entries.list.map Prod.fst then entries
  else ⟨entries.list ++ [(key, value)], nodup_map_concat entries.nodup hkey⟩

theorem lookup_eq_some_iff {list : List (String × String)} (hnodup : (list.map Prod.fst).Nodup)
    {key value : String} : list.lookup key = some value ↔ (key, value) ∈ list := by
  induction list with
  | nil => simp
  | cons entry rest ih =>
      obtain ⟨key', value'⟩ := entry
      rw [List.map_cons, List.nodup_cons] at hnodup
      by_cases heq : key = key'
      · subst heq
        have hrest : (key, value) ∉ rest := fun hmem =>
          hnodup.1 (List.mem_map.mpr ⟨(key, value), hmem, rfl⟩)
        simp [hrest, eq_comm]
      · rw [List.lookup_cons, beq_eq_false_iff_ne.mpr heq, List.mem_cons]
        simp [heq, ih hnodup.2]

theorem get_eq_some_iff (entries : Entries) {key value : String} :
    entries.get key = some value ↔ (key, value) ∈ entries.list :=
  lookup_eq_some_iff entries.nodup

/-- What is read by key does not depend on the order of the entries. -/
theorem lookup_of_perm (entries : Entries) {list : List (String × String)}
    (hperm : list.Perm entries.list) (key : String) : list.lookup key = entries.get key := by
  have hnodup : (list.map Prod.fst).Nodup := (hperm.map _).nodup_iff.mpr entries.nodup
  ext value
  rw [lookup_eq_some_iff hnodup, get_eq_some_iff, hperm.mem_iff]

theorem get_eq_none_iff (entries : Entries) {key : String} :
    entries.get key = none ↔ key ∉ entries.list.map Prod.fst := by
  rw [Option.eq_none_iff_forall_ne_some]
  simp [get_eq_some_iff]

theorem get_insert (key value : String) (entries : Entries) :
    (entries.insert key value).get key = some ((entries.get key).getD value) := by
  unfold insert
  by_cases hkey : key ∈ entries.list.map Prod.fst
  · rw [dif_pos hkey]
    obtain ⟨old, hold⟩ :=
      Option.ne_none_iff_exists'.mp (mt entries.get_eq_none_iff.mp (not_not.mpr hkey))
    rw [hold, Option.getD_some]
  · rw [dif_neg hkey, entries.get_eq_none_iff.mpr hkey, Option.getD_none, get_eq_some_iff]
    simp

theorem get_insert_of_ne {key key' : String} (hne : key' ≠ key) (value : String)
    (entries : Entries) : (entries.insert key value).get key' = entries.get key' := by
  unfold insert
  by_cases hkey : key ∈ entries.list.map Prod.fst
  · rw [dif_pos hkey]
  · ext value'
    rw [dif_neg hkey, get_eq_some_iff, get_eq_some_iff]
    simp [hne]

theorem ovsStringMapToMap_datum (wire : Wire) (entries : Entries) :
    ∃ visited, ovsStringMapToMap (wire.datum entries.datum) = .ok visited ∧
      visited.Perm entries.list := by
  obtain ⟨visited, hvisit, hperm⟩ := exists_map_eq_of_perm (wire.entries.perm
    (entries.list.map fun entry => (Atom.text entry.1, Atom.text entry.2)))
  refine ⟨visited, ?_, hperm⟩
  have hread : ∀ entry ∈ visited,
      pairOf (.arr [.ofAtom (.text entry.1), .ofAtom (.text entry.2)]) = .ok (id entry) :=
    fun _ _ => rfl
  have hcollect := collect_map hread
  rw [List.map_id] at hcollect
  rw [datum, Wire.datum, hvisit, List.map_map]
  exact hcollect

end Entries

end Ovsdb
end Di
