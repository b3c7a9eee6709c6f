import Di.OvsdbClient

/-!
# A store of tables

A server in the sense of RFC 7047 that keeps tables of rows.  A column holds a set or a map, a row
has an identifier.  The operations of a transaction are carried out one after the other; an
identifier that a row gets in a transaction can be referred to by a name there.  When a
transaction ends the references have to be sound, rows of tables that are no root and to which
nothing refers are collected, and the indexes have to be unique.  Otherwise nothing has
happened.

`transact_of_run` says what a transaction does to a store in terms of what the operations do one
by one, `Committed.commit` and `commit_of_sweep` what is left to do at its end.
-/

namespace Di
namespace Ovsdb

open Procedure (Returns)

def Datum.atoms : Datum → List Atom
  | .set atoms => atoms
  | .map _ => []

structure Row (κ : Type) where
  uuid : String
  columns : κ → Datum

abbrev Store (τ κ : Type) := τ → List (Row κ)

/-! ## The end of a transaction -/

structure Schema (τ κ : Type) where
  root : τ → Bool
  /-- A column of a table and the table that it refers to. -/
  references : List (τ × κ × τ)
  indexes : List (τ × κ)
  initial : τ → κ → Datum
  /-- No chain of references is longer. -/
  depth : ℕ

section Commit

variable {τ κ : Type} [DecidableEq τ] (schema : Schema τ κ)

def refers (store : Store τ κ) (table : τ) (uuid : String) : Bool :=
  schema.references.any fun reference =>
    reference.2.2 = table && (store reference.1).any fun row =>
      .uuid uuid ∈ (row.columns reference.2.1).atoms

def sweep (store : Store τ κ) : Store τ κ := fun table =>
  if schema.root table then store table
  else (store table).filter fun row => refers schema store table row.uuid

def collect (store : Store τ κ) : Store τ κ := (sweep schema)^[schema.depth] store

def Intact (store : Store τ κ) : Prop :=
  ∀ reference ∈ schema.references, ∀ row ∈ store reference.1,
    ∀ atom ∈ (row.columns reference.2.1).atoms, ∃ target ∈ store reference.2.2,
      atom = .uuid target.uuid

def Unique (store : Store τ κ) : Prop :=
  ∀ index ∈ schema.indexes, ((store index.1).map fun row => row.columns index.2).Nodup

instance (store : Store τ κ) : Decidable (Intact schema store) :=
  inferInstanceAs (Decidable (∀ reference ∈ schema.references, ∀ row ∈ store reference.1,
    ∀ atom ∈ (row.columns reference.2.1).atoms, ∃ target ∈ store reference.2.2,
      atom = .uuid target.uuid))

instance (store : Store τ κ) : Decidable (Unique schema store) :=
  inferInstanceAs (Decidable (∀ index ∈ schema.indexes,
    ((store index.1).map fun row => row.columns index.2).Nodup))

def commit (store : Store τ κ) : Except String (Store τ κ) :=
  if ¬Intact schema store then .error "referential integrity violation"
  else if ¬Unique schema (collect schema store) then .error "constraint violation"
  else .ok (collect schema store)

variable {schema}

theorem collect_eq_self {store : Store τ κ} (hsweep : sweep schema store = store) :
    collect schema store = store := by
  rw [collect, Function.iterate_fixed hsweep]

/-- A store in which there is nothing to collect. -/
theorem sweep_eq_self_iff {store : Store τ κ} :
    sweep schema store = store ↔
      ∀ table, schema.root table = false → ∀ row ∈ store table,
        refers schema store table row.uuid = true := by
  constructor
  · intro hsweep table hroot row hrow
    rw [← hsweep, sweep, if_neg (by simp [hroot]), List.mem_filter] at hrow
    exact hrow.2
  · intro hrefers
    funext table
    unfold sweep
    split
    next => rfl
    next hroot =>
      rw [List.filter_eq_self]
      exact hrefers table (by simpa using hroot)

theorem refers_iff {store : Store τ κ} {table : τ} {uuid : String} :
    refers schema store table uuid = true ↔
      ∃ reference ∈ schema.references, reference.2.2 = table ∧
        ∃ row ∈ store reference.1, Atom.uuid uuid ∈ (row.columns reference.2.1).atoms := by
  simp [refers]

/-- A store as transactions leave it. -/
structure Committed (schema : Schema τ κ) (store : Store τ κ) : Prop where
  swept : sweep schema store = store
  intact : Intact schema store
  unique : Unique schema store

theorem commit_of_sweep {store store' : Store τ κ} (hdepth : 0 < schema.depth)
    (hintact : Intact schema store) (hsweep : sweep schema store = store')
    (hcommitted : Committed schema store') : commit schema store = .ok store' := by
  have hcollect : collect schema store = store' := by
    obtain ⟨depth, hdepth⟩ := Nat.exists_eq_succ_of_ne_zero hdepth.ne'
    rw [collect, hdepth, Function.iterate_succ_apply, hsweep,
      Function.iterate_fixed hcommitted.swept]
  rw [commit, if_neg (by simp [hintact]), hcollect, if_neg (by simp [hcommitted.unique])]

theorem Committed.commit {store : Store τ κ} (hcommitted : Committed schema store) :
    commit schema store = .ok store := by
  rw [Ovsdb.commit, if_neg (by simp [hcommitted.intact]), collect_eq_self hcommitted.swept,
    if_neg (by simp [hcommitted.unique])]

theorem committed_empty (schema : Schema τ κ) : Committed schema fun _ => [] where
  swept := sweep_eq_self_iff.mpr fun _ _ _ hrow => absurd hrow List.not_mem_nil
  intact := fun _ _ _ hrow => absurd hrow List.not_mem_nil
  unique := fun _ _ => List.nodup_nil

end Commit

/-! ## Operations -/

section Semantics

variable {τ κ : Type} [DecidableEq τ] [DecidableEq κ]

abbrev Names := String → Option String

def Atom.resolve (names : Names) : Atom → Atom
  | .named name => (names name).elim (.named name) .uuid
  | atom => atom

def Datum.resolve (names : Names) : Datum → Datum
  | .set atoms => .set (atoms.map (Atom.resolve names))
  | .map entries => .map (entries.map fun entry => (entry.1.resolve names, entry.2.resolve names))

def Row.column (row : Row κ) : Option κ → Datum
  | none => .set [.uuid row.uuid]
  | some column => row.columns column

def Condition.holds (names : Names) (cond : Condition κ) (row : Row κ) : Bool :=
  match cond.test with
  | .equal => row.column cond.column = .set [cond.value.resolve names]
  | .unequal => row.column cond.column ≠ .set [cond.value.resolve names]

def selects (names : Names) (conds : List (Condition κ)) (row : Row κ) : Bool :=
  conds.all fun cond => cond.holds names row

/-- An entry is added to a map only if its key is not there already. -/
def Mutator.apply : Mutator → Datum → Datum → Datum
  | .insert, .set old, .set new => .set (old ++ new.filter (· ∉ old))
  | .delete, .set old, .set gone => .set (old.filter (· ∉ gone))
  | .insert, .map old, .map new =>
      .map (old ++ new.filter fun entry => entry.1 ∉ old.map Prod.fst)
  -- the columns have the types of the schema
  | _, old, _ => old

def Mutation.apply (names : Names) (row : Row κ) (mutation : Mutation κ) : Row κ :=
  let old := row.columns mutation.column
  ⟨row.uuid, Function.update row.columns mutation.column
    (mutation.mutator.apply old (mutation.value.resolve names))⟩

def assign (names : Names) (columns : κ → Datum) (row : List (κ × Datum)) : κ → Datum :=
  row.foldl (fun columns entry => Function.update columns entry.1 (entry.2.resolve names)) columns

variable (schema : Schema τ κ)

/-- The store and the identifiers that are still to be given out. -/
structure Contents (τ κ : Type) where
  store : Store τ κ
  supply : List String

def Wire.row (wire : Wire) (row : Row κ) : JsonRow κ :=
  ⟨.ofAtom (.uuid row.uuid), fun column => wire.datum (row.columns column)⟩

variable (wire : Wire)

def Operation.perform (names : Names) (contents : Contents τ κ) :
    Operation τ κ → Result κ × Contents τ κ
  | .select table conds =>
      ({ rows := ((contents.store table).filter (selects names conds)).map wire.row }, contents)
  | .insert table row _ =>
      match contents.supply with
      | [] => ({ error := "resources exhausted" }, contents)
      | uuid :: supply =>
          let added : Row κ := ⟨uuid, assign names (schema.initial table) row⟩
          ({}, ⟨Function.update contents.store table (contents.store table ++ [added]), supply⟩)
  | .update table conds row =>
      ({ count := (contents.store table).countP (selects names conds) },
        { contents with store := Function.update contents.store table <|
            (contents.store table).map fun old =>
              if selects names conds old then ⟨old.uuid, assign names old.columns row⟩ else old })
  | .mutate table conds mutations =>
      ({ count := (contents.store table).countP (selects names conds) },
        { contents with store := Function.update contents.store table <|
            (contents.store table).map fun old =>
              if selects names conds old then mutations.foldl (Mutation.apply names) old else old })
  | .delete table conds =>
      ({ count := (contents.store table).countP (selects names conds) },
        { contents with store := Function.update contents.store table <|
            (contents.store table).filter fun row => !selects names conds row })

def run (names : Names) :
    List (Operation τ κ) → Contents τ κ → List (Result κ) × Contents τ κ
  | [], contents => ([], contents)
  | op :: ops, contents =>
      let performed := op.perform schema wire names contents
      let rest := run names ops performed.2
      (performed.1 :: rest.1, rest.2)

/-- The names of the rows that are inserted. -/
def bindings : List (Operation τ κ) → List String → List (String × String)
  | [], _ => []
  | .insert _ _ name :: ops, uuid :: supply => (name, uuid) :: bindings ops supply
  | .insert _ _ _ :: ops, [] => bindings ops []
  | _ :: ops, supply => bindings ops supply

def names (ops : List (Operation τ κ)) (supply : List String) : Names :=
  fun name => (bindings ops supply).lookup name

def transact (ops : List (Operation τ κ)) (contents : Contents τ κ) :
    List (Result κ) × Contents τ κ :=
  let done := run schema wire (names ops contents.supply) ops contents
  if done.1.all fun result => result.error = "" then
    match commit schema done.2.store with
    | .error err => (done.1 ++ [{ error := err }], { done.2 with store := contents.store })
    | .ok store => (done.1, { done.2 with store := store })
  else (done.1, { done.2 with store := contents.store })

def Schema.server : Server τ κ (Contents τ κ) where
  connect := fun contents => (.ok (), contents)
  transact := fun ops contents =>
    (.ok (transact schema wire ops contents).1, (transact schema wire ops contents).2)

/-! ## What a transaction does -/

variable {schema wire}

@[simp] theorem run_nil (names : Names) (contents : Contents τ κ) :
    run schema wire names [] contents = ([], contents) := rfl

@[simp] theorem run_cons (names : Names) (op : Operation τ κ) (ops : List (Operation τ κ))
    (contents : Contents τ κ) :
    run schema wire names (op :: ops) contents =
      ((op.perform schema wire names contents).1 ::
          (run schema wire names ops (op.perform schema wire names contents).2).1,
        (run schema wire names ops (op.perform schema wire names contents).2).2) := rfl

theorem transact_of_run {contents : Contents τ κ} {ops : List (Operation τ κ)}
    {results : List (Result κ)} {after store : Store τ κ} {supply : List String}
    (hrun : run schema wire (names ops contents.supply) ops contents = (results, ⟨after, supply⟩))
    (hresults : ∀ result ∈ results, result.error = "")
    (hcommit : commit schema after = .ok store) :
    transact schema wire ops contents = (results, ⟨store, supply⟩) := by
  have hall : (results.all fun result => result.error = "") = true := by simpa using hresults
  simp only [transact, hrun, hall, if_true, hcommit]

theorem request_eq {contents after : Contents τ κ} {ops : List (Operation τ κ)}
    {results : List (Result κ)} (htransact : transact schema wire ops contents = (results, after)) :
    (schema.server wire).request ops contents = ⟨.ok results, after, []⟩ := by
  simp only [Server.request, Schema.server, htransact]
  rfl

/-- Rows that are selected are shown. -/
theorem shows_of_filter {P : Contents τ κ → Prop} {table : τ} {conds : List (Condition κ)}
    {γ : Type} {list : List γ} {shown : γ → JsonRow κ → Prop}
    (hfilter : ∀ contents, P contents → Committed schema contents.store ∧ ∃ toRow : γ → Row κ,
      (contents.store table).filter (selects (fun _ => none) conds) = list.map toRow ∧
        ∀ c, shown c (wire.row (toRow c))) :
    (schema.server wire).Shows P table conds shown list := by
  intro contents hP
  obtain ⟨hcommitted, toRow, hrows, hshown⟩ := hfilter contents hP
  have htransact : transact schema wire [.select table conds] contents =
      ([{ rows := (list.map toRow).map wire.row }], contents) :=
    transact_of_run (by rw [← hrows]; rfl) (by simp) hcommitted.commit
  refine ⟨_, contents, [], request_eq htransact, _, rfl, ?_, hP⟩
  rw [List.map_map, List.forall₂_map_right_iff, List.forall₂_same]
  exact fun c _ => hshown c

end Semantics

theorem insert_uuid {ids : List String} {uuid : String} (hnew : uuid ∉ ids) :
    Mutator.insert.apply (.set (ids.map .uuid)) (.set [.uuid uuid]) =
      .set ((ids ++ [uuid]).map .uuid) := by
  have hatom : ∀ id ∈ ids, id ≠ uuid := fun id hid heq => hnew (heq ▸ hid)
  simpa [Mutator.apply] using hatom

theorem delete_uuid (ids : List String) (uuid : String) :
    Mutator.delete.apply (.set (ids.map .uuid)) (.set [.uuid uuid]) =
      .set ((ids.filter (· ≠ uuid)).map .uuid) := by
  simp [Mutator.apply, List.filter_map, Function.comp_def]

section Conditions

variable {τ κ : Type} (names : Names)

@[simp] theorem selects_uuidIs {uuid : String} (hvalid : validUUID uuid = true) :
    selects (κ := κ) names [uuidIs uuid] = fun row => decide (row.uuid = uuid) := by
  funext row
  simp [selects, uuidIs, Condition.holds, marshalUUID, hvalid, Row.column, Atom.resolve]

@[simp] theorem selects_textIs (column : κ) (text : String) :
    selects names [textIs column text] =
      fun row => decide (row.columns column = .set [.text text]) := by
  funext row
  have hholds : (textIs column text).holds names row =
      decide (row.columns column = .set [.text text]) := rfl
  simp [selects, hholds]

/-- The row with an identifier. -/
theorem filter_uuid {α : Type*} {toRow : α → Row κ} {list : List α}
    (hnodup : (list.map fun a => (toRow a).uuid).Nodup) {a : α} (ha : a ∈ list)
    (hvalid : validUUID (toRow a).uuid = true) :
    (list.map toRow).filter (selects names [uuidIs (toRow a).uuid]) = [a].map toRow := by
  have hfilter := filter_key_eq_singleton hnodup ha
  simp only [selects_uuidIs _ hvalid, List.filter_map, Function.comp_def, hfilter]

theorem countP_uuid {α : Type*} {toRow : α → Row κ} {list : List α}
    (hnodup : (list.map fun a => (toRow a).uuid).Nodup) {a : α} (ha : a ∈ list) :
    (list.map toRow).countP (fun row => row.uuid = (toRow a).uuid) = 1 := by
  rw [List.countP_map, List.countP_eq_length_filter]
  exact congrArg List.length (filter_key_eq_singleton hnodup ha)

section Text

variable {α : Type*} {toRow : α → Row κ} {key : α → String} {column : κ}
  (hcolumn : ∀ a, (toRow a).columns column = .set [.text (key a)])
include hcolumn

/-- The rows with a text. -/
theorem filter_text (names : Names) (list : List α) (text : String) :
    (list.map toRow).filter (selects names [textIs column text]) =
      (list.filter fun a => key a = text).map toRow := by
  simp [List.filter_map, Function.comp_def, hcolumn]

theorem countP_text {list : List α} (hnodup : (list.map key).Nodup) {a : α} (ha : a ∈ list) :
    ((list.map toRow).countP fun row => row.columns column = .set [.text (key a)]) = 1 := by
  have hlength := congrArg List.length (filter_key_eq_singleton hnodup ha)
  rw [List.countP_map, List.countP_eq_length_filter]
  simpa [Function.comp_def, hcolumn] using hlength

variable (key) in
/-- The rows with a text are changed. -/
theorem map_text {list : List α} {text : String} {f : Row κ → Row κ} {toRow' : α → Row κ}
    (hsame : ∀ a ∈ list, key a ≠ text → toRow a = toRow' a)
    (hchange : ∀ a ∈ list, key a = text → f (toRow a) = toRow' a) :
    ((list.map toRow).map fun old =>
      if old.columns column = .set [.text text] then f old else old) = list.map toRow' := by
  rw [List.map_map]
  apply List.map_congr_left
  intro a ha
  rw [Function.comp_apply, hcolumn]
  by_cases htext : key a = text
  · rw [if_pos (by rw [htext]), hchange a ha htext]
  · rw [if_neg (by simpa using htext), hsame a ha htext]

end Text

end Conditions

/-! ## Rows that belong to another -/

section Attach

variable {τ κ : Type} [DecidableEq τ] [DecidableEq κ] {schema : Schema τ κ} (wire : Wire)

omit [DecidableEq τ] [DecidableEq κ] in
@[simp] theorem names_insert (table : τ) (row : List (κ × Datum)) (name : String)
    (ops : List (Operation τ κ)) (uuid : String) (supply : List String) :
    names (.insert table row name :: ops) (uuid :: supply) =
      fun other => if other = name then some uuid else names ops supply other := by
  funext other
  by_cases heq : other = name
  · simp [names, bindings, heq]
  · rw [names, bindings, List.lookup_cons, beq_eq_false_iff_ne.mpr heq, if_neg heq]
    rfl

omit [DecidableEq τ] [DecidableEq κ] in
@[simp] theorem names_mutate (table : τ) (conds : List (Condition κ))
    (mutations : List (Mutation κ)) (supply : List String) :
    names [.mutate table conds mutations] supply = fun _ => none := rfl

/-- A table is replaced, and the reference to a row of it is changed in the rows of another table
that have a text in a column. -/
def relinked (store : Store τ κ) (child : τ) (rows : List (Row κ)) (parent : τ) (key : κ)
    (text : String) (column : κ) (mutator : Mutator) (uuid : String) : Store τ κ :=
  Function.update (Function.update store child rows) parent <|
    (store parent).map fun old =>
      if old.columns key = .set [.text text] then
        ⟨old.uuid, Function.update old.columns column
          (mutator.apply (old.columns column) (.set [.uuid uuid]))⟩
      else old

variable {child parent : τ} (hne : parent ≠ child) (key : κ) (text : String) (column : κ)
  {store store' : Store τ κ} (supply : List String)
include hne

theorem transact_attach {row : List (κ × Datum)} {added : Row κ} {name : String}
    (hname : validUUID name = false)
    (hadded : ∀ names, ⟨added.uuid, assign names (schema.initial child) row⟩ = added)
    (hrows : store child ++ [added] = store' child)
    (hstore : relinked store child (store' child) parent key text column .insert added.uuid =
      store')
    (hcommitted : Committed schema store') :
    transact schema wire [.insert child row name,
        .mutate parent [textIs key text] [mutateUUID column .insert name]]
        ⟨store, added.uuid :: supply⟩ =
      ([{}, { count := (store parent).countP fun old => old.columns key = .set [.text text] }],
        ⟨store', supply⟩) := by
  refine transact_of_run ?_ (by simp) hcommitted.commit
  rw [← hrows] at hstore
  subst hstore
  simp [Operation.perform, relinked, mutateUUID, marshalUUID, hname, Mutation.apply,
    Datum.resolve, Atom.resolve, Function.update_of_ne hne, hadded]

theorem transact_detach {uuid : String} (hvalid : validUUID uuid = true)
    (hrows : ((store child).filter fun row => row.uuid ≠ uuid) = store' child)
    (hstore : relinked store child (store' child) parent key text column .delete uuid = store')
    (hcommitted : Committed schema store') :
    transact schema wire [.delete child [uuidIs uuid],
        .mutate parent [textIs key text] [mutateUUID column .delete uuid]] ⟨store, supply⟩ =
      ([{ count := (store child).countP fun row => row.uuid = uuid },
          { count := (store parent).countP fun old => old.columns key = .set [.text text] }],
        ⟨store', supply⟩) := by
  refine transact_of_run ?_ (by simp) hcommitted.commit
  rw [← hrows] at hstore
  subst hstore
  simp [Operation.perform, relinked, mutateUUID, marshalUUID, hvalid, Mutation.apply,
    Datum.resolve, Atom.resolve, Function.update_of_ne hne]

end Attach

namespace Members

variable {α : Type} (members : Members α)

theorem insert_refs (uuid : String) (a : α) (hvalid : validUUID uuid = true)
    (hnew : uuid ∉ members.ids) :
    Mutator.insert.apply members.refs (.set [.uuid uuid]) =
      (members.add uuid a hvalid hnew).refs := by
  rw [refs, insert_uuid hnew, refs, ids_add]

theorem delete_refs (uuid : String) :
    Mutator.delete.apply members.refs (.set [.uuid uuid]) = (members.delete uuid).refs := by
  rw [refs, delete_uuid, refs, ids, ids, List.filter_map]
  rfl

theorem ids_delete {uuid id : String} (hid : id ∈ (members.delete uuid).ids) : id ∈ members.ids :=
  (List.filter_sublist.map Prod.fst).mem hid

theorem mem_refs {member : String × α} (hmember : member ∈ members.list) :
    Atom.uuid member.1 ∈ members.refs.atoms :=
  List.mem_map_of_mem (List.mem_map_of_mem hmember)

theorem exists_of_mem_refs {atom : Atom} (hatom : atom ∈ members.refs.atoms) :
    ∃ member ∈ members.list, atom = .uuid member.1 := by
  obtain ⟨uuid, huuid, rfl⟩ := List.mem_map.mp hatom
  obtain ⟨member, hmember, rfl⟩ := List.mem_map.mp huuid
  exact ⟨member, hmember, rfl⟩

end Members

/-- The mutation that adds an entry, which does not replace one that is there. -/
theorem Entries.insert_datum (key value : String) (entries : Entries) :
    Mutator.insert.apply entries.datum (.map [(.text key, .text value)]) =
      (entries.insert key value).datum := by
  have hkeys : Atom.text key ∈
      (entries.list.map fun entry => (Atom.text entry.1, Atom.text entry.2)).map Prod.fst ↔
        key ∈ entries.list.map Prod.fst := by
    simp
  unfold Entries.insert Entries.datum
  by_cases hkey : key ∈ entries.list.map Prod.fst
  · rw [dif_pos hkey, Mutator.apply, List.filter_cons_of_neg (by simpa using hkeys.mpr hkey)]
    simp
  · rw [dif_neg hkey, Mutator.apply, List.filter_cons_of_pos (by simpa using mt hkeys.mp hkey)]
    simp

/-! ## Identifiers -/

/-- The identifiers that are given out next are well formed and new. -/
structure Supplies (supply ids : List String) : Prop where
  nodup : supply.Nodup
  valid : ∀ uuid ∈ supply, validUUID uuid = true
  new : ∀ uuid ∈ supply, uuid ∉ ids

theorem Supplies.tail {uuid : String} {supply ids ids' : List String}
    (hsupplies : Supplies (uuid :: supply) ids) (hids : ∀ id ∈ ids', id = uuid ∨ id ∈ ids) :
    Supplies supply ids' := by
  obtain ⟨hnodup, hvalid, hnew⟩ := hsupplies
  rw [List.nodup_cons] at hnodup
  rw [List.forall_mem_cons] at hvalid hnew
  refine ⟨hnodup.2, hvalid.2, ?_⟩
  intro other hother hmem
  rcases hids other hmem with rfl | hold
  · exact hnodup.1 hother
  · exact hnew.2 other hother hold

theorem Supplies.mono {supply ids ids' : List String} (hsupplies : Supplies supply ids)
    (hids : ∀ id ∈ ids', id ∈ ids) : Supplies supply ids' :=
  ⟨hsupplies.nodup, hsupplies.valid, fun uuid hmem hid => hsupplies.new uuid hmem (hids uuid hid)⟩

end Ovsdb
end Di
