import Di.DslCalls

/-!
# What evaluation keeps true of the store

Labels, atoms and connections stay consistent, and the store only grows: a
label is never redefined, no atom gains a label that was defined before, and no
container loses a placement constraint.  Every label and atom that occurs in a
tree belongs to the store.  Values and code share one type of trees; a value
holds code only in the bodies of lambdas and in placement statements that have
been executed, and contexts and hash maps hold values only.  `evalDiscipline`
puts these facts together with the meaning of the recorded events; the evaluator
is shown to respect it elsewhere.
-/

namespace Di
namespace Lang

open Procedure

def Store.Has (store : Store) : Atom → Prop
  | .machine i => i < store.machines.length
  | .container i => i < store.containers.length

def Store.Defines (store : Store) (name : String) : Prop := (store.labels.lookup name).isSome

theorem Store.has_of_mem_labelsOf (store : Store) {a : Atom} {name : String}
    (hmem : name ∈ store.labelsOf a) : store.Has a := by
  cases a with
  | machine i =>
      by_contra hout
      have hnone : store.machines[i]? = none := List.getElem?_eq_none (not_lt.mp hout)
      simp [Store.labelsOf, hnone] at hmem
  | container i =>
      by_contra hout
      have hnone : store.containers[i]? = none := List.getElem?_eq_none (not_lt.mp hout)
      simp [Store.labelsOf, hnone] at hmem

structure Connection.Valid (store : Store) (c : Connection) : Prop where
  ports : 0 ≤ c.minPort ∧ c.minPort ≤ c.maxPort ∧ c.maxPort ≤ 65535
  source : c.fromLabel = publicInternetLabel ∨ store.Defines c.fromLabel
  target : c.toLabel = publicInternetLabel ∨ store.Defines c.toLabel
  oneEnd : ¬(c.fromLabel = publicInternetLabel ∧ c.toLabel = publicInternetLabel)
  onePort : c.fromLabel = publicInternetLabel ∨ c.toLabel = publicInternetLabel →
    c.minPort = c.maxPort

structure Store.Consistent (store : Store) : Prop where
  named : ∀ name l, store.labels.lookup name = some l →
    l.ident = name ∧ name ≠ publicInternetLabel
  members : ∀ name l, store.labels.lookup name = some l →
    ∀ a, a ∈ l.elems ↔ name ∈ store.labelsOf a
  defined : ∀ a, ∀ name ∈ store.labelsOf a, store.Defines name
  nodup : ∀ a, (store.labelsOf a).Nodup
  connections : ∀ c ∈ store.connections.elems, c.Valid store

structure Store.Le (store store' : Store) : Prop where
  labels : ∀ name l, store.labels.lookup name = some l → store'.labels.lookup name = some l
  has : ∀ a, store.Has a → store'.Has a
  settled : ∀ name, name = publicInternetLabel ∨ store.Defines name →
    ∀ a, name ∈ store'.labelsOf a → name ∈ store.labelsOf a
  exclusive : ∀ (i : ℕ) (c : AstContainer), store.containers[i]? = some c →
    ∃ c' : AstContainer, store'.containers[i]? = some c' ∧ c.exclusive ⊆ c'.exclusive

theorem Store.Le.refl (store : Store) : store.Le store where
  labels := fun _ _ h => h
  has := fun _ h => h
  settled := fun _ _ _ h => h
  exclusive := fun _ c h => ⟨c, h, subset_rfl⟩

theorem Store.Le.defines {store store' : Store} (hle : store.Le store') {name : String}
    (hdefined : store.Defines name) : store'.Defines name := by
  rcases Option.isSome_iff_exists.mp hdefined with ⟨l, hl⟩
  exact Option.isSome_iff_exists.mpr ⟨l, hle.labels name l hl⟩

theorem Store.Le.trans {store store' store'' : Store} (hle : store.Le store')
    (hle' : store'.Le store'') : store.Le store'' where
  labels := fun name l h => hle'.labels name l (hle.labels name l h)
  has := fun a h => hle'.has a (hle.has a h)
  settled := by
    intro name hname a hmem
    apply hle.settled name hname
    apply hle'.settled name _ a hmem
    exact hname.imp_right hle.defines
  exclusive := by
    intro i c hc
    rcases hle.exclusive i c hc with ⟨c', hc', hsub⟩
    rcases hle'.exclusive i c' hc' with ⟨c'', hc'', hsub'⟩
    exact ⟨c'', hc'', hsub.trans hsub'⟩

theorem Connection.Valid.mono {store store' : Store} (hle : store.Le store')
    {c : Connection} (hvalid : c.Valid store) : c.Valid store' where
  ports := hvalid.ports
  source := hvalid.source.imp_right hle.defines
  target := hvalid.target.imp_right hle.defines
  oneEnd := hvalid.oneEnd
  onePort := hvalid.onePort

theorem Store.consistent_empty : Store.empty.Consistent where
  named := by
    intro name l h
    rw [Store.empty, Finmap.lookup_empty] at h
    exact absurd h (by simp)
  members := by
    intro name l h
    rw [Store.empty, Finmap.lookup_empty] at h
    exact absurd h (by simp)
  defined := by
    intro a name hmem
    cases a <;> exact absurd hmem (by simp [Store.labelsOf, Store.empty])
  nodup := by
    intro a
    cases a <;> simp [Store.labelsOf, Store.empty]
  connections := by
    intro c hmem
    exact absurd hmem (by simp [Store.empty, ConnectionSet.empty])

/-! ## Writes that leave the labels alone -/

/-- The store after a write that touches neither the label map nor the labels of any object. -/
structure Store.SameLabels (store store' : Store) : Prop where
  labels : store'.labels = store.labels
  labelsOf : ∀ a, store'.labelsOf a = store.labelsOf a
  has : ∀ a, store.Has a → store'.Has a
  exclusive : ∀ (i : ℕ) (c : AstContainer), store.containers[i]? = some c →
    ∃ c' : AstContainer, store'.containers[i]? = some c' ∧ c.exclusive ⊆ c'.exclusive

theorem Store.SameLabels.le {store store' : Store} (hsame : store.SameLabels store') :
    store.Le store' where
  labels := fun _ _ h => hsame.labels ▸ h
  has := hsame.has
  settled := fun _ _ a h => hsame.labelsOf a ▸ h
  exclusive := hsame.exclusive

theorem Store.SameLabels.consistent {store store' : Store} (hsame : store.SameLabels store')
    (hconsistent : store.Consistent)
    (hconnections : ∀ c ∈ store'.connections.elems, c.Valid store) :
    store'.Consistent where
  named := by
    rw [hsame.labels]
    exact hconsistent.named
  members := by
    intro name l h a
    rw [hsame.labelsOf a]
    rw [hsame.labels] at h
    exact hconsistent.members name l h a
  defined := by
    intro a name hmem
    rw [hsame.labelsOf a] at hmem
    exact hsame.le.defines (hconsistent.defined a name hmem)
  nodup := by
    intro a
    rw [hsame.labelsOf a]
    exact hconsistent.nodup a
  connections := fun c hmem => (hconnections c hmem).mono hsame.le

section Write

variable {store : Store}

theorem Store.SameLabels.of_containers {containers : List AstContainer}
    (hlabels : ∀ i,
      (containers[i]?.map AstContainer.labels).getD [] = store.labelsOf (.container i))
    (hlength : store.containers.length ≤ containers.length)
    (hexclusive : ∀ (i : ℕ) (c : AstContainer), store.containers[i]? = some c →
      ∃ c' : AstContainer, containers[i]? = some c' ∧ c.exclusive ⊆ c'.exclusive) :
    store.SameLabels { store with containers := containers } where
  labels := rfl
  labelsOf
    | .machine _ => rfl
    | .container i => hlabels i
  has
    | .machine _, h => h
    | .container _, h => h.trans_le hlength
  exclusive := hexclusive

theorem Store.SameLabels.of_machines {machines : List AstMachine}
    (hlabels : ∀ i, (machines[i]?.map AstMachine.labels).getD [] = store.labelsOf (.machine i))
    (hlength : store.machines.length ≤ machines.length) :
    store.SameLabels { store with machines := machines } where
  labels := rfl
  labelsOf
    | .machine i => hlabels i
    | .container _ => rfl
  has
    | .machine _, h => h.trans_le hlength
    | .container _, h => h
  exclusive := fun _ c hc => ⟨c, hc, subset_rfl⟩

theorem labels_append {α : Type} {labels : α → List String} (objects : List α) {object : α}
    (hlabels : labels object = []) (i : ℕ) :
    ((objects ++ [object])[i]?.map labels).getD [] = (objects[i]?.map labels).getD [] := by
  rcases lt_or_ge i objects.length with hold | hnew
  · rw [List.getElem?_append_left hold]
  · rw [List.getElem?_append_right hnew, List.getElem?_eq_none hnew]
    rcases i - objects.length with _ | n <;> simp [hlabels]

theorem Store.sameLabels_addContainer (store : Store) (image : String) (command : List String) :
    store.SameLabels
      { store with
        containers := store.containers ++ [{ image := image, command := command }] } := by
  refine .of_containers (labels_append _ rfl) (by simp) fun i c hc => ⟨c, ?_, subset_rfl⟩
  rwa [List.getElem?_append_left (List.getElem?_eq_some_iff.mp hc).1]

theorem Store.sameLabels_modifyContainer (store : Store) (i : ℕ)
    (f : AstContainer → AstContainer) (hlabels : ∀ c, (f c).labels = c.labels)
    (hexclusive : ∀ c, c.exclusive ⊆ (f c).exclusive) :
    store.SameLabels { store with containers := store.containers.modify i f } := by
  refine .of_containers (fun j => ?_) (by simp) fun j c hc => ?_
  · rw [Store.labelsOf, List.getElem?_modify]
    cases store.containers[j]? with
    | none => rfl
    | some c => by_cases hij : i = j <;> simp [hij, hlabels]
  · by_cases hij : i = j
    · exact ⟨f c, by simp [hij, hc], hexclusive c⟩
    · exact ⟨c, by simp [hij, hc], subset_rfl⟩

theorem Store.sameLabels_addMachine (store : Store) (machine : AstMachine)
    (hlabels : machine.labels = []) :
    store.SameLabels { store with machines := store.machines ++ [machine] } :=
  .of_machines (labels_append _ hlabels) (by simp)

theorem Store.sameLabels_setMachine (store : Store) (i : ℕ) (machine changed : AstMachine)
    (hmachine : store.machines[i]? = some machine) (hlabels : changed.labels = machine.labels) :
    store.SameLabels { store with machines := store.machines.set i changed } := by
  refine .of_machines (fun j => ?_) (by simp)
  rw [Store.labelsOf, List.getElem?_set]
  by_cases hij : i = j
  · subst hij
    rw [if_pos rfl, if_pos (List.getElem?_eq_some_iff.mp hmachine).1, hmachine]
    simpa using hlabels
  · rw [if_neg hij]

end Write

theorem Store.sameLabels_setConnections (store : Store) (connections : ConnectionSet) :
    store.SameLabels { store with connections := connections } where
  labels := rfl
  labelsOf := by
    intro a
    cases a <;> rfl
  has := by
    intro a h
    cases a <;> exact h
  exclusive := fun _ c hc => ⟨c, hc, subset_rfl⟩

/-! ## Code and values -/

/-- The names of `funcImplMap`. -/
def builtinNames : List String :=
  ["!", "%", "*", "+", "-", "/", "<", "=", ">", "and", "apply", "bool", "car", "cdr", "connect",
   "cons", "cpu", "define", "diskSize", "docker", "githubKey", "hmap", "hmapGet",
   "hmapContains", "hmapSet", "hmapKeys", "hmapValues", "if", "import", "label", "labelName",
   "labelHost", "lambda", "let", "len", "log", "list", "machine", "machineAttribute",
   "makeList", "map", "module", "nth", "or", "placement", "plaintextKey", "panic", "progn",
   "provider", "reduce", "region", "ram", "range", "role", "setEnv", "size", "sprintf"]

theorem map_fst_funcImplMap [Observer] (rt : Runtime) (fuel : ℕ) (ev : Ast → EvalM Ast) :
    (funcImplMap rt fuel ev).map Prod.fst = builtinNames := rfl

inductive Form
  | code
  | value
  deriving DecidableEq

/-- An identifier is a value only if it names a built-in function. -/
def Scalar.Fits (form : Form) (store : Store) : Scalar → Prop
  | .atom a => store.Has a
  | .ident name => form = .value → name ∈ builtinNames
  | _ => True

/-- The atom is a container that is bound by all the pairs. -/
def Store.Excluded (store : Store) (pairs : List (String × String)) (a : Atom) : Prop :=
  ∃ (i : ℕ) (c : AstContainer), a = .container i ∧ store.containers[i]? = some c ∧
    ∀ pair ∈ pairs, pair ∈ c.exclusive

/-- A placement statement that has been executed. -/
structure Placement (store : Store) (elems : List Ast) (pos : Position) (rest : List Ast)
    (labels : List AstLabel) : Prop where
  form : elems = .ident "placement" :: .str "exclusive" :: rest
  pos : pos = {}
  resolved : List.Forall₂ (fun elem l => store.resolveLabel elem = some l) (flatten rest) labels
  two : 2 ≤ labels.length
  excluded : ∀ l ∈ labels, ∀ a ∈ l.elems,
    store.Excluded (exclusivePairs (labels.map AstLabel.ident)) a

mutual

def Ast.Fits (store : Store) : Form → Ast → Prop
  | form, .list _ elems => Ast.AllFit store form elems
  | _, .hmap entries => Ast.ValueEntries store entries
  | form, .sexp elems pos => Ast.AllFit store form elems ∧
      (form = .value → ∃ rest labels, Placement store elems pos rest labels)
  | _, .lambda _ body ctx => body ≠ [] ∧ Ast.AllFit store .code body ∧ Ast.ValueCtx store ctx
  | form, .moduleNode _ body => Ast.AllFit store form body
  | _, .label l => store.labels.lookup l.ident = some l
  | form, .scalar value => value.Fits form store

def Ast.AllFit (store : Store) : Form → List Ast → Prop
  | _, [] => True
  | form, elem :: rest => Ast.Fits store form elem ∧ Ast.AllFit store form rest

def Ast.ValueEntries (store : Store) : List (Scalar × Ast) → Prop
  | [] => True
  | (k, value) :: rest =>
      k.Fits .value store ∧ Ast.Fits store .value value ∧ Ast.ValueEntries store rest

def Ast.ValueBinds (store : Store) : List (String × Ast) → Prop
  | [] => True
  | (_, value) :: rest => Ast.Fits store .value value ∧ Ast.ValueBinds store rest

def Ast.ValueCtx (store : Store) : List (List (String × Ast)) → Prop
  | [] => True
  | binds :: outer => Ast.ValueBinds store binds ∧ Ast.ValueCtx store outer

end

abbrev Ast.Ok (store : Store) : Ast → Prop := Ast.Fits store .code

abbrev Ast.Oks (store : Store) : List Ast → Prop := Ast.AllFit store .code

abbrev Ast.Value (store : Store) : Ast → Prop := Ast.Fits store .value

abbrev Ast.Values (store : Store) : List Ast → Prop := Ast.AllFit store .value

section Mono

variable {store store' : Store}

theorem Scalar.Fits.mono (hle : store.Le store') {form : Form} :
    ∀ value : Scalar, value.Fits form store → value.Fits form store'
  | .atom a, h => hle.has a h
  | .ident _, h | .str _, h | .float _, h | .int _, h | .bool _, h | .key _, h
  | .size _, h | .provider _, h | .role _, h | .region _, h | .diskSize _, h
  | .range _, h => h

theorem Store.Le.resolveLabel (hle : store.Le store') {elem : Ast} {l : AstLabel}
    (hl : store.resolveLabel elem = some l) : store'.resolveLabel elem = some l := by
  unfold Store.resolveLabel at hl ⊢
  split at hl
  next text =>
    by_cases hpublic : text = publicInternetLabel
    · simpa [hpublic] using hl
    · simp only [if_neg hpublic] at hl ⊢
      exact hle.labels text l hl
  · exact hl
  · exact hl

theorem Store.Excluded.mono (hle : store.Le store') {pairs : List (String × String)} {a : Atom}
    (hexcluded : store.Excluded pairs a) : store'.Excluded pairs a := by
  rcases hexcluded with ⟨i, c, ha, hc, hpairs⟩
  rcases hle.exclusive i c hc with ⟨c', hc', hsub⟩
  exact ⟨i, c', ha, hc', fun pair hmem => hsub (hpairs pair hmem)⟩

theorem Placement.mono (hle : store.Le store') {elems rest : List Ast} {pos : Position}
    {labels : List AstLabel} (hplacement : Placement store elems pos rest labels) :
    Placement store' elems pos rest labels where
  form := hplacement.form
  pos := hplacement.pos
  resolved := hplacement.resolved.imp fun _ _ h => hle.resolveLabel h
  two := hplacement.two
  excluded := fun l hl a ha => (hplacement.excluded l hl a ha).mono hle

mutual

theorem Ast.Fits.mono (hle : store.Le store') :
    ∀ (form : Form) (value : Ast), Ast.Fits store form value → Ast.Fits store' form value
  | form, .list _ elems, h => Ast.AllFit.mono hle form elems h
  | _, .hmap entries, h => Ast.ValueEntries.mono hle entries h
  | form, .sexp elems _, h => ⟨Ast.AllFit.mono hle form elems h.1, fun hform =>
      (h.2 hform).imp fun _ hrest => hrest.imp fun _ hlabels => hlabels.mono hle⟩
  | _, .lambda _ body ctx, h =>
      ⟨h.1, Ast.AllFit.mono hle .code body h.2.1, Ast.ValueCtx.mono hle ctx h.2.2⟩
  | form, .moduleNode _ body, h => Ast.AllFit.mono hle form body h
  | _, .label l, h => hle.labels l.ident l h
  | _, .scalar value, h => Scalar.Fits.mono hle value h

theorem Ast.AllFit.mono (hle : store.Le store') :
    ∀ (form : Form) (elems : List Ast),
      Ast.AllFit store form elems → Ast.AllFit store' form elems
  | _, [], h => h
  | form, elem :: rest, h =>
      ⟨Ast.Fits.mono hle form elem h.1, Ast.AllFit.mono hle form rest h.2⟩

theorem Ast.ValueEntries.mono (hle : store.Le store') :
    ∀ entries : List (Scalar × Ast),
      Ast.ValueEntries store entries → Ast.ValueEntries store' entries
  | [], h => h
  | (k, value) :: rest, h =>
      ⟨Scalar.Fits.mono hle k h.1, Ast.Fits.mono hle .value value h.2.1,
        Ast.ValueEntries.mono hle rest h.2.2⟩

theorem Ast.ValueBinds.mono (hle : store.Le store') :
    ∀ binds : List (String × Ast), Ast.ValueBinds store binds → Ast.ValueBinds store' binds
  | [], h => h
  | (_, value) :: rest, h =>
      ⟨Ast.Fits.mono hle .value value h.1, Ast.ValueBinds.mono hle rest h.2⟩

theorem Ast.ValueCtx.mono (hle : store.Le store') :
    ∀ ctx : List (List (String × Ast)), Ast.ValueCtx store ctx → Ast.ValueCtx store' ctx
  | [], h => h
  | binds :: outer, h =>
      ⟨Ast.ValueBinds.mono hle binds h.1, Ast.ValueCtx.mono hle outer h.2⟩

end

end Mono

/-! ### A value is code as well -/

section Code

variable {store : Store}

theorem Scalar.Fits.code : ∀ value : Scalar, value.Fits .value store → value.Fits .code store
  | .atom _, h => h
  | .ident _, _ => by simp [Scalar.Fits]
  | .str _, h | .float _, h | .int _, h | .bool _, h | .key _, h | .size _, h
  | .provider _, h | .role _, h | .region _, h | .diskSize _, h | .range _, h => h

mutual

theorem Ast.Value.ok : ∀ value : Ast, value.Value store → value.Ok store
  | .list _ elems, h => Ast.Values.oks elems h
  | .hmap _, h => h
  | .sexp elems _, h => ⟨Ast.Values.oks elems h.1, fun hform => by cases hform⟩
  | .lambda _ _ _, h => h
  | .moduleNode _ body, h => Ast.Values.oks body h
  | .label _, h => h
  | .scalar value, h => Scalar.Fits.code value h

theorem Ast.Values.oks : ∀ elems : List Ast, Ast.Values store elems → Ast.Oks store elems
  | [], h => h
  | elem :: rest, h => ⟨Ast.Value.ok elem h.1, Ast.Values.oks rest h.2⟩

end

end Code

section Membership

variable {store : Store} {form : Form}

theorem Ast.allFit_iff (elems : List Ast) :
    Ast.AllFit store form elems ↔ ∀ elem ∈ elems, Ast.Fits store form elem := by
  induction elems with
  | nil => simp [Ast.AllFit]
  | cons elem rest ih => simp [Ast.AllFit, ih]

theorem Ast.valueEntries_iff (entries : List (Scalar × Ast)) :
    Ast.ValueEntries store entries ↔
      ∀ entry ∈ entries, entry.1.Fits .value store ∧ entry.2.Value store := by
  induction entries with
  | nil => simp [Ast.ValueEntries]
  | cons entry rest ih => simp [Ast.ValueEntries, ih, and_assoc]

theorem Ast.valueBinds_iff (binds : Binds) :
    Ast.ValueBinds store binds ↔ ∀ bind ∈ binds, bind.2.Value store := by
  induction binds with
  | nil => simp [Ast.ValueBinds]
  | cons bind rest ih => simp [Ast.ValueBinds, ih]

theorem mem_assign {κ : Type} [DecidableEq κ] {entries : List (κ × Ast)} {k : κ} {value : Ast}
    {entry : κ × Ast} (hmem : entry ∈ assign entries k value) :
    entry = (k, value) ∨ entry ∈ entries := by
  unfold assign at hmem
  by_cases hfound : (entries.lookup k).isSome
  · rw [if_pos hfound] at hmem
    rcases List.mem_map.mp hmem with ⟨old, hold, heq⟩
    by_cases hk : old.1 = k
    · rw [if_pos hk] at heq
      exact .inl heq.symm
    · rw [if_neg hk] at heq
      exact .inr (heq ▸ hold)
  · rw [if_neg hfound, List.mem_append, List.mem_singleton] at hmem
    exact hmem.symm

theorem mem_of_lookup {κ : Type} [BEq κ] [LawfulBEq κ] {α : Type} {entries : List (κ × α)}
    {k : κ} {value : α} (hfound : entries.lookup k = some value) : (k, value) ∈ entries := by
  induction entries with
  | nil => simp at hfound
  | cons entry rest ih =>
      rw [List.lookup_cons] at hfound
      by_cases hk : k == entry.1
      · simp only [hk] at hfound
        injection hfound with hvalue
        rw [eq_of_beq hk, ← hvalue]
        exact List.mem_cons_self
      · simp only [hk] at hfound
        exact List.mem_cons_of_mem _ (ih hfound)

theorem valueBinds_assign {binds : Binds} {name : String} {value : Ast}
    (hbinds : Ast.ValueBinds store binds) (hvalue : value.Value store) :
    Ast.ValueBinds store (assign binds name value) := by
  rw [Ast.valueBinds_iff] at hbinds ⊢
  intro bind hmem
  rcases mem_assign hmem with rfl | hold
  · exact hvalue
  · exact hbinds bind hold

theorem valueEntries_assign {entries : List (Scalar × Ast)} {k : Scalar} {value : Ast}
    (hentries : Ast.ValueEntries store entries) (hk : k.Fits .value store)
    (hvalue : value.Value store) :
    Ast.ValueEntries store (assign entries k value) := by
  rw [Ast.valueEntries_iff] at hentries ⊢
  intro entry hmem
  rcases mem_assign hmem with rfl | hold
  · exact ⟨hk, hvalue⟩
  · exact hentries entry hold

theorem valueCtx_bind {ctx : Ctx} {name : String} {value : Ast}
    (hctx : Ast.ValueCtx store ctx) (hvalue : value.Value store) :
    Ast.ValueCtx store (ctx.bind name value) := by
  cases ctx with
  | nil => exact hctx
  | cons binds outer => exact ⟨valueBinds_assign hctx.1 hvalue, hctx.2⟩

theorem value_of_find {ctx : Ctx} {name : String} {value : Ast}
    (hctx : Ast.ValueCtx store ctx) (hfound : ctx.find name = some value) : value.Value store := by
  induction ctx with
  | nil => simp [Ctx.find] at hfound
  | cons binds outer ih =>
      unfold Ctx.find at hfound
      rcases hlookup : binds.lookup name with _ | found
      · simp only [hlookup] at hfound
        exact ih hctx.2 hfound
      · simp only [hlookup, Option.some.injEq] at hfound
        subst hfound
        exact (Ast.valueBinds_iff binds).mp hctx.1 _ (mem_of_lookup hlookup)

theorem valueBinds_head {ctx : Ctx} (hctx : Ast.ValueCtx store ctx) :
    Ast.ValueBinds store (ctx.headD []) := by
  cases ctx with
  | nil => trivial
  | cons binds outer => exact hctx.1

mutual

theorem fits_flattenOne :
    ∀ value : Ast, Ast.Fits store form value → ∀ elem ∈ flattenOne value, Ast.Fits store form elem
  | .list _ elems, h, elem, hmem => fits_flatten elems h elem hmem
  | .hmap _, h, _, hmem | .sexp _ _, h, _, hmem | .lambda _ _ _, h, _, hmem
  | .moduleNode _ _, h, _, hmem | .label _, h, _, hmem | .scalar _, h, _, hmem => by
      rw [flattenOne, List.mem_singleton] at hmem
      · rw [hmem]
        exact h
      · simp

theorem fits_flatten : ∀ elems : List Ast, Ast.AllFit store form elems →
    ∀ elem ∈ flatten elems, Ast.Fits store form elem
  | [], _, elem, hmem => absurd hmem (by simp [flatten])
  | first :: rest, h, elem, hmem => by
      rw [flatten, List.mem_append] at hmem
      rcases hmem with hfirst | hrest
      · exact fits_flattenOne first h.1 elem hfirst
      · exact fits_flatten rest h.2 elem hrest

end

end Membership

/-! ## The discipline of the evaluator -/

structure Env.Ok (env : Env) : Prop where
  consistent : env.store.Consistent
  ctx : Ast.ValueCtx env.store env.ctx

/-- An exclusive statement binds every container that carries one of its labels. -/
structure Enforced (store : Store) (names : List String) : Prop where
  known : ∀ name ∈ names, name = publicInternetLabel ∨ store.Defines name
  bound : ∀ (i : ℕ) (c : AstContainer), store.containers[i]? = some c →
    ∀ name ∈ names, name ∈ c.labels → ∀ pair ∈ exclusivePairs names, pair ∈ c.exclusive

theorem Enforced.mono {store store' : Store} (hle : store.Le store') {names : List String}
    (henforced : Enforced store names) : Enforced store' names where
  known := fun name hmem => (henforced.known name hmem).imp_right hle.defines
  bound := by
    intro i c' hc' name hmem hcarries pair hpair
    -- the container carried the label before, so it existed before
    have hlabel : name ∈ store.labelsOf (.container i) := by
      apply hle.settled name (henforced.known name hmem)
      simpa [Store.labelsOf, hc'] using hcarries
    rcases hc : store.containers[i]? with _ | c
    · simp [Store.labelsOf, hc] at hlabel
    · rcases hle.exclusive i c hc with ⟨c'', hc'', hsub⟩
      rw [hc'] at hc''
      injection hc'' with heq
      rw [heq]
      apply hsub
      apply henforced.bound i c hc name hmem _ pair hpair
      simpa [Store.labelsOf, hc] using hlabel

def Event.Holds (event : Event) (store : Store) : Prop :=
  match event with
  | .wrote written => written.Consistent
  | .placed names => Enforced store names
  | _ => True

def evalDiscipline (patient : Prop) : Discipline Env Event where
  inv := Env.Ok
  le := fun env env' => env.store.Le env'.store
  level := Env.depth
  holds := fun event env => event.Holds env.store
  fatal := fun event => event.fatal = true
  endless := fun event => event.endless = true
  patient := patient
  refl := fun env => Store.Le.refl env.store
  trans := fun _ _ _ hle hle' => hle.trans hle'
  holds_mono := by
    intro event env env' hle hholds
    cases event with
    | wrote written => exact hholds
    | placed names => exact Enforced.mono hle hholds
    | sighted => trivial
    | matched => trivial
    | called _ _ => trivial
    | hashed _ => trivial
    | entered _ => trivial

theorem Env.ok_initial : Env.initial.Ok where
  consistent := Store.consistent_empty
  ctx := ⟨trivial, trivial⟩

end Lang
end Di
