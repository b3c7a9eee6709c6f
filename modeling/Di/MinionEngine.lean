import Di.ReconcileStability
import Di.DslQuery
import Di.GoStrings

/-!
# The policy functions of the minion

A minion compiles the specification that the controller sends it and brings
its connection table, and on a master also its container table, in line with
it.  Both functions are instances of `reconcile`.  Connections are matched by
equality; containers by a score that adds up differences in labels and
placement but treats the environment asymmetrically: a row may lack variables
that the container sets.
-/

namespace Di
namespace Minion

open Db Join Reconcile

/-! ## The distance between label lists -/

/-- One iteration of the second loop of `EditDistance`. -/
def editStep (state : Finset String × ℕ) (label : String) : Finset String × ℕ :=
  if label ∈ state.1 then (state.1.erase label, state.2) else (state.1, state.2 + 1)

def editDistance (a b : List String) : ℕ :=
  let final := b.foldl editStep (a.toFinset, 0)
  final.2 + final.1.card

theorem le_foldl_editStep (b : List String) (labels : Finset String) (count : ℕ) :
    count ≤ (b.foldl editStep (labels, count)).2 := by
  induction b generalizing labels count with
  | nil => exact le_rfl
  | cons label b ih =>
      rw [List.foldl_cons, editStep]
      by_cases hmem : label ∈ labels
      · rw [if_pos hmem]
        exact ih (labels.erase label) count
      · rw [if_neg hmem]
        exact (Nat.le_succ count).trans (ih labels (count + 1))

theorem foldl_editStep_eq_zero_iff (b : List String) (labels : Finset String) :
    (b.foldl editStep (labels, 0)).2 + (b.foldl editStep (labels, 0)).1.card = 0 ↔
      b.Nodup ∧ labels = b.toFinset := by
  induction b generalizing labels with
  | nil => simp
  | cons label b ih =>
      rw [List.foldl_cons, editStep, List.nodup_cons, List.toFinset_cons]
      by_cases hmem : label ∈ labels
      · rw [if_pos hmem, ih]
        constructor
        · rintro ⟨hnodup, herase⟩
          have hnew : label ∉ b := by
            intro hb
            have hin : label ∈ labels.erase label := by
              rw [herase]
              simpa using hb
            simp at hin
          exact ⟨⟨hnew, hnodup⟩, by rw [← herase, Finset.insert_erase hmem]⟩
        · rintro ⟨⟨hnew, hnodup⟩, rfl⟩
          have hout : label ∉ b.toFinset := by simpa using hnew
          exact ⟨hnodup, Finset.erase_insert hout⟩
      · rw [if_neg hmem]
        have hcount := le_foldl_editStep b labels 1
        constructor
        · intro hzero
          have hnone := hcount.trans_eq (Nat.add_eq_zero_iff.mp hzero).1
          omega
        · rintro ⟨_, rfl⟩
          simp at hmem

theorem editDistance_eq_zero_iff (a b : List String) :
    editDistance a b = 0 ↔ b.Nodup ∧ a.toFinset = b.toFinset :=
  foldl_editStep_eq_zero_iff b a.toFinset

theorem foldl_editStep_of_nodup {b : List String} (hnodup : b.Nodup) (labels : Finset String)
    (count : ℕ) :
    (b.foldl editStep (labels, count)).2 + (b.foldl editStep (labels, count)).1.card =
      count + (symmDiff labels b.toFinset).card := by
  induction b generalizing labels count with
  | nil =>
      rw [List.toFinset_nil, ← Finset.bot_eq_empty, symmDiff_bot]
      rfl
  | cons label b ih =>
      rw [List.nodup_cons] at hnodup
      have hnew : label ∉ b.toFinset := by simpa using hnodup.1
      rw [List.foldl_cons, editStep, List.toFinset_cons]
      by_cases hmem : label ∈ labels
      · have hshared : symmDiff labels (insert label b.toFinset) =
            symmDiff (labels.erase label) b.toFinset := by
          ext other
          by_cases hother : other = label
          · simp [hother, Finset.mem_symmDiff, hmem, hnew]
          · simp [hother, Finset.mem_symmDiff]
        rw [if_pos hmem, ih hnodup.2, hshared]
      · have hextra : symmDiff labels (insert label b.toFinset) =
            insert label (symmDiff labels b.toFinset) := by
          ext other
          by_cases hother : other = label
          · simp [hother, Finset.mem_symmDiff, hmem]
          · simp [hother, Finset.mem_symmDiff]
        have hout : label ∉ symmDiff labels b.toFinset := by
          simp [Finset.mem_symmDiff, hmem, hnew]
        rw [if_neg hmem, ih hnodup.2, hextra, Finset.card_insert_of_notMem hout, Nat.add_right_comm]
        rfl

theorem editDistance_of_nodup (a : List String) {b : List String} (hnodup : b.Nodup) :
    editDistance a b = (symmDiff a.toFinset b.toFinset).card :=
  (foldl_editStep_of_nodup hnodup a.toFinset 0).trans (Nat.zero_add _)

theorem card_symmDiff_triangle {α : Type} [DecidableEq α] (a b c : Finset α) :
    (symmDiff a c).card ≤ (symmDiff a b).card + (symmDiff b c).card := by
  calc
    (symmDiff a c).card ≤ (symmDiff a b ∪ symmDiff b c).card :=
      Finset.card_le_card (symmDiff_triangle a b c)
    _ ≤ (symmDiff a b).card + (symmDiff b c).card := Finset.card_union_le _ _

/-- `EditDistance` counts the strings in exactly one of its arguments, if the second one
has no duplicates.  So it is a metric on lists without duplicates up to their order. -/
theorem editDistance_metric (a b c : List String) (hb : b.Nodup) :
    editDistance a b = (symmDiff a.toFinset b.toFinset).card ∧
      (a.Nodup → c.Nodup →
        editDistance a b = editDistance b a ∧
        (∀ a' b', a'.Perm a → b'.Perm b → editDistance a' b' = editDistance a b) ∧
        (editDistance a b = 0 ↔ ∀ label, label ∈ a ↔ label ∈ b) ∧
        editDistance a c ≤ editDistance a b + editDistance b c) := by
  refine ⟨editDistance_of_nodup a hb, fun ha hc => ⟨?_, ?_, ?_, ?_⟩⟩
  · rw [editDistance_of_nodup a hb, editDistance_of_nodup b ha, symmDiff_comm]
  · intro a' b' hperma hpermb
    have hb' : b'.Nodup := hpermb.nodup_iff.mpr hb
    rw [editDistance_of_nodup a' hb', editDistance_of_nodup a hb,
      List.toFinset_eq_of_perm _ _ hperma, List.toFinset_eq_of_perm _ _ hpermb]
  · rw [editDistance_of_nodup a hb, Finset.card_eq_zero, Finset.bot_eq_empty.symm,
      symmDiff_eq_bot, Finset.ext_iff]
    simp only [List.mem_toFinset]
  · rw [editDistance_of_nodup a hb, editDistance_of_nodup a hc, editDistance_of_nodup b hc]
    exact card_symmDiff_triangle _ _ _

theorem editDistance_metric_webs :
    editDistance ["web", "web", "db"] ["cache", "web"] =
      (symmDiff ["web", "web", "db"].toFinset ["cache", "web"].toFinset).card ∧
    editDistance ["web", "db"] ["cache"] ≤
      editDistance ["web", "db"] ["cache", "web"] + editDistance ["cache", "web"] ["cache"] :=
  ⟨(editDistance_metric ["web", "web", "db"] ["cache", "web"] ["cache"] (by decide)).1,
    ((editDistance_metric ["web", "db"] ["cache", "web"] ["cache"] (by decide)).2
      (by decide) (by decide)).2.2.2⟩

/-! ## The two rules -/

/-- A variable that the container does not set reads as the empty string. -/
def envMatches (dbEnv dslEnv : Finmap fun _ : String => String) : Prop :=
  ∀ k ∈ dbEnv.keys, (dbEnv.lookup k).getD "" = (dslEnv.lookup k).getD ""

instance (dbEnv dslEnv : Finmap fun _ : String => String) :
    Decidable (envMatches dbEnv dslEnv) :=
  inferInstanceAs (Decidable (∀ k ∈ _, _))

/-- The command that `QueryContainers` appends to a `nil` slice. -/
def commandSlice (command : List String) : Option (List String) :=
  if command = [] then none else some command

theorem commandSlice_inj {left right : List String} :
    commandSlice left = commandSlice right ↔ left = right := by
  unfold commandSlice
  by_cases hleft : left = []
  · by_cases hright : right = []
    · simp [hleft, hright]
    · simp [hleft, hright, Ne.symm hright]
  · by_cases hright : right = []
    · simp [hleft, hright]
    · simp [hleft, hright]

/-- `score` of `updateContainers`. -/
def containerScore (dslc : Lang.Container) (dbc : Container) : ℤ :=
  if dbc.image ≠ dslc.image ∨ dbc.command ≠ commandSlice dslc.command then -1
  else
    let dbExclusive := dbc.placement.exclusive
    let score := editDistance dbc.labels dslc.labels +
      100 * (dbExclusive \ dslc.exclusive).card +
      100 * (dslc.exclusive \ dbExclusive).card
    if envMatches dbc.env dslc.env then score else -1

def containerRule : Rule Lang.Container .container where
  score := containerScore
  rewrite := fun dslc dbc =>
    { dbc with
      labels := sortStrings dslc.labels
      command := commandSlice dslc.command
      image := dslc.image
      placement := { dbc.placement with exclusive := dslc.exclusive }
      env := dslc.env }
  rewrite_id := fun _ _ => rfl

/-- `scoreFunc` of `updateConnections`. -/
def connectionScore (dslc : Lang.Connection) (dbc : Connection) : ℤ :=
  if dslc.fromLabel = dbc.fromLabel ∧ dslc.toLabel = dbc.toLabel ∧
      dslc.minPort = dbc.minPort ∧ dslc.maxPort = dbc.maxPort then 0
  else 1

def connectionRule : Rule Lang.Connection .connection where
  score := connectionScore
  rewrite := fun dslc dbc =>
    { dbc with
      fromLabel := dslc.fromLabel
      toLabel := dslc.toLabel
      minPort := dslc.minPort
      maxPort := dslc.maxPort }
  rewrite_id := fun _ _ => rfl

structure Orders where
  container : IterOrder Container
  connection : IterOrder Connection
  /-- The order in which the connections of the specification are visited. -/
  specConnection : IterOrder Lang.Connection

def Orders.asStored : Orders := ⟨.asStored _, .asStored _, .asStored _⟩

def updateContainers (orders : Orders) (spec : Lang.Dsl) (view : Database) :
    Option Database :=
  reconcile containerRule spec.queryContainers
    (view.select .container orders.container fun _ => true) view

def updateConnections (orders : Orders) (spec : Lang.Dsl) (view : Database) :
    Option Database :=
  reconcile connectionRule (orders.specConnection.visit spec.queryConnections)
    (view.select .connection orders.connection fun _ => true) view

/-! ## The tables show the specification -/

abbrev ContainerView :=
  String × Option (List String) × List String × (Finmap fun _ : String => String) ×
    Finset (String × String)

def containerView (dbc : Container) : ContainerView :=
  (dbc.image, dbc.command, dbc.labels, dbc.env, dbc.placement.exclusive)

def containerTarget (dslc : Lang.Container) : ContainerView :=
  (dslc.image, commandSlice dslc.command, sortStrings dslc.labels, dslc.env, dslc.exclusive)

def connectionView (dbc : Connection) : Lang.Connection :=
  ⟨dbc.fromLabel, dbc.toLabel, dbc.minPort, dbc.maxPort⟩

theorem containerView_rewrite (dslc : Lang.Container) (dbc : Container) :
    containerView (containerRule.rewrite dslc dbc) = containerTarget dslc := rfl

theorem connectionView_rewrite (dslc : Lang.Connection) (dbc : Connection) :
    connectionView (connectionRule.rewrite dslc dbc) = dslc := rfl

/-- Reconciling a whole table makes its rows show the targets. -/
theorem reconcile_all {L X : Type*} {t : TableType} (rule : Rule L t)
    (view : RowOf t → X) (target : L → X)
    (hview : ∀ l row, view (rule.rewrite l row) = target l)
    (lefts : List L) (order : IterOrder (RowOf t)) (db : Database) :
    ∃ after,
      reconcile rule lefts (db.select t order fun _ => true) db = some after ∧
        ((after.tables t).rows.map view).Perm (lefts.map target) ∧
        SameElsewhere t db after := by
  have hsplit := (db.tables t).rows_perm_select order fun _ => true
  rcases reconcile_spec rule lefts (db.select t order fun _ => true) _ db hsplit with
    ⟨after, hafter, hrows, hsame, _⟩
  have hempty : (db.tables t).rows.filter (fun _ => !true) = [] := by simp
  rw [hempty, List.append_nil] at hrows
  have hviews := (hrows.map view).trans
    (rule.view_perm hview (written_map_fst_perm rule lefts _ db))
  exact ⟨after, hafter, hviews, hsame⟩

theorem updateContainers_spec (orders : Orders) (spec : Lang.Dsl) (db : Database) :
    ∃ after, updateContainers orders spec db = some after ∧
      ((after.tables .container).rows.map containerView).Perm
        (spec.queryContainers.map containerTarget) ∧
      SameElsewhere .container db after :=
  reconcile_all containerRule containerView containerTarget containerView_rewrite _ _ db

theorem updateConnections_spec (orders : Orders) (spec : Lang.Dsl) (db : Database) :
    ∃ after, updateConnections orders spec db = some after ∧
      ((after.tables .connection).rows.map connectionView).Perm
        spec.queryConnections ∧
      SameElsewhere .connection db after := by
  rcases reconcile_all connectionRule connectionView id connectionView_rewrite
    (orders.specConnection.visit spec.queryConnections) orders.connection db with
    ⟨after, hafter, hviews, hsame⟩
  rw [List.map_id] at hviews
  have hvisit := orders.specConnection.perm spec.queryConnections
  exact ⟨after, hafter, hviews.trans hvisit, hsame⟩

/-! ## Applying the same specification again -/

theorem connectionScore_nonneg (dslc : Lang.Connection) (dbc : Connection) :
    0 ≤ connectionScore dslc dbc := by
  unfold connectionScore
  split <;> omega

theorem connectionScore_le_zero_iff (dslc : Lang.Connection) (dbc : Connection) :
    connectionScore dslc dbc ≤ 0 ↔ connectionView dbc = dslc := by
  unfold connectionScore connectionView
  cases dslc with
  | mk fromLabel toLabel minPort maxPort =>
      rw [Lang.Connection.mk.injEq]
      split
      next heq =>
        constructor
        · intro _
          exact ⟨heq.1.symm, heq.2.1.symm, heq.2.2.1.symm, heq.2.2.2.symm⟩
        · intro _
          exact le_rfl
      next hne =>
        constructor
        · intro hle
          omega
        · rintro ⟨hfrom, hto, hmin, hmax⟩
          exact absurd ⟨hfrom.symm, hto.symm, hmin.symm, hmax.symm⟩ hne

/-- A connection table that shows the specification is left alone. -/
theorem updateConnections_again {spec : Lang.Dsl} {db : Database}
    (hviews : ((db.tables .connection).rows.map connectionView).Perm
      spec.queryConnections) (orders : Orders) :
    updateConnections orders spec db = some db := by
  have hselect := (db.tables .connection).select_perm orders.connection fun _ => true
  rw [List.filter_true] at hselect
  have hvisit := orders.specConnection.perm spec.queryConnections
  have hperm : ((db.select .connection orders.connection fun _ => true).map
      connectionView).Perm
        ((orders.specConnection.visit spec.queryConnections).map id) := by
    rw [List.map_id]
    exact (hselect.map connectionView).trans (hviews.trans hvisit.symm)
  have hsettled : Settled connectionRule.score 0 connectionView id
      (orders.specConnection.visit spec.queryConnections) := by
    apply List.pairwise_of_forall
    intro early late row hview _ hle
    exact ((connectionScore_le_zero_iff early row).mp hle).symm.trans hview
  apply reconcile_settled hperm _ _ hsettled
  · intro row hrow
    exact hselect.mem_iff.mp hrow
  · intro l _ row _ hview
    exact ⟨connectionScore_nonneg l row, (connectionScore_le_zero_iff l row).mpr hview⟩
  · intro l _ row _ hview
    have hrow : connectionView row = l := hview
    subst hrow
    rfl

/-! ## Which containers may take each other's rows -/

/-- `early` scores zero on the row that shows `late`. -/
def Absorbs (early late : Lang.Container) : Prop :=
  late.image = early.image ∧ late.command = early.command ∧
    late.labels.toFinset = early.labels.toFinset ∧
    late.exclusive = early.exclusive ∧ envMatches late.env early.env

instance (early late : Lang.Container) : Decidable (Absorbs early late) :=
  inferInstanceAs (Decidable (_ ∧ _))

/-- No container absorbs the row of a later one that has another environment. -/
def Separated (containers : List Lang.Container) : Prop :=
  containers.Pairwise fun early late => Absorbs early late → early.env = late.env

instance (containers : List Lang.Container) : Decidable (Separated containers) :=
  inferInstanceAs (Decidable (containers.Pairwise _))

theorem absorbs_self (dslc : Lang.Container) : Absorbs dslc dslc :=
  ⟨rfl, rfl, rfl, rfl, fun _ _ => rfl⟩

theorem containerScore_eq_zero_iff (dslc : Lang.Container) (dbc : Container) :
    containerScore dslc dbc = 0 ↔
      dbc.image = dslc.image ∧ dbc.command = commandSlice dslc.command ∧
        (dslc.labels.Nodup ∧ dbc.labels.toFinset = dslc.labels.toFinset) ∧
        dbc.placement.exclusive = dslc.exclusive ∧
        envMatches dbc.env dslc.env := by
  unfold containerScore
  by_cases hsame : dbc.image ≠ dslc.image ∨ dbc.command ≠ commandSlice dslc.command
  · rw [if_pos hsame]
    constructor
    · intro hneg
      omega
    · rintro ⟨himage, hcommand, _⟩
      rcases hsame with hne | hne
      · exact absurd himage hne
      · exact absurd hcommand hne
  · rw [if_neg hsame]
    rw [not_or, not_not, not_not] at hsame
    by_cases henv : envMatches dbc.env dslc.env
    · dsimp only
      rw [if_pos henv]
      simp only [hsame.1, hsame.2, henv, true_and, and_true]
      rw [← editDistance_eq_zero_iff]
      have hsubset : ∀ left right : Finset (String × String),
          (left \ right).card = 0 ↔ left ⊆ right := by
        intro left right
        rw [Finset.card_eq_zero, Finset.sdiff_eq_empty_iff_subset]
      rw [Finset.Subset.antisymm_iff, ← hsubset, ← hsubset]
      omega
    · dsimp only
      rw [if_neg henv]
      simp [henv]

theorem labels_toFinset_of_view {dbc : Container} {dslc : Lang.Container}
    (hview : containerView dbc = containerTarget dslc) :
    dbc.labels.toFinset = dslc.labels.toFinset := by
  simp only [containerView, containerTarget, Prod.mk.injEq] at hview
  rw [hview.2.2.1]
  exact List.toFinset_eq_of_perm _ _ (sortStrings_perm dslc.labels)

/-- On a row that shows `late`, the score is zero exactly if `early` absorbs
`late`. -/
theorem containerScore_of_view {early late : Lang.Container} {dbc : Container}
    (hlabels : early.labels.Nodup)
    (hview : containerView dbc = containerTarget late) :
    containerScore early dbc = 0 ↔ Absorbs early late := by
  have hset := labels_toFinset_of_view hview
  simp only [containerView, containerTarget, Prod.mk.injEq] at hview
  rw [containerScore_eq_zero_iff, Absorbs, hset, hview.1, hview.2.1, hview.2.2.2.1,
    hview.2.2.2.2, commandSlice_inj]
  simp only [hlabels, true_and]

theorem containerTarget_eq_iff {early late : Lang.Container}
    (hearly : early.labels.Nodup) (hlate : late.labels.Nodup)
    (habsorbs : Absorbs early late) :
    containerTarget early = containerTarget late ↔ early.env = late.env := by
  have hperm : early.labels.Perm late.labels :=
    List.perm_of_nodup_nodup_toFinset_eq hearly hlate habsorbs.2.2.1.symm
  simp [containerTarget, habsorbs.1, habsorbs.2.1, habsorbs.2.2.2.1,
    sortStrings_eq_of_perm hperm]

section Again

variable {spec : Lang.Dsl}

theorem updateContainers_again {db : Database}
    (hlabels : ∀ dslc ∈ spec.queryContainers, dslc.labels.Nodup)
    (hseparated : Separated spec.queryContainers)
    (hviews : ((db.tables .container).rows.map containerView).Perm
      (spec.queryContainers.map containerTarget)) (orders : Orders) :
    updateContainers orders spec db = some db := by
  have hselect := (db.tables .container).select_perm orders.container fun _ => true
  rw [List.filter_true] at hselect
  have hsettled : Settled containerRule.score 0 containerView containerTarget
      spec.queryContainers := by
    apply List.Pairwise.imp_of_mem _ hseparated
    intro early late hearly hlate henv row hview hnonneg hle
    have hzero : containerScore early row = 0 := le_antisymm hle hnonneg
    have habsorbs := (containerScore_of_view (hlabels early hearly) hview).mp hzero
    exact (containerTarget_eq_iff (hlabels early hearly) (hlabels late hlate)
      habsorbs).mpr (henv habsorbs)
  apply reconcile_settled ((hselect.map containerView).trans hviews) _ _ hsettled
  · intro row hrow
    exact hselect.mem_iff.mp hrow
  · intro l hl row _ hview
    have hzero : containerRule.score l row = 0 :=
      (containerScore_of_view (hlabels l hl) hview).mpr (absorbs_self l)
    exact ⟨hzero.ge, hzero.le⟩
  · intro l _ row _ hview
    simp only [containerView, containerTarget, Prod.mk.injEq] at hview
    simp only [containerRule, ← hview.1, ← hview.2.1, ← hview.2.2.1, ← hview.2.2.2.1,
      ← hview.2.2.2.2]

/-- Applied to an empty table, the first run inserts a row for every container. -/
theorem updateContainers_new (orders : Orders) (spec : Lang.Dsl) :
    ∃ after, updateContainers orders spec Database.new = some after ∧
      (after.tables .container).rows.Perm
        (containerRule.rewritePairs
          (bootedFrom .container 0 spec.queryContainers)) := by
  have hselect : Database.new.select .container orders.container (fun _ => true) = [] := by
    have hperm := (Database.new.tables .container).select_perm orders.container
      fun _ => true
    exact List.perm_nil.mp hperm
  rcases reconcile_spec containerRule spec.queryContainers [] [] Database.new .rfl with
    ⟨after, hafter, hrows, _⟩
  refine ⟨after, ?_, ?_⟩
  · rw [updateContainers, hselect]
    exact hafter
  · simpa [written, Database.new] using hrows

/-- If some container absorbs a later one that differs in its environment, then
some order of the second run changes the table. -/
theorem exists_rewrite {alloc : ℕ} {db : Database}
    (hlabels : ∀ dslc ∈ spec.queryContainers, dslc.labels.Nodup)
    (hrows : (db.tables .container).rows.Perm
      (containerRule.rewritePairs (bootedFrom .container alloc spec.queryContainers)))
    (hconfused : ¬ Separated spec.queryContainers) :
    ∃ orders : Orders, ∀ next, updateContainers orders spec db = some next →
      next.tables .container ≠ db.tables .container := by
  set pairs : List (Lang.Container × Container) :=
    bootedFrom .container alloc spec.queryContainers with hpairs
  have hlefts : pairs.map Prod.fst = spec.queryContainers :=
    bootedFrom_map_fst (t := .container) alloc _
  have hleft : ∀ pair ∈ pairs, pair.1 ∈ spec.queryContainers := by
    intro pair hpair
    exact hlefts ▸ List.mem_map_of_mem hpair
  have hscore : ∀ left ∈ pairs, ∀ right ∈ pairs,
      (containerRule.score left.1 (containerRule.row right) = 0 ↔
        Absorbs left.1 right.1) := by
    intro left hl right hr
    exact containerScore_of_view (hlabels left.1 (hleft left hl))
      (containerView_rewrite right.1 right.2)
  have hunsettled : ¬ pairs.Pairwise fun early late =>
      containerRule.score early.1 (containerRule.row late) = 0 →
        containerTarget early.1 = containerTarget late.1 := by
    intro hpairwise
    apply hconfused
    rw [← hlefts, Separated, List.pairwise_map]
    apply List.Pairwise.imp_of_mem _ hpairwise
    intro early late hearly hlate hagree habsorbs
    have htargets := hagree ((hscore early hearly late hlate).mpr habsorbs)
    exact (containerTarget_eq_iff (hlabels _ (hleft early hearly))
      (hlabels _ (hleft late hlate)) habsorbs).mp htargets
  have hall : (db.tables .container).rows.Perm
      (containerRule.rewritePairs pairs ++ []) := by
    simpa using hrows
  have hown : ∀ pair ∈ pairs,
      containerRule.score pair.1 (containerRule.row pair) = 0 := by
    intro pair hpair
    exact (hscore pair hpair pair hpair).mpr (absorbs_self pair.1)
  have hmin : ∀ left ∈ pairs, ∀ right ∈ pairs,
      containerRule.score left.1 (containerRule.row right) < 0 ∨
        0 ≤ containerRule.score left.1 (containerRule.row right) := by
    intro left _ right _
    exact lt_or_ge _ _
  rcases reconcile_unsettled containerView_rewrite hall le_rfl hown hmin hunsettled with
    ⟨rights, hperm, hchanges⟩
  rcases IterOrder.exists_visit_eq (hperm.trans hrows.symm) with ⟨order, hvisit⟩
  refine ⟨{ Orders.asStored with container := order }, ?_⟩
  intro next hnext
  apply hchanges next
  rw [hlefts, ← hvisit]
  simpa [updateContainers, Database.select, Table.select] using hnext

/-- For containers with duplicate-free labels, repeating `updateContainers` never
changes anything exactly if the containers are separated. -/
theorem updateContainers_repeat_iff
    (hlabels : ∀ dslc ∈ spec.queryContainers, dslc.labels.Nodup) :
    (∀ (db after : Database) (orders again : Orders),
      updateContainers orders spec db = some after →
        updateContainers again spec after = some after) ↔
      Separated spec.queryContainers := by
  constructor
  · intro hrepeat
    by_contra hconfused
    rcases updateContainers_new Orders.asStored spec with ⟨after, hfirst, hrows⟩
    rcases exists_rewrite hlabels hrows hconfused with ⟨again, hchanges⟩
    exact hchanges after (hrepeat _ after _ again hfirst) rfl
  · intro hseparated db after orders again hfirst
    rcases updateContainers_spec orders spec db with ⟨found, hfound, hviews, _⟩
    rw [hfirst, Option.some.injEq] at hfound
    subst hfound
    exact updateContainers_again hlabels hseparated hviews again

end Again

end Minion
end Di
