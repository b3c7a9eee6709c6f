import Di.GuardedRun
import Di.MinionPolicy

/-!
# Exclusive placement on the hosts of a cluster

The scheduler boots every container of the container table with docker labels
and environment strings that encode its labels and its placement constraints.
Swarm is trusted with one thing: it does not put a container with the string
`affinity:di.user.label.X!=1` in its environment on a host where a container
with the docker label `di.user.label.X=1` is running.  Whatever the order and the
hosts, no exclusive placement statement of the specification is then ever
violated, because each of the two containers excludes the other one.
-/

namespace Di
namespace Swarm

open Db hiding Container Connection
open Lang hiding Container Connection
open Minion GuardedRun

def userLabelPrefix : String := "di.user.label."

def userLabel (label : String) : String := userLabelPrefix ++ label

def schedulerLabelKey : String := "di.system.label.DI"

def schedulerLabelValue : String := "Scheduler"

def labelTrueValue : String := "1"

def affinity (label : String) : String :=
  "affinity:" ++ userLabel label ++ "!=" ++ labelTrueValue

def makeLabels (dbc : Db.Container) : Finmap fun _ : String => String :=
  dbc.labels.foldl (fun labels label => labels.insert (userLabel label) labelTrueValue)
    (Finmap.singleton schedulerLabelKey schedulerLabelValue)

/-- The label that a pair keeps away from a container labelled `label`. -/
def excludedBy (label : String) (pair : String × String) : Finset String :=
  if pair.1 = label then {affinity pair.2}
  else if pair.2 = label then {affinity pair.1}
  else ∅

def makeEnv (dbc : Db.Container) : Finset String :=
  (dbc.labels.toFinset.biUnion fun label =>
    dbc.placement.exclusive.biUnion (excludedBy label)) ∪
  dbc.env.keys.image fun k => k ++ "=" ++ (dbc.env.lookup k).getD ""

theorem makeLabels_lookup {dbc : Db.Container} {label : String} (hmem : label ∈ dbc.labels) :
    (makeLabels dbc).lookup (userLabel label) = some labelTrueValue := by
  have hfold : ∀ (labels : List String) (start : Finmap fun _ : String => String),
      label ∈ labels ∨ start.lookup (userLabel label) = some labelTrueValue →
        (labels.foldl (fun labels label => labels.insert (userLabel label) labelTrueValue)
          start).lookup (userLabel label) = some labelTrueValue := by
    intro labels
    induction labels with
    | nil =>
        intro start hstart
        simpa using hstart
    | cons first rest ih =>
        intro start hstart
        apply ih
        by_cases hsame : userLabel label = userLabel first
        · rw [hsame]
          exact .inr (Finmap.lookup_insert _)
        · rw [Finmap.lookup_insert_of_ne _ hsame]
          rcases hstart with hmem | hlookup
          · rcases List.mem_cons.mp hmem with rfl | hrest
            · exact absurd rfl hsame
            · exact .inl hrest
          · exact .inr hlookup
  exact hfold dbc.labels _ (.inl hmem)

theorem affinity_mem_makeEnv {dbc : Db.Container} {label other : String}
    (hlabel : label ∈ dbc.labels) (hpair : sortedPair other label ∈ dbc.placement.exclusive) :
    affinity other ∈ makeEnv dbc := by
  apply Finset.mem_union_left
  rw [Finset.mem_biUnion]
  refine ⟨label, List.mem_toFinset.mpr hlabel, ?_⟩
  rw [Finset.mem_biUnion]
  refine ⟨_, hpair, ?_⟩
  unfold sortedPair excludedBy
  by_cases hlt : other < label
  · have hne : other ≠ label := by
      rintro rfl
      exact String.lt_irrefl other hlt
    simp [hlt, hne]
  · simp [hlt]

/-! ## Pairs of positions -/

theorem sortedPair_comm (a b : String) : sortedPair a b = sortedPair b a := by
  unfold sortedPair
  by_cases hab : a < b
  · simp [hab, String.lt_asymm hab]
  · by_cases hba : b < a
    · simp [hab, hba]
    · simp [String.le_antisymm hba hab]

theorem sortedPair_mem_exclusivePairs {names : List String} {p q : ℕ} {a b : String}
    (hlt : p < q) (ha : names[p]? = some a) (hb : names[q]? = some b) :
    sortedPair a b ∈ exclusivePairs names := by
  induction names generalizing p q with
  | nil => simp at ha
  | cons name rest ih =>
      rw [exclusivePairs, List.mem_append]
      cases q with
      | zero => omega
      | succ q =>
          rw [List.getElem?_cons_succ] at hb
          cases p with
          | zero =>
              rw [List.getElem?_cons_zero, Option.some.injEq] at ha
              left
              rw [ha]
              exact List.mem_map_of_mem (List.mem_of_getElem? hb)
          | succ p =>
              rw [List.getElem?_cons_succ] at ha
              exact .inr (ih (by omega) ha hb)

theorem pair_mem_exclusivePairs {names : List String} {p q : ℕ} {a b : String}
    (hne : p ≠ q) (ha : names[p]? = some a) (hb : names[q]? = some b) :
    sortedPair a b ∈ exclusivePairs names := by
  rcases Nat.lt_or_gt_of_ne hne with hlt | hgt
  · exact sortedPair_mem_exclusivePairs hlt ha hb
  · rw [sortedPair_comm]
    exact sortedPair_mem_exclusivePairs hgt hb ha

/-! ## Statements and rows -/

/-- The label lists of the exclusive placement statements that were executed. -/
def exclusiveStatements (rt : Runtime) (files : Files) (fuel : ℕ) (spec : Spec) :
    List (List String) :=
  match compile rt.unicode files fuel spec with
  | .ok program =>
      (evalProgram rt fuel program).trace.filterMap fun event =>
        match event with
        | .placed names => some names
        | _ => none
  | _ => []

theorem enforced_of_statement {rt : Runtime} {files : Files} {fuel : ℕ} {spec : Spec} {dsl : Dsl}
    (hnew : new rt files fuel spec = .ok dsl) {names : List String}
    (hnames : names ∈ exclusiveStatements rt files fuel spec) : Enforced dsl.store names := by
  rcases new_eq_ok.mp hnew with ⟨program, values, hprogram, _, rfl⟩
  simp only [exclusiveStatements, hprogram, List.mem_filterMap] at hnames
  rcases hnames with ⟨event, hmem, hevent⟩
  have hholds := (evalProgram_sound rt fuel (sources_compile hprogram)).2 event hmem
  cases event with
  | placed other =>
      injection hevent with hevent
      exact hevent ▸ hholds
  | _ => cases hevent

theorem row_bound {dsl : Dsl} {orders : Orders} {after : Database}
    (hafter : updateContainers orders dsl Database.new = some after)
    {names : List String} (henforced : Enforced dsl.store names)
    {row : Db.Container} (hrow : row ∈ (after.tables .container).rows)
    {label : String} (hlabel : label ∈ names) (hcarries : label ∈ row.labels) :
    ∀ pair ∈ exclusivePairs names, pair ∈ row.placement.exclusive := by
  rcases updateContainers_spec orders dsl Database.new with ⟨found, hfound, hviews, _⟩
  rw [hafter, Option.some.injEq] at hfound
  subst hfound
  have hview := hviews.mem_iff.mp (List.mem_map_of_mem hrow)
  rcases List.mem_map.mp hview with ⟨dslc, hdslc, htarget⟩
  rcases List.mem_map.mp hdslc with ⟨c, hc, rfl⟩
  rcases List.mem_iff_getElem?.mp hc with ⟨i, hi⟩
  simp only [containerTarget, containerView, Prod.mk.injEq] at htarget
  have hlabels : label ∈ c.labels := by
    rw [← htarget.2.2.1] at hcarries
    exact (sortStrings_perm c.labels).mem_iff.mp hcarries
  intro pair hpair
  rw [← htarget.2.2.2.2]
  exact henforced.bound i c hi label hlabel hlabels pair hpair

/-! ## Booting the containers -/

section Boot

variable {Host : Type}

/-- The running containers, the newest first. -/
abbrev Cluster (Host : Type) := List (Db.Container × Host)

def boot (cluster : Cluster Host) (event : Db.Container × Host) : Cluster Host := event :: cluster

/-- What swarm guarantees for one container on a host. -/
def Repels (newcomer running : Db.Container) : Prop :=
  ∀ label, affinity label ∈ makeEnv newcomer →
    (makeLabels running).lookup (userLabel label) ≠ some labelTrueValue

/-- A container of the table that is not running yet, on a host that swarm allows. -/
structure Admits (rows : List Db.Container) (cluster : Cluster Host) (event : Db.Container × Host) :
    Prop where
  listed : event.1 ∈ rows
  fresh : ∀ running ∈ cluster, running.1.ID ≠ event.1.ID
  allowed : ∀ running ∈ cluster, running.2 = event.2 → Repels event.1 running.1

def Settled (rows : List Db.Container) (cluster : Cluster Host) : Prop :=
  (∀ running ∈ cluster, running.1 ∈ rows) ∧
    cluster.Pairwise fun late early => early.2 = late.2 → Repels late.1 early.1

theorem settled_boot {rows : List Db.Container} {cluster : Cluster Host}
    {event : Db.Container × Host} (hsettled : Settled rows cluster)
    (hadmits : Admits rows cluster event) : Settled rows (boot cluster event) := by
  constructor
  · intro running hmem
    rcases List.mem_cons.mp hmem with rfl | hold
    · exact hadmits.listed
    · exact hsettled.1 running hold
  · exact List.pairwise_cons.mpr ⟨hadmits.allowed, hsettled.2⟩

theorem repels_of_settled {rows : List Db.Container} {cluster : Cluster Host}
    (hsettled : Settled rows cluster) {one other : Db.Container × Host}
    (hone : one ∈ cluster) (hother : other ∈ cluster) (hdistinct : one.1.ID ≠ other.1.ID)
    (hhost : one.2 = other.2) : Repels one.1 other.1 ∨ Repels other.1 one.1 := by
  let Either (a b : Db.Container × Host) : Prop :=
    a.2 = b.2 → Repels a.1 b.1 ∨ Repels b.1 a.1
  have hsymm : Std.Symm Either := ⟨fun a b heither hhost => (heither hhost.symm).symm⟩
  have hpairs : cluster.Pairwise Either :=
    hsettled.2.imp fun hlate hhost => .inl (hlate hhost.symm)
  have hne : one ≠ other := by
    rintro rfl
    exact hdistinct rfl
  exact hpairs.forall hone hother hne hhost

theorem not_repels {names : List String} {p q : ℕ} {a b : String}
    (hne : p ≠ q) (ha : names[p]? = some a) (hb : names[q]? = some b)
    {newcomer running : Db.Container}
    (hbound : ∀ pair ∈ exclusivePairs names, pair ∈ newcomer.placement.exclusive)
    (hnewcomer : b ∈ newcomer.labels) (hrunning : a ∈ running.labels) :
    ¬ Repels newcomer running := by
  intro hrepels
  have hpair := hbound _ (pair_mem_exclusivePairs hne ha hb)
  exact hrepels a (affinity_mem_makeEnv hnewcomer hpair) (makeLabels_lookup hrunning)

/-- At every point of every run that boots the containers of a specification one
after another, no two containers on one host carry the labels at two positions
of an exclusive placement statement. -/
theorem exclusive_enforced {rt : Runtime} {files : Files} {fuel : ℕ} {spec : Spec} {dsl : Dsl}
    (hnew : new rt files fuel spec = .ok dsl)
    {orders : Orders} {after : Database}
    (hafter : updateContainers orders dsl Database.new = some after)
    {events : List (Db.Container × Host)}
    (hrun : Guarded boot (Admits (after.tables .container).rows) [] events)
    {cluster : Cluster Host} (hcluster : cluster ∈ states boot [] events)
    {names : List String} (hnames : names ∈ exclusiveStatements rt files fuel spec)
    {p q : ℕ} (hne : p ≠ q) {first second : String}
    (hfirst : names[p]? = some first) (hsecond : names[q]? = some second)
    {one other : Db.Container × Host} (hone : one ∈ cluster) (hother : other ∈ cluster)
    (hdistinct : one.1.ID ≠ other.1.ID) (hhost : one.2 = other.2) :
    ¬(first ∈ one.1.labels ∧ second ∈ other.1.labels) := by
  have hsettled : Settled (after.tables .container).rows cluster := by
    apply invariant_of_guarded (fun _ _ => settled_boot) _ hrun cluster hcluster
    exact ⟨fun _ hmem => absurd hmem List.not_mem_nil, List.Pairwise.nil⟩
  have henforced := enforced_of_statement hnew hnames
  have hbound : ∀ running ∈ cluster, ∀ label ∈ names, label ∈ running.1.labels →
      ∀ pair ∈ exclusivePairs names, pair ∈ running.1.placement.exclusive :=
    fun running hmem label hlabel => row_bound hafter henforced (hsettled.1 running hmem) hlabel
  rintro ⟨hone', hother'⟩
  have hmemFirst := List.mem_of_getElem? hfirst
  have hmemSecond := List.mem_of_getElem? hsecond
  rcases repels_of_settled hsettled hone hother hdistinct hhost with hrepels | hrepels
  · exact not_repels hne.symm hsecond hfirst (hbound one hone first hmemFirst hone') hone'
      hother' hrepels
  · exact not_repels hne hfirst hsecond (hbound other hother second hmemSecond hother') hother'
      hone' hrepels

end Boot

def colours : String :=
  "(label \"red\" (docker \"a\"))\n(label \"blue\" (docker \"b\"))\n" ++
    "(label \"green\" (docker \"c\"))\n(placement \"exclusive\" \"red\" \"blue\")"

theorem colours_rows :
    ∃ dsl after, new plainRuntime noFiles 10 { text := colours.toList } = .ok dsl ∧
      updateContainers Orders.asStored dsl Database.new = some after ∧
      ((after.tables .container).rows.map fun row =>
        (row.ID, row.labels, decide (makeEnv row = ∅))) =
          [(1, ["red"], false), (2, ["blue"], false), (3, ["green"], true)] ∧
      ["red", "blue"] ∈ exclusiveStatements plainRuntime noFiles 10 { text := colours.toList } := by
  have hboth : ((new plainRuntime noFiles 10 { text := colours.toList }).value?.bind fun dsl =>
      (updateContainers Orders.asStored dsl Database.new).map fun after =>
        (after.tables .container).rows.map fun row =>
          (row.ID, row.labels, decide (makeEnv row = ∅))) =
      some [(1, ["red"], false), (2, ["blue"], false), (3, ["green"], true)] ∧
      ["red", "blue"] ∈ exclusiveStatements plainRuntime noFiles 10 { text := colours.toList } := by
    decide +kernel
  obtain ⟨hrun, hnames⟩ := hboth
  rcases Option.bind_eq_some_iff.mp hrun with ⟨dsl, hdsl, hrows⟩
  rcases Option.map_eq_some_iff.mp hrows with ⟨after, hafter, hviews⟩
  rcases Outcome.exists_ok (Option.isSome_of_eq_some hdsl) with ⟨found, hnew⟩
  rw [hnew] at hdsl
  injection hdsl with hsame
  exact ⟨dsl, after, hsame ▸ hnew, hafter, hviews, hnames⟩

theorem exclusive_enforced_colours :
    ∃ (red blue green : Db.Container),
      [(green, 0), (blue, 1), (red, 0)] ∈ states boot [] [(red, 0), (blue, 1), (green, 0)] ∧
      ¬("red" ∈ red.labels ∧ "blue" ∈ green.labels) := by
  rcases colours_rows with ⟨dsl, after, hnew, hafter, hviews, hnames⟩
  rcases List.map_eq_cons_iff.mp hviews with ⟨red, others, hrows, hred, hothers⟩
  rcases List.map_eq_cons_iff.mp hothers with ⟨blue, last, hblues, hblue, hlast⟩
  rcases List.map_eq_cons_iff.mp hlast with ⟨green, nothing, hgreens, hgreen, hnothing⟩
  simp only [Prod.mk.injEq, decide_eq_true_eq] at hred hblue hgreen
  have hmem : ∀ row, row = red ∨ row = blue ∨ row = green →
      row ∈ (after.tables .container).rows := by
    rw [hrows, hblues, hgreens]
    rintro row (rfl | rfl | rfl) <;> simp
  have hrun : Guarded boot (Admits (after.tables .container).rows) []
      [(red, 0), (blue, 1), (green, 0)] := by
    refine ⟨⟨hmem red (by simp), by simp, by simp⟩, ⟨hmem blue (by simp), ?_, ?_⟩,
      ⟨hmem green (by simp), ?_, ?_⟩, trivial⟩
    · simp [boot, hred.1, hblue.1]
    · simp [boot]
    · simp [boot, hred.1, hblue.1, hgreen.1]
    · intro running _ _ label haffinity
      rw [hgreen.2.2] at haffinity
      exact absurd haffinity (Finset.notMem_empty _)
  have hcluster : [(green, 0), (blue, 1), (red, 0)] ∈
      states boot [] [(red, 0), (blue, 1), (green, 0)] := by
    simp [states, boot]
  have hone : (red, 0) ∈ [(green, 0), (blue, 1), (red, 0)] := by simp
  have hother : (green, 0) ∈ [(green, 0), (blue, 1), (red, 0)] := by simp
  have hdistinct : red.ID ≠ green.ID := by simp [hred.1, hgreen.1]
  exact ⟨red, blue, green, hcluster,
    exclusive_enforced hnew hafter hrun hcluster hnames (p := 0) (q := 1) (by decide) rfl rfl
      hone hother hdistinct rfl⟩

end Swarm
end Di
