import Di.KeyJoin
import Di.IpTables
import Di.OpenFlow

/-!
# Installing flows

A worker reads the flows of its bridge, compares them with the target and deletes and adds
what differs, through the commands of Open vSwitch.  What is assumed of these is said in
`Shell.Switches`: a bridge identifies a flow by its table and its fields, adding a flow replaces
the one with the same fields, a strict deletion names them, and the flows are printed in a
form of the bridge's own.

One pass leaves exactly the rules of the target, as the bridge prints them, unless two of them
replace each other.  The flows settle only if the bridge prints all rules as they were written,
which it does not do with those for packets from the public internet.
-/

namespace Di
namespace OpenFlow

open Db Join
open IpTables (trimSpace words)
open Lang (intText)

/-! ## A pass -/

/-- The processes that run in a container or on a host: what one prints, or how its failure is
reported, and the state after it. -/
structure Shell (σ : Type) where
  exec : List String → σ → Except String String × σ

section Commands

variable {σ : Type} (sh : Shell σ)

def dumpFlows : List String := words "ovs-ofctl dump-flows di-int"

def generateCurrentOpenFlow (dumped : Except String String) : Outcome String (List OFRule) :=
  match dumped with
  | .error stdout => .error ("Failed to list OpenFlow flows: " ++ stdout)
  | .ok stdout =>
      -- the first line isn't a flow
      Outcome.collect
        (fun line =>
          match makeOFRule (trimSpace line) with
          | .error err => .error ("failed to make OpenFlow rule: " ++ err)
          | made => made)
        (scanLines stdout).tail

inductive FlowCommand
  | del (rule : OFRule)
  | add (rule : OFRule)
  deriving DecidableEq, Repr

def deleteOFRule (flow : OFRule) : List String :=
  words ("ovs-ofctl del-flows --strict di-int " ++ flow.table ++ "," ++ flow.matchText)

def addOFRule (flow : OFRule) : List String :=
  words ("ovs-ofctl add-flow di-int " ++ flow.table ++ "," ++ flow.matchText ++ ",actions=" ++
    flow.actions)

/-- The command line in the container of Open vSwitch. -/
def FlowCommand.args : FlowCommand → List String
  | .del rule => deleteOFRule rule
  | .add rule => addOFRule rule

def ruleScore (left right : OFRule) : ℤ :=
  if left.table = right.table ∧ left.matchText = right.matchText ∧ left.actions = right.actions
  then 0 else -1

def flowCommands (current targets : List OFRule) : List FlowCommand :=
  let joined := join ruleScore current targets
  joined.lonelyLefts.map .del ++ joined.lonelyRights.map .add

/-- Failures are logged. -/
def runCommands (s : σ) (commands : List FlowCommand) : σ :=
  commands.foldl (fun s command => (sh.exec command.args s).2) s

/-- The commands of a pass and the state after it.  A failure to find out the target or the flows
ends the pass; `none` is a panic. -/
def updateOpenFlow (target : Outcome String (List OFRule)) (s : σ) :
    Option (List FlowCommand × σ) :=
  match target with
  | .ok targets =>
      let dumped := sh.exec dumpFlows s
      match generateCurrentOpenFlow dumped.1 with
      | .ok current =>
          let commands := flowCommands current targets
          some (commands, runCommands sh dumped.2 commands)
      | .error _ => some ([], dumped.2)
      | _ => none
  | .error _ => some ([], s)
  | _ => none

end Commands

theorem ruleScore_eq : ruleScore = keyMatch id id := by
  funext left right
  obtain ⟨table, matchText, actions⟩ := left
  obtain ⟨table', matchText', actions'⟩ := right
  simp [ruleScore, keyMatch]

/-- A pass has nothing to do exactly if the flows are those of the target. -/
theorem flowCommands_eq_nil_iff {current targets : List OFRule} :
    flowCommands current targets = [] ↔ current.Perm targets := by
  have hlefts := count_lonelyLefts id id current targets
  have hrights := count_lonelyRights id id current targets
  rw [← ruleScore_eq, List.map_id, List.map_id, List.map_id] at hlefts hrights
  rw [flowCommands, List.append_eq_nil_iff, List.map_eq_nil_iff, List.map_eq_nil_iff,
    List.perm_iff_count]
  constructor
  · rintro ⟨hleft, hright⟩ rule
    have hless := hlefts rule
    have hmore := hrights rule
    rw [hleft, List.count_nil] at hless
    rw [hright, List.count_nil] at hmore
    omega
  · intro hequal
    simp only [List.eq_nil_iff_forall_not_mem, ← List.count_eq_zero, hlefts, hrights, hequal,
      Nat.sub_self, implies_true, and_self]

/-! ## What a bridge prints -/

theorem SameMatch.refl (rule : OFRule) : SameMatch rule rule := ⟨rfl, fun _ => Iff.rfl⟩

theorem SameMatch.symm {rule other : OFRule} (hsame : SameMatch rule other) :
    SameMatch other rule :=
  ⟨hsame.1.symm, fun field => (hsame.2 field).symm⟩

theorem SameMatch.trans {rule other third : OFRule} (hsame : SameMatch rule other)
    (hthird : SameMatch other third) : SameMatch rule third :=
  ⟨hsame.1.trans hthird.1, fun field => (hsame.2 field).trans (hthird.2 field)⟩

/-- A rule whose match lists each of its fields once, in sorted order. -/
def OFRule.Normal (rule : OFRule) : Prop :=
  ∃ fields : List String, fields ≠ [] ∧ fields.Nodup ∧ (∀ field ∈ fields, IsWord field) ∧
    rule.matchText = joinSorted fields

theorem fields_of_joinSorted {rule : OFRule} {fields : List String} (hne : fields ≠ [])
    (hwords : ∀ field ∈ fields, IsWord field) (htext : rule.matchText = joinSorted fields) :
    rule.fields = sortStrings fields := by
  rw [OFRule.fields, htext, joinSorted]
  exact splitCommas_join (sortStrings_ne_nil hne)
    fun field hfield => (forall_mem_sortStrings hwords field hfield).2

/-- Rules in normal form that match the same packets are written alike. -/
theorem OFRule.Normal.matchText_eq {rule other : OFRule} (hrule : rule.Normal)
    (hother : other.Normal) (hsame : SameMatch rule other) :
    rule.matchText = other.matchText := by
  obtain ⟨fields, hne, hnodup, hwords, htext⟩ := hrule
  obtain ⟨fields', hne', hnodup', hwords', htext'⟩ := hother
  have hperm : fields.Perm fields' := by
    refine (List.perm_ext_iff_of_nodup hnodup hnodup').mpr fun field => ?_
    have hfield := hsame.2 field
    rwa [fields_of_joinSorted hne hwords htext, fields_of_joinSorted hne' hwords' htext',
      (sortStrings_perm fields).mem_iff, (sortStrings_perm fields').mem_iff] at hfield
  rw [htext, htext', joinSorted_eq_of_perm hperm]

/-- A line of `ovs-ofctl dump-flows`: statistics, then the fields and the actions of the
flow, in any order. -/
structure Shows (line : String) (rule : OFRule) : Prop where
  isLine : IsLine line
  shown : ∃ (table : String) (fields actions : List String),
    NamesTable (trimSpace line) table ∧ EndsIn (trimSpace line) fields actions ∧
    fields ≠ [] ∧ fields.Nodup ∧ (∀ field ∈ fields, IsWord field) ∧
    actions ≠ [] ∧ (∀ action ∈ actions, IsAction action.toList) ∧
    rule = ⟨"table=" ++ table, joinSorted fields, joinSorted actions⟩

theorem Shows.normal {line : String} {rule : OFRule} (hshows : Shows line rule) : rule.Normal := by
  obtain ⟨table, fields, actions, _, _, hne, hnodup, hwords, _, _, rfl⟩ := hshows.shown
  exact ⟨fields, hne, hnodup, hwords, rfl⟩

/-- Rules in normal form that match the same packets and do the same with them are equal. -/
theorem OFRule.Normal.eq_of_sameMatch {rule other : OFRule} (hrule : rule.Normal)
    (hother : other.Normal) (hsame : SameMatch rule other)
    (hactions : rule.actions = other.actions) : rule = other := by
  have htext := hrule.matchText_eq hother hsame
  cases rule
  cases other
  simp only [OFRule.mk.injEq]
  exact ⟨hsame.1, htext, hactions⟩

theorem Shows.makeOFRule {line : String} {rule : OFRule} (hshows : Shows line rule) :
    makeOFRule (trimSpace line) = .ok rule := by
  obtain ⟨table, fields, actions, htable, hends, hne, _, hwords, hactions_ne, hactions, rfl⟩ :=
    hshows.shown
  exact makeOFRule_eq htable hends hne hwords hactions_ne hactions

/-- The output of `ovs-ofctl dump-flows` for a bridge with these rules, in any order. -/
def Dumps (stdout : String) (rules : List OFRule) : Prop :=
  ∃ (header : String) (lines : List String) (listed : List OFRule),
    stdout = unlines (header :: lines) ∧ IsLine header ∧ List.Forall₂ Shows lines listed ∧
      listed.Perm rules

theorem collect_shows {lines : List String} {rules : List OFRule}
    (hshows : List.Forall₂ Shows lines rules) :
    Outcome.collect
      (fun line =>
        match makeOFRule (trimSpace line) with
        | .error err => .error ("failed to make OpenFlow rule: " ++ err)
        | made => made) lines = (.ok rules : Outcome String (List OFRule)) := by
  induction hshows with
  | nil => rfl
  | cons hshow _ ih =>
      refine Outcome.collect_cons_eq_ok.mpr ⟨_, _, ?_, ih, rfl⟩
      rw [hshow.makeOFRule]

theorem forall_of_shows {lines : List String} {rules : List OFRule}
    (hshows : List.Forall₂ Shows lines rules) :
    (∀ line ∈ lines, IsLine line) ∧ ∀ rule ∈ rules, rule.Normal := by
  induction hshows with
  | nil => simp
  | cons hshow _ ih =>
      exact ⟨List.forall_mem_cons.mpr ⟨hshow.isLine, ih.1⟩,
        List.forall_mem_cons.mpr ⟨hshow.normal, ih.2⟩⟩

/-- What the bridge prints is read back as its rules. -/
theorem Dumps.read {stdout : String} {rules : List OFRule} (hdumps : Dumps stdout rules) :
    ∃ current, generateCurrentOpenFlow (.ok stdout) = .ok current ∧ current.Perm rules := by
  obtain ⟨header, lines, listed, rfl, hheader, hshows, hperm⟩ := hdumps
  refine ⟨listed, ?_, hperm⟩
  rw [generateCurrentOpenFlow,
    scanLines_unlines (List.forall_mem_cons.mpr ⟨hheader, (forall_of_shows hshows).1⟩),
    List.tail_cons]
  exact collect_shows hshows

theorem Dumps.normal {stdout : String} {rules : List OFRule} (hdumps : Dumps stdout rules) :
    ∀ rule ∈ rules, rule.Normal := by
  obtain ⟨header, lines, listed, -, -, hshows, hperm⟩ := hdumps
  exact fun rule hrule => (forall_of_shows hshows).2 rule (hperm.mem_iff.mpr hrule)

/-! ## The flows after a pass -/

section Pass

variable {σ : Type}

/-- What a pass over a target relies on.  A state of Open vSwitch holds the rules that its bridge
prints, and `printed` is the form in which a rule is printed once it was added. -/
structure Shell.Switches (sh : Shell σ) (holds : σ → List OFRule → Prop)
    (printed : OFRule → OFRule) (targets : List OFRule) : Prop where
  dump : ∀ {s rules}, holds s rules → ∃ stdout after, sh.exec dumpFlows s = (.ok stdout, after) ∧
    Dumps stdout rules ∧ holds after rules
  apart : ∀ {s rules}, holds s rules → rules.Pairwise fun rule other => ¬SameMatch rule other
  /-- A rule that was printed is printed in the same form if it is added again. -/
  again : ∀ {s rules}, holds s rules → ∀ rule ∈ rules, printed rule = rule
  sameMatch : ∀ rule ∈ targets, SameMatch rule (printed rule)
  add : ∀ {s rules}, holds s rules → ∀ rule ∈ targets, ∃ rules',
    holds (sh.exec (addOFRule rule) s).2 rules' ∧
      ∀ other, other ∈ rules' ↔ other ∈ rules ∧ ¬SameMatch rule other ∨ other = printed rule
  del : ∀ {s rules s₀ rules₀}, holds s rules → holds s₀ rules₀ → ∀ rule ∈ rules₀, ∃ rules',
    holds (sh.exec (deleteOFRule rule) s).2 rules' ∧
      ∀ other, other ∈ rules' ↔ other ∈ rules ∧ ¬SameMatch rule other

variable {sh : Shell σ} {holds : σ → List OFRule → Prop} {printed : OFRule → OFRule}
  {targets : List OFRule} (hsw : sh.Switches holds printed targets) {s : σ} {rules : List OFRule}
include hsw

namespace Shell.Switches

theorem eq_of_sameMatch (hholds : holds s rules) {rule other : OFRule} (hrule : rule ∈ rules)
    (hother : other ∈ rules) (hsame : SameMatch rule other) : rule = other := by
  by_contra hne
  have hsymm : Std.Symm fun rule other : OFRule => ¬SameMatch rule other :=
    ⟨fun _ _ hapart hsame => hapart hsame.symm⟩
  exact (hsw.apart hholds).forall hrule hother hne hsame

theorem nodup (hholds : holds s rules) : rules.Nodup := by
  refine (hsw.apart hholds).imp ?_
  rintro rule _ hapart rfl
  exact hapart (SameMatch.refl rule)

theorem normal (hholds : holds s rules) : ∀ rule ∈ rules, rule.Normal := by
  obtain ⟨stdout, -, -, hdumps, -⟩ := hsw.dump hholds
  exact hdumps.normal

theorem run_dels (hholds : holds s rules) {dels : List OFRule} {s₀ : σ} {rules₀ : List OFRule}
    (hold : holds s₀ rules₀) (hdels : ∀ del ∈ dels, del ∈ rules₀) :
    ∃ rules', holds (runCommands sh s (dels.map .del)) rules' ∧
      ∀ rule, rule ∈ rules' ↔ rule ∈ rules ∧ ∀ del ∈ dels, ¬SameMatch del rule := by
  induction dels generalizing s rules with
  | nil => exact ⟨rules, hholds, by simp⟩
  | cons del rest ih =>
      rw [List.forall_mem_cons] at hdels
      obtain ⟨left, hleft, hmem⟩ := hsw.del hholds hold del hdels.1
      obtain ⟨rules', hrules', hmem'⟩ := ih hleft hdels.2
      refine ⟨rules', hrules', fun rule => ?_⟩
      rw [hmem', hmem, List.forall_mem_cons, and_assoc]

theorem run_adds (hholds : holds s rules) {adds : List OFRule}
    (hadds : ∀ add ∈ adds, add ∈ targets)
    (hold : ∀ add ∈ adds, ∀ other ∈ rules, SameMatch add other → other = printed add)
    (hnew : ∀ add ∈ adds, ∀ other ∈ adds, SameMatch add other → printed other = printed add) :
    ∃ rules', holds (runCommands sh s (adds.map .add)) rules' ∧
      ∀ rule, rule ∈ rules' ↔ rule ∈ rules ∨ ∃ add ∈ adds, printed add = rule := by
  induction adds generalizing s rules with
  | nil => exact ⟨rules, hholds, by simp⟩
  | cons add rest ih =>
      rw [List.forall_mem_cons] at hadds hold
      obtain ⟨more, hmore, hmem⟩ := hsw.add hholds add hadds.1
      have hadded : ∀ other, other ∈ more ↔ other ∈ rules ∨ other = printed add := by
        intro other
        rw [hmem]
        constructor
        · exact fun hother => hother.imp_left And.left
        · rintro (hrule | hother)
          · by_cases hsame : SameMatch add other
            · exact .inr (hold.1 other hrule hsame)
            · exact .inl ⟨hrule, hsame⟩
          · exact .inr hother
      obtain ⟨rules', hrules', hmem'⟩ := ih hmore hadds.2
        (by
          intro later hlater other hother hsame
          rcases (hadded other).mp hother with hrule | rfl
          · exact hold.2 later hlater other hrule hsame
          · refine hnew later (List.mem_cons_of_mem add hlater) add List.mem_cons_self ?_
            exact hsame.trans (hsw.sameMatch add hadds.1).symm)
        (fun later hlater other hother => hnew later (List.mem_cons_of_mem add hlater) other
          (List.mem_cons_of_mem add hother))
      refine ⟨rules', hrules', fun rule => ?_⟩
      rw [hmem', hadded, List.exists_mem_cons_iff, or_assoc, eq_comm (a := rule)]

/-- The rules after the commands of a pass, whatever is added. -/
theorem exists_run_flowCommands (hholds : holds s rules) {current : List OFRule}
    (hcurrent : current.Perm rules) :
    ∃ rules', holds (runCommands sh s (flowCommands current targets)) rules' := by
  have hadds : ∀ (adds : List OFRule) {s : σ} {rules : List OFRule}, holds s rules →
      (∀ add ∈ adds, add ∈ targets) →
      ∃ rules', holds (runCommands sh s (adds.map .add)) rules' := by
    intro adds
    induction adds with
    | nil => exact fun hholds _ => ⟨_, hholds⟩
    | cons add rest ih =>
        intro s rules hholds hmem
        rw [List.forall_mem_cons] at hmem
        obtain ⟨more, hmore, -⟩ := hsw.add hholds add hmem.1
        exact ih hmore hmem.2
  obtain ⟨kept, hkept, -⟩ := @run_dels _ _ _ _ _ hsw s rules hholds
    (join ruleScore current targets).lonelyLefts s rules hholds fun del hdel =>
      hcurrent.mem_iff.mp ((join_lonelyLefts_sublist ruleScore current targets).subset hdel)
  rw [flowCommands, runCommands, List.foldl_append]
  exact hadds _ hkept fun add hadd => join_lonelyRight_mem ruleScore hadd

/-- A pass leaves exactly the target, if no two of its rules replace each other. -/
theorem run_flowCommands (hholds : holds s rules) {current : List OFRule}
    (hcurrent : current.Perm rules)
    (hagree : ∀ rule ∈ targets, ∀ other ∈ targets, SameMatch rule other →
      printed rule = printed other) :
    ∃ rules', holds (runCommands sh s (flowCommands current targets)) rules' ∧
      ∀ rule, rule ∈ rules' ↔ ∃ target ∈ targets, printed target = rule := by
  have hnodup : (current.map id).Nodup := by
    rw [List.map_id, hcurrent.nodup_iff]
    exact hsw.nodup hholds
  have hlefts : ∀ del, del ∈ (join ruleScore current targets).lonelyLefts ↔
      del ∈ rules ∧ del ∉ targets := by
    intro del
    rw [ruleScore_eq, mem_lonelyLefts_iff hnodup, hcurrent.mem_iff, List.map_id]
    rfl
  have hrights : ∀ add ∈ (join ruleScore current targets).lonelyRights, add ∈ targets :=
    fun add hadd => join_lonelyRight_mem ruleScore hadd
  obtain ⟨kept, hkept, hmem⟩ := hsw.run_dels hholds hholds fun del hdel => ((hlefts del).mp hdel).1
  -- what is left is in the target, and printed as it is
  have hleft : ∀ rule, rule ∈ kept ↔ rule ∈ rules ∧ rule ∈ targets := by
    intro rule
    rw [hmem]
    constructor
    · rintro ⟨hrule, hapart⟩
      refine ⟨hrule, ?_⟩
      by_contra hstale
      exact hapart rule ((hlefts rule).mpr ⟨hrule, hstale⟩) (SameMatch.refl rule)
    · rintro ⟨hrule, htarget⟩
      refine ⟨hrule, fun del hdel hsame => ?_⟩
      obtain ⟨hold, hstale⟩ := (hlefts del).mp hdel
      exact hstale (hsw.eq_of_sameMatch hholds hold hrule hsame ▸ htarget)
  obtain ⟨rules', hrules', hmem'⟩ := hsw.run_adds hkept hrights
    (by
      intro add hadd other hother hsame
      obtain ⟨hrule, htarget⟩ := (hleft other).mp hother
      rw [hagree add (hrights add hadd) other htarget hsame, hsw.again hholds other hrule])
    (fun add hadd other hother hsame =>
      hagree other (hrights other hother) add (hrights add hadd) hsame.symm)
  refine ⟨rules', ?_, fun rule => ?_⟩
  · rw [flowCommands, runCommands, List.foldl_append]
    exact hrules'
  · rw [hmem', hleft]
    constructor
    · rintro (⟨hrule, htarget⟩ | ⟨add, hadd, hprinted⟩)
      · exact ⟨rule, htarget, hsw.again hholds rule hrule⟩
      · exact ⟨add, hrights add hadd, hprinted⟩
    · rintro ⟨target, htarget, rfl⟩
      by_cases hold : target ∈ rules
      · rw [hsw.again hholds target hold]
        exact .inl ⟨hold, htarget⟩
      · refine .inr ⟨target, ?_, rfl⟩
        rw [ruleScore_eq]
        apply mem_lonelyRights_of_not_mem htarget
        rw [List.map_id, hcurrent.mem_iff]
        exact hold

/-- A rule of the target is in normal form once it is printed. -/
theorem printed_normal (hholds : holds s rules) {target : OFRule} (htarget : target ∈ targets) :
    (printed target).Normal := by
  obtain ⟨rules', hrules', hmem⟩ := hsw.add hholds target htarget
  exact hsw.normal hrules' _ ((hmem _).mpr (.inr rfl))

theorem printed_sameMatch_iff {rule other : OFRule} (hrule : rule ∈ targets)
    (hother : other ∈ targets) :
    SameMatch (printed rule) (printed other) ↔ SameMatch rule other := by
  have hleft := hsw.sameMatch rule hrule
  have hright := hsw.sameMatch other hother
  exact ⟨fun hsame => (hleft.trans hsame).trans hright.symm,
    fun hsame => (hleft.symm.trans hsame).trans hright⟩

theorem agree_of_not_conflict (hholds : holds s rules)
    (hagree : ∀ rule ∈ targets, ∀ other ∈ targets, ¬Conflict (printed rule) (printed other)) :
    ∀ rule ∈ targets, ∀ other ∈ targets, SameMatch rule other → printed rule = printed other := by
  intro rule hrule other hother hsame
  have hprinted := (hsw.printed_sameMatch_iff hrule hother).mpr hsame
  refine (hsw.printed_normal hholds hrule).eq_of_sameMatch (hsw.printed_normal hholds hother)
    hprinted ?_
  by_contra hne
  exact hagree rule hrule other hother ⟨hprinted, hne⟩

/-- The commands of a pass over a bridge. -/
theorem updateOpenFlow_eq (hholds : holds s rules) :
    ∃ current after, current.Perm rules ∧ holds after rules ∧
      updateOpenFlow sh (.ok targets) s =
        some (flowCommands current targets,
          runCommands sh after (flowCommands current targets)) := by
  obtain ⟨stdout, after, hexec, hdumps, hafter⟩ := hsw.dump hholds
  obtain ⟨current, hread, hcurrent⟩ := hdumps.read
  refine ⟨current, after, hcurrent, hafter, ?_⟩
  simp only [updateOpenFlow, hexec, hread]

end Shell.Switches

end Pass

/-! ## The target of a worker -/

/-- A bare port number is an output. -/
def Action.canonical : Action → Action
  | .port number => .output number
  | action => action

def Flow.canonical (flow : Flow) : Flow :=
  { flow with actions := flow.actions.map Action.canonical }

namespace Station

variable {s : Station} (hfrom : s.portsFromWeb = []) (hto : s.portsToWeb = [])
include hfrom hto

/-- The flows of a container that has nothing to do with the public internet. -/
theorem flows_of_private :
    s.flows = [s.forward, s.balanced, s.back, s.arpOut, s.arpIn s.mac] := by
  simp [flows, webRules, hfrom, hto]

theorem canonical_of_private : ∀ flow ∈ s.flows, flow.canonical = flow := by
  have harp : s.arpOut = ⟨0, [.priority 4500, .protocol .arp, .inPort s.ofVeth],
      [.output s.ofDI]⟩ := by
    simp [arpOut, arpDst, hfrom, hto]
  rw [flows_of_private hfrom hto, harp]
  simp [forward, balanced, back, arpIn, Flow.canonical, Action.canonical]

theorem apart_of_private (hports : s.ofDI ≠ s.ofVeth) :
    s.flows.Pairwise fun flow other => ¬flow.Overlaps other := by
  have hfields : ∀ {flow other : Flow} (field : Field), field ∈ flow.fields →
      field ∉ other.fields → ¬flow.Overlaps other :=
    fun field hfield hother hover => hother ((hover.2 field).mp hfield)
  rw [flows_of_private hfrom hto]
  simp only [List.pairwise_cons, List.forall_mem_cons, List.not_mem_nil, false_implies,
    implies_true, and_true, List.Pairwise.nil]
  refine ⟨⟨?_, ?_, ?_, ?_⟩, ⟨?_, ?_, ?_⟩, ⟨?_, ?_⟩, ?_⟩
  · exact fun hover => absurd hover.1 (by simp [forward, balanced])
  · exact hfields (.inPort s.ofDI) (by simp [forward]) (by simp [back, hports])
  · exact hfields (.inPort s.ofDI) (by simp [forward]) (by simp [arpOut, hports])
  · exact hfields (.inPort s.ofDI) (by simp [forward]) (by simp [arpIn])
  · exact fun hover => absurd hover.1 (by simp [balanced, back])
  · exact fun hover => absurd hover.1 (by simp [balanced, arpOut])
  · exact fun hover => absurd hover.1 (by simp [balanced, arpIn])
  · exact hfields (.priority 0) (by simp [back]) (by simp [arpOut])
  · exact hfields (.priority 0) (by simp [back]) (by simp [arpIn])
  · exact hfields (.inPort s.ofVeth) (by simp [arpOut]) (by simp [arpIn])

end Station

theorem Station.ingressRule_mem {s : Station} {port : ℤ}
    (hport : port ∈ s.portsFromWeb ∨ port ∈ s.portsToWeb) :
    s.ingressRule .tcp (.tpDst port) ∈ s.flows ∨ s.ingressRule .tcp (.tpSrc port) ∈ s.flows := by
  rcases hport with hport | hport
  · left
    simp only [flows, List.mem_append, webRules, List.mem_flatMap]
    exact .inl (.inl (.inl (.inl (.inr ⟨port, hport, .tcp, by simp, by simp⟩))))
  · right
    simp only [flows, List.mem_append, webRules, List.mem_flatMap]
    exact .inl (.inl (.inl (.inr ⟨port, hport, .tcp, by simp, by simp⟩)))

/-- The rule for packets from the public internet is not printed as it is written. -/
theorem Station.canonical_ingressRule_ne (s : Station) (protocol : Protocol) (port : Field) :
    (s.ingressRule protocol port).canonical.rule ≠ (s.ingressRule protocol port).rule := by
  intro heq
  have hwritten : (s.ingressRule protocol port).rule.actions = (Action.port s.ofVeth).text :=
    Flow.rule_action rfl (.inl ⟨intText_ne_nil s.ofVeth, isAddress_intText s.ofVeth⟩)
  have hprinted : (s.ingressRule protocol port).canonical.rule.actions =
      "output:" ++ intText s.ofVeth := Flow.rule_action rfl (isAction_output s.ofVeth)
  have hletter : 'o' ∈ ("output:" ++ intText s.ofVeth).toList := by
    rw [String.toList_append]
    exact List.mem_append_left _ (by decide)
  rw [← hprinted, heq, hwritten] at hletter
  exact Lang.not_mem_intText s.ofVeth (by decide) (by decide) hletter

section Worker

variable {ovs : Ovs} {containers : List Container} {labels : List Label}
  {connections : List Connection} {targets : List OFRule}

/-- No container may exchange packets with the public internet. -/
def Private (containers : List Container) (connections : List Connection) : Prop :=
  ∀ dbc ∈ containers, portsFromWeb connections dbc = [] ∧ portsToWeb connections dbc = []

instance : Decidable (Private containers connections) :=
  inferInstanceAs (Decidable (∀ dbc ∈ containers, _))

theorem labelFlows_canonical {label : Label} :
    ∀ flow ∈ labelFlows ovs containers label, flow.canonical = flow := by
  intro flow hflow
  rcases mem_labelFlows hflow with rfl | ⟨entry, -, rfl⟩
  · rfl
  · rfl

theorem labelFlows_apart (label : Label) :
    (labelFlows ovs containers label).Pairwise fun flow other => ¬flow.Overlaps other := by
  simp only [labelFlows]
  split
  · exact .nil
  · refine .cons ?_ ?_
    · intro flow hflow hover
      obtain ⟨entry, -, rfl⟩ := List.mem_map.mp hflow
      exact absurd hover.1 (by simp [balance, pick])
    · rw [List.pairwise_map]
      refine (List.pairwise_map.mp (List.nodup_zipIdx_map_snd _)).imp ?_
      intro entry other hne hover
      have hindex : entry.2 = other.2 := by
        simpa [pick] using hover.2 (.reg0 entry.2)
      exact hne hindex

theorem private_station (hprivate : Private containers connections) {dbc : Container}
    (hdbc : dbc ∈ containers) (ofDI ofVeth : ℤ) :
    (station ovs connections dbc ofDI ofVeth).portsFromWeb = [] ∧
      (station ovs connections dbc ofDI ofVeth).portsToWeb = [] := by
  obtain ⟨hfrom, hto⟩ := hprivate dbc hdbc
  exact ⟨List.Perm.eq_nil (hfrom ▸ (ovs.fromWebOrder dbc).perm _),
    List.Perm.eq_nil (hto ▸ (ovs.toWebOrder dbc).perm _)⟩

theorem target_canonical (hprivate : Private containers connections) {flow : Flow}
    (htarget : Target ovs containers labels connections flow) : flow.canonical = flow := by
  cases htarget with
  | container dbc hdbc ofDI ofVeth hwired hflow =>
      obtain ⟨hfrom, hto⟩ := @private_station ovs _ _ hprivate dbc hdbc ofDI ofVeth
      exact Station.canonical_of_private hfrom hto flow hflow
  | label label hlabel hflow => exact labelFlows_canonical flow hflow

/-- No rule of the target occurs twice. -/
theorem targets_nodup (haddressed : Addressed ovs containers labels)
    (hprivate : Private containers connections)
    (hrun : generateTargetOpenFlow ovs containers labels connections = .ok targets) :
    targets.Nodup := by
  obtain ⟨flowLists, hcollect, -⟩ := Outcome.bind_eq_ok.mp hrun
  rw [generateTargetOpenFlow_eq_map haddressed.toSpelled hcollect] at hrun
  cases hrun
  have hplain : ∀ flow ∈ flowLists.flatten ++ labels.flatMap (labelFlows ovs containers),
      flow.Plain :=
    fun flow hflow => ((mem_target hcollect).mp hflow).plain haddressed.toSpelled
  have hcontainers : containers.Pairwise (· ≠ ·) := List.Nodup.of_map _ haddressed.macs
  have hlabels : labels.Pairwise fun label other => label.ip ≠ other.ip :=
    List.pairwise_map.mp haddressed.ips
  have happart : (flowLists.flatten ++ labels.flatMap (labelFlows ovs containers)).Pairwise
      fun flow other => ¬flow.Overlaps other := by
    rw [List.pairwise_append, List.pairwise_flatten, List.pairwise_flatMap]
    refine ⟨⟨?_, ?_⟩, ⟨fun label _ => labelFlows_apart label, ?_⟩, ?_⟩
    · intro flows hflows
      obtain ⟨dbc, hdbc, hok⟩ := ((Outcome.mem_collect hcollect).1 flows).mp hflows
      obtain ⟨ofDI, ofVeth, hwired, rfl⟩ := containerFlows_eq_ok.mp hok
      obtain ⟨hfrom, hto⟩ := @private_station ovs _ _ hprivate dbc hdbc ofDI ofVeth
      exact Station.apart_of_private hfrom hto (haddressed.di_ne_veth hdbc hwired)
    · refine Outcome.pairwise_collect hcontainers hcollect ?_
      intro dbc hdbc other hother flows flows' hne hok hok' flow hflow flow' hflow' hover
      obtain ⟨ofDI, ofVeth, hwired, rfl⟩ := containerFlows_eq_ok.mp hok
      obtain ⟨ofDI', ofVeth', hwired', rfl⟩ := containerFlows_eq_ok.mp hok'
      rcases Station.shared_of_overlaps hflow hflow' hover with
        ⟨port, hport, hport'⟩ | ⟨mac, hmac, hmac'⟩
      · exact haddressed.ports_disjoint hdbc hother hne hwired hwired' hport hport'
      · have hfrom := (@private_station ovs _ _ hprivate dbc hdbc ofDI ofVeth).1
        have hfrom' := (@private_station ovs _ _ hprivate other hother ofDI' ofVeth').1
        simp only [Station.Listens, hfrom, hfrom', ne_eq, not_true_eq_false, and_false,
          or_false] at hmac hmac'
        exact hne (List.inj_on_of_nodup_map haddressed.macs hdbc hother (hmac.symm.trans hmac'))
    · refine hlabels.imp ?_
      intro label other hne flow hflow flow' hflow' hover
      have hmem := (hover.2 _).mp ((mem_nwDst_labelFlows hflow).mpr rfl)
      exact hne ((mem_nwDst_labelFlows hflow').mp hmem)
    · intro flow hflow flow' hflow' hover
      obtain ⟨label, hlabel, hmem'⟩ := List.mem_flatMap.mp hflow'
      obtain ⟨flows, hflows, hmem⟩ := List.mem_flatten.mp hflow
      obtain ⟨dbc, hdbc, hok⟩ := ((Outcome.mem_collect hcollect).1 flows).mp hflows
      obtain ⟨ofDI, ofVeth, hwired, rfl⟩ := containerFlows_eq_ok.mp hok
      exact Station.nwDst_not_mem _ flow hmem
        ((hover.2 _).mpr ((mem_nwDst_labelFlows hmem').mpr rfl))
  rw [List.Nodup, List.pairwise_map]
  refine happart.imp_of_mem ?_
  intro flow other hflow hother hnot heq
  exact hnot (((hplain flow hflow).sameMatch_iff (hplain other hother)).mp
    (heq ▸ SameMatch.refl flow.rule))

/-- The bridge prints the target as it is written only if no packets from the public internet
are to be let in. -/
theorem printed_eq_iff (haddressed : Addressed ovs containers labels)
    (hrun : generateTargetOpenFlow ovs containers labels connections = .ok targets)
    {printed : OFRule → OFRule}
    (hprinted : ∀ flow, Target ovs containers labels connections flow →
      printed flow.rule = flow.canonical.rule) :
    (∀ target ∈ targets, printed target = target) ↔ Private containers connections := by
  obtain ⟨hwired, hrules⟩ := run_cases haddressed hrun
  constructor
  · intro hsame dbc hdbc
    obtain ⟨ofDI, ofVeth, hdbcWired⟩ := hwired dbc hdbc
    have hnone : ∀ port, port ∉ portsFromWeb connections dbc ∧
        port ∉ portsToWeb connections dbc := by
      intro port
      rw [← not_or]
      intro hport
      have hvisit : port ∈ (station ovs connections dbc ofDI ofVeth).portsFromWeb ∨
          port ∈ (station ovs connections dbc ofDI ofVeth).portsToWeb := by
        simpa only [station, IterOrder.mem_visit] using hport
      have hwritten : ∀ flow ∈ (station ovs connections dbc ofDI ofVeth).flows,
          flow.canonical.rule = flow.rule := by
        intro flow hflow
        have htarget : Target ovs containers labels connections flow :=
          .container dbc hdbc ofDI ofVeth hdbcWired hflow
        rw [← hprinted flow htarget]
        exact hsame _ ((hrules _).mpr ⟨flow, htarget, rfl⟩)
      rcases Station.ingressRule_mem hvisit with hmem | hmem
      · exact Station.canonical_ingressRule_ne _ _ _ (hwritten _ hmem)
      · exact Station.canonical_ingressRule_ne _ _ _ (hwritten _ hmem)
    exact ⟨List.eq_nil_iff_forall_not_mem.mpr fun port => (hnone port).1,
      List.eq_nil_iff_forall_not_mem.mpr fun port => (hnone port).2⟩
  · intro hprivate target htarget
    obtain ⟨flow, hflow, rfl⟩ := (hrules target).mp htarget
    rw [hprinted flow hflow, target_canonical hprivate hflow]

/-- One pass leaves exactly the rules of the target, as they are printed, if and only if no two
of these conflict.  Then a further pass has nothing to do if and only if no container may exchange
packets with the public internet, as the rules that let these in are printed in another form. -/
theorem updateOpenFlow_installs_iff {σ : Type} {sh : Shell σ} {holds : σ → List OFRule → Prop}
    {printed : OFRule → OFRule}
    (hrun : generateTargetOpenFlow ovs containers labels connections = .ok targets)
    (hsw : sh.Switches holds printed targets) {s : σ} {rules : List OFRule}
    (hholds : holds s rules) :
    ∃ commands after final,
      updateOpenFlow sh (generateTargetOpenFlow ovs containers labels connections) s =
        some (commands, after) ∧ holds after final ∧
      ((∀ rule, rule ∈ final ↔ ∃ target ∈ targets, printed target = rule) ↔
        ∀ rule ∈ targets, ∀ other ∈ targets, ¬Conflict (printed rule) (printed other)) ∧
      (Addressed ovs containers labels →
        (∀ flow, Target ovs containers labels connections flow →
          printed flow.rule = flow.canonical.rule) →
        (∀ rule ∈ targets, ∀ other ∈ targets, ¬Conflict (printed rule) (printed other)) →
        ((∃ last, updateOpenFlow sh (generateTargetOpenFlow ovs containers labels connections)
            after = some ([], last)) ↔ Private containers connections)) := by
  obtain ⟨current, dumped, hcurrent, hdumped, hupdate⟩ := hsw.updateOpenFlow_eq hholds
  simp only [hrun]
  by_cases hagree : ∀ rule ∈ targets, ∀ other ∈ targets, ¬Conflict (printed rule) (printed other)
  · obtain ⟨final, hfinal, hmem⟩ := hsw.run_flowCommands hdumped hcurrent
      (hsw.agree_of_not_conflict hholds hagree)
    refine ⟨_, _, final, hupdate, hfinal, ⟨fun _ => hagree, fun _ => hmem⟩, ?_⟩
    intro haddressed hprinted _
    obtain ⟨current', dumped', hcurrent', hdumped', hupdate'⟩ := hsw.updateOpenFlow_eq hfinal
    have hnothing : (∃ last, updateOpenFlow sh (.ok targets)
        (runCommands sh dumped (flowCommands current targets)) = some ([], last)) ↔
        current'.Perm targets := by
      rw [hupdate', ← flowCommands_eq_nil_iff]
      simp only [Option.some.injEq, Prod.mk.injEq, exists_and_left, exists_eq', and_true]
    rw [hnothing, ← printed_eq_iff haddressed hrun hprinted]
    constructor
    · intro hperm target htarget
      exact hsw.again hfinal target ((hcurrent'.symm.trans hperm).mem_iff.mpr htarget)
    · intro hsame
      have hprivate := (printed_eq_iff haddressed hrun hprinted).mp hsame
      refine hcurrent'.trans ((List.perm_ext_iff_of_nodup (hsw.nodup hfinal)
        (targets_nodup haddressed hprivate hrun)).mpr fun rule => ?_)
      rw [hmem]
      constructor
      · rintro ⟨target, htarget, rfl⟩
        exact (hsame target htarget).symm ▸ htarget
      · exact fun hrule => ⟨rule, hrule, hsame rule hrule⟩
  · obtain ⟨final, hfinal⟩ := hsw.exists_run_flowCommands hdumped hcurrent
    refine ⟨_, _, final, hupdate, hfinal, ⟨fun hmem => ?_, fun h => absurd h hagree⟩,
      fun _ _ h => absurd h hagree⟩
    intro rule hrule other hother hconflict
    have heq := hsw.eq_of_sameMatch hfinal ((hmem _).mpr ⟨rule, hrule, rfl⟩)
      ((hmem _).mpr ⟨other, hother, rfl⟩) hconflict.1
    exact hconflict.2 (heq ▸ rfl)

end Worker

/-! ## A bridge -/

instance (rule other : OFRule) : Decidable (SameMatch rule other) :=
  decidable_of_iff (rule.table = other.table ∧ rule.fields.toFinset = other.fields.toFinset)
    (by simp [SameMatch, Finset.ext_iff])

/-- A bare number is printed as an output. -/
def printedRule (rule : OFRule) : OFRule :=
  if rule.actions.toList.all Char.isDigit then { rule with actions := "output:" ++ rule.actions }
  else rule

/-- A bridge that reads the commands for these targets. -/
def idealBridge (targets : List OFRule) : Shell (List OFRule) where
  exec := fun args rules =>
    match targets.find? fun rule => addOFRule rule = args with
    | some rule =>
        (.ok "", rules.filter (fun other => ¬SameMatch rule other) ++ [printedRule rule])
    | none =>
        if args = dumpFlows then
          (.ok (unlines ("NXST_FLOW reply (xid=0x4):" :: rules.map OFRule.line)), rules)
        else (.ok "", rules.filter fun other => deleteOFRule other ≠ args)

/-- A rule that is printed and read as it is. -/
structure OFRule.Clear (rule : OFRule) : Prop where
  shows : Shows rule.line rule
  printed : printedRule rule = rule
  table : ',' ∉ rule.table.toList

structure Held (s rules : List OFRule) : Prop where
  eq : rules = s
  apart : s.Pairwise fun rule other => ¬SameMatch rule other
  clear : ∀ rule ∈ s, rule.Clear

theorem SameMatch.printedRule (rule : OFRule) : SameMatch rule (printedRule rule) := by
  unfold OpenFlow.printedRule
  split
  · exact ⟨rfl, fun _ => .rfl⟩
  · exact .refl rule

section Args

variable (rule other : OFRule)

theorem dumpFlows_eq : dumpFlows = ["ovs-ofctl", "dump-flows", "di-int"] := by decide

theorem addOFRule_eq :
    addOFRule rule = "ovs-ofctl" :: "add-flow" :: words ("di-int " ++ rule.table ++ "," ++
      rule.matchText ++ ",actions=" ++ rule.actions) := by
  have hstart : "ovs-ofctl add-flow di-int " =
      "ovs-ofctl" ++ " " ++ ("add-flow" ++ " " ++ "di-int ") := by decide
  rw [addOFRule, hstart]
  simp only [String.append_assoc]
  rw [← String.append_assoc, IpTables.words_blank (by decide), ← String.append_assoc,
    IpTables.words_blank (by decide)]

theorem deleteOFRule_eq :
    deleteOFRule rule = "ovs-ofctl" :: "del-flows" :: words ("--strict di-int " ++ rule.table ++
      "," ++ rule.matchText) := by
  have hstart : "ovs-ofctl del-flows --strict di-int " =
      "ovs-ofctl" ++ " " ++ ("del-flows" ++ " " ++ "--strict di-int ") := by decide
  rw [deleteOFRule, hstart]
  simp only [String.append_assoc]
  rw [← String.append_assoc, IpTables.words_blank (by decide), ← String.append_assoc,
    IpTables.words_blank (by decide)]

variable {rule other}

/-- A strict deletion names the table and the fields. -/
theorem deleteOFRule_eq_iff (hrule : rule.Clear) (hother : other.Clear) :
    deleteOFRule other = deleteOFRule rule ↔ SameMatch rule other := by
  constructor
  · intro heq
    have htext := congrArg (" ".intercalate ·) heq
    simp only [deleteOFRule, IpTables.unwords_words, String.append_assoc,
      String.append_right_inj] at htext
    have hsplit := congrArg (fun text : String => text.toList.splitOn ',') htext
    simp only [String.toList_append] at hsplit
    have hcomma : ",".toList = [','] := by decide
    simp only [hcomma, List.singleton_append,
      List.splitOn_append_cons_self_of_not_mem hrule.table,
      List.splitOn_append_cons_self_of_not_mem hother.table, List.cons.injEq,
      String.toList_inj] at hsplit
    refine ⟨hsplit.1.symm, fun field => ?_⟩
    rw [OFRule.fields, OFRule.fields, splitCommas, splitCommas, hsplit.2]
  · intro hsame
    rw [deleteOFRule, deleteOFRule, hsame.1,
      hrule.shows.normal.matchText_eq hother.shows.normal hsame]

end Args

theorem find?_add_eq_none {targets : List OFRule} {args : List String}
    (hargs : args[1]? ≠ some "add-flow") :
    targets.find? (fun rule => addOFRule rule = args) = none := by
  rw [List.find?_eq_none]
  intro rule _ heq
  rw [decide_eq_true_eq, addOFRule_eq] at heq
  exact hargs (heq ▸ rfl)

section Ideal

variable {targets : List OFRule} (rules : List OFRule)

theorem exec_dump :
    (idealBridge targets).exec dumpFlows rules =
      (.ok (unlines ("NXST_FLOW reply (xid=0x4):" :: rules.map OFRule.line)), rules) := by
  have hfind := @find?_add_eq_none targets dumpFlows (by rw [dumpFlows_eq]; decide)
  simp only [idealBridge, hfind, if_true]

theorem exec_add (hnodup : (targets.map addOFRule).Nodup) {rule : OFRule}
    (hrule : rule ∈ targets) :
    ((idealBridge targets).exec (addOFRule rule) rules).2 =
      rules.filter (fun other => ¬SameMatch rule other) ++ [printedRule rule] := by
  have hfind : targets.find? (fun other => addOFRule other = addOFRule rule) = some rule := by
    cases hfound : targets.find? (fun other => addOFRule other = addOFRule rule) with
    | none => exact absurd (List.find?_eq_none.mp hfound rule hrule) (by simp)
    | some found =>
        have hsame : addOFRule found = addOFRule rule := by
          simpa only [decide_eq_true_eq] using List.find?_some hfound
        rw [List.inj_on_of_nodup_map hnodup (List.mem_of_find?_eq_some hfound) hrule hsame]
  simp only [idealBridge, hfind]

theorem exec_del (rule : OFRule) :
    ((idealBridge targets).exec (deleteOFRule rule) rules).2 =
      rules.filter fun other => deleteOFRule other ≠ deleteOFRule rule := by
  have hargs : (deleteOFRule rule)[1]? = some "del-flows" := by
    rw [deleteOFRule_eq]
    rfl
  have hfind := @find?_add_eq_none targets (deleteOFRule rule) (by rw [hargs]; decide)
  have hdump : deleteOFRule rule ≠ dumpFlows := by
    intro heq
    rw [heq, dumpFlows_eq] at hargs
    exact absurd hargs (by decide)
  simp only [idealBridge, hfind, if_neg hdump]

end Ideal

theorem idealBridge_switches {targets : List OFRule} (hnodup : (targets.map addOFRule).Nodup)
    (hclear : ∀ target ∈ targets, (printedRule target).Clear) :
    (idealBridge targets).Switches Held printedRule targets where
  dump := by
    rintro _ rules ⟨rfl, hapart, hheld⟩
    refine ⟨_, _, exec_dump rules, ⟨_, rules.map OFRule.line, rules, rfl, by decide, ?_, .refl _⟩,
      rfl, hapart, hheld⟩
    rw [List.forall₂_map_left_iff, List.forall₂_same]
    exact fun rule hrule => (hheld rule hrule).shows
  apart := fun hheld => hheld.eq ▸ hheld.apart
  again := fun hheld rule hrule => (hheld.clear rule (hheld.eq ▸ hrule)).printed
  sameMatch := fun rule _ => .printedRule rule
  add := by
    rintro _ rules ⟨rfl, hapart, hheld⟩ rule hrule
    rw [exec_add rules hnodup hrule]
    refine ⟨_, ⟨rfl, ?_, ?_⟩, fun other => by simp⟩
    · refine List.pairwise_append.mpr ⟨hapart.filter _, List.pairwise_singleton _ _, ?_⟩
      intro other hother added hadded hsame
      rw [List.mem_singleton] at hadded
      rw [List.mem_filter, decide_eq_true_eq] at hother
      subst hadded
      exact hother.2 ((SameMatch.printedRule rule).trans hsame.symm)
    · rw [List.forall_mem_append, List.forall_mem_singleton]
      exact ⟨fun other hother => hheld other (List.mem_of_mem_filter hother), hclear rule hrule⟩
  del := by
    rintro _ rules _ rules₀ ⟨rfl, hapart, hheld⟩ ⟨rfl, -, hheld₀⟩ rule hrule
    rw [exec_del]
    refine ⟨_, ⟨rfl, hapart.filter _, fun other hother =>
      hheld other (List.mem_of_mem_filter hother)⟩, fun other => ?_⟩
    rw [List.mem_filter, decide_eq_true_eq]
    refine and_congr_right fun hother => not_congr ?_
    exact deleteOFRule_eq_iff (hheld₀ rule hrule) (hheld other hother)

theorem Flow.clear {flow : Flow} (hplain : flow.Plain) (hnodup : flow.fields.Nodup)
    (hactions : ∀ action ∈ flow.actions, IsAction action.text.toList)
    (hline : trimSpace flow.rule.line = flow.rule.line ∧ IsLine flow.rule.line)
    (hprinted : printedRule flow.rule = flow.rule) : flow.rule.Clear where
  shows := by
    have hwords : ∀ text ∈ flow.fields.map Field.text, IsWord text := by
      intro text htext
      obtain ⟨field, hfield, rfl⟩ := List.mem_map.mp htext
      exact (hplain.fields field hfield).isWord_text
    have hdigits : (intText flow.table).toList ≠ [] ∧
        ∀ c ∈ (intText flow.table).toList, c.isDigit = true := by
      rw [Lang.intText_natCast, String.toList_ofList]
      exact ⟨Lang.natChars_ne_nil _, fun c hc => Lang.isDigit_of_mem_natChars hc⟩
    have htexts : ∀ text ∈ flow.actions.map Action.text, IsAction text.toList := by
      simpa using hactions
    have hrule : flow.rule = ⟨"table=" ++ intText flow.table,
        joinSorted (sortStrings (flow.fields.map Field.text)),
        joinSorted (sortStrings (flow.actions.map Action.text))⟩ := by
      rw [joinSorted_eq_of_perm (sortStrings_perm _), joinSorted_eq_of_perm (sortStrings_perm _),
        ← Flow.rule_actions hplain.actions_ne_nil hactions]
      rfl
    refine ⟨hline.2, intText flow.table, sortStrings (flow.fields.map Field.text),
      sortStrings (flow.actions.map Action.text), ?_, ?_, ?_, ?_, forall_mem_sortStrings hwords, ?_,
      forall_mem_sortStrings htexts, hrule⟩
    · rw [hline.1, OFRule.line, String.append_assoc, String.append_assoc]
      exact namesTable_line hdigits.1 hdigits.2 _
    · rw [hline.1]
      refine .inr ⟨"table=" ++ intText flow.table, ?_⟩
      rw [hrule, OFRule.line]
      simp only [joinSorted_eq_of_perm (sortStrings_perm _)]
      rfl
    · exact sortStrings_ne_nil (by simpa using hplain.fields_ne_nil)
    · rw [(sortStrings_perm _).nodup_iff]
      exact hnodup.map fun _ _ htext => Field.eq_of_text_eq htext
    · exact sortStrings_ne_nil (by simpa using hplain.actions_ne_nil)
  printed := hprinted
  table := by
    have htable : flow.rule.table = "table=" ++ intText flow.table := rfl
    rw [htable, String.toList_append, List.mem_append, not_or]
    exact ⟨by decide, Lang.not_mem_intText _ (by decide) (by decide)⟩

/-! ## A container on its own -/

theorem Station.fields_nodup (s : Station) : ∀ flow ∈ s.flows, flow.fields.Nodup := by
  apply forall_flows
  · simp [forward]
  · simp [balanced]
  · simp [back]
  · simp [egressRule]
  · simp [ingressRule]
  · simp [icmpOut]
  · simp [icmpIn]
  · simp [arpIn]
  · simp [arpOut]
  · simp [arpIn]

theorem isAction_toLocal : IsAction Action.toLocal.text.toList :=
  .inl ⟨by decide, show IsAddress "LOCAL" by decide⟩

theorem Station.canonical_actions (s : Station) :
    ∀ flow ∈ s.flows, ∀ action ∈ flow.canonical.actions, IsAction action.text.toList := by
  apply forall_flows
  · simp [forward, Flow.canonical, Action.canonical, isAction_output]
  · simp [balanced, Flow.canonical, Action.canonical, isAction_output]
  · simp [back, Flow.canonical, Action.canonical, isAction_output]
  · simp [egressRule, Flow.canonical, Action.canonical, isAction_toLocal]
  · simp [ingressRule, Flow.canonical, Action.canonical, isAction_output]
  · simp [icmpOut, Flow.canonical, Action.canonical, isAction_toLocal]
  · simp [icmpIn, Flow.canonical, Action.canonical, isAction_output]
  · simp [arpIn, Flow.canonical, Action.canonical, isAction_output]
  · simp only [arpOut, Flow.canonical, arpDst]
    split <;> simp [Action.canonical, isAction_output, isAction_toLocal]
  · simp [arpIn, Flow.canonical, Action.canonical, isAction_output]

theorem Flow.Plain.canonical {flow : Flow} (hplain : flow.Plain) : flow.canonical.Plain where
  fields_ne_nil := hplain.fields_ne_nil
  actions_ne_nil := by simpa [Flow.canonical] using hplain.actions_ne_nil
  fields := hplain.fields
  actions := by
    intro action haction
    obtain ⟨written, hwritten, rfl⟩ := List.mem_map.mp haction
    have hwritten := hplain.actions written hwritten
    cases written <;> exact hwritten

/-- The target does not conflict in its printed form either, if at most one container is open to
the public internet. -/
theorem not_conflict_printed {ovs : Ovs} {containers : List Container} {labels : List Label}
    {connections : List Connection} {targets : List OFRule}
    (haddressed : Addressed ovs containers labels)
    (hrun : generateTargetOpenFlow ovs containers labels connections = .ok targets)
    (happart : ∀ dbc ∈ containers, ∀ other ∈ containers, dbc ≠ other →
      OpenToPublic connections dbc →
        ¬OpenToPublic connections other ∧ other.mac ≠ broadcastMac)
    {printed : OFRule → OFRule}
    (hprinted : ∀ flow, Target ovs containers labels connections flow →
      printed flow.rule = flow.canonical.rule) :
    ∀ rule ∈ targets, ∀ other ∈ targets, ¬Conflict (printed rule) (printed other) := by
  obtain ⟨-, hrules⟩ := run_cases haddressed hrun
  intro rule hrule other hother hconflict
  obtain ⟨flow, hflow, rfl⟩ := (hrules rule).mp hrule
  obtain ⟨flow', hflow', rfl⟩ := (hrules other).mp hother
  rw [hprinted flow hflow, hprinted flow' hflow',
    (hflow.plain haddressed.toSpelled).canonical.conflict_iff
      (hflow'.plain haddressed.toSpelled).canonical] at hconflict
  apply hconflict.2
  have hactions := hflow.actions_eq haddressed happart hflow' hconflict.1
  rw [Flow.rule, Flow.rule, Flow.actionsText, Flow.actionsText, Flow.canonical, Flow.canonical,
    hactions]

def redStation : Station := station bridge [] red 1 2

def redTargets : List OFRule := redStation.flows.map Flow.rule

theorem addressed_red : Addressed bridge [red] [] where
  gatewayWord := by decide
  macWords := by decide
  ipWords := by decide
  macs := by decide
  ports := by decide
  ips := by decide

theorem generateTargetOpenFlow_red :
    generateTargetOpenFlow bridge [red] [] [] = .ok redTargets := by
  have hcollect : Outcome.collect (containerFlows bridge []) [red] =
      .ok [redStation.flows] :=
    Outcome.collect_cons_eq_ok.mpr
      ⟨_, [], containerFlows_eq_ok.mpr ⟨1, 2, wired_red, rfl⟩, rfl, rfl⟩
  rw [generateTargetOpenFlow_eq_map addressed_red.toSpelled hcollect]
  simp [redTargets]

theorem redStation_lines :
    ∀ flow ∈ redStation.flows, printedRule flow.rule = flow.canonical.rule ∧
      printedRule flow.canonical.rule = flow.canonical.rule ∧
      trimSpace flow.canonical.rule.line = flow.canonical.rule.line ∧
      IsLine flow.canonical.rule.line := by decide +kernel

theorem target_red_mem {flow : Flow} (htarget : Target bridge [red] [] [] flow) :
    flow ∈ redStation.flows := by
  cases htarget with
  | container dbc hdbc ofDI ofVeth hwired hflow =>
      rw [List.mem_singleton] at hdbc
      subst hdbc
      obtain rfl := Option.some.inj (wired_red.di.symm.trans hwired.di)
      obtain rfl := Option.some.inj (wired_red.veth.symm.trans hwired.veth)
      exact hflow
  | label label hlabel _ => exact absurd hlabel List.not_mem_nil

theorem redTargets_switches :
    (idealBridge redTargets).Switches Held printedRule redTargets := by
  refine idealBridge_switches (by decide +kernel) ?_
  intro target htarget
  obtain ⟨flow, hflow, rfl⟩ := List.mem_map.mp htarget
  obtain ⟨hprinted, hagain, hline⟩ := redStation_lines flow hflow
  have hplain : flow.Plain := Station.plain_of_mem (by decide) (by decide) flow hflow
  rw [hprinted]
  exact Flow.clear hplain.canonical (Station.fields_nodup _ flow hflow)
    (Station.canonical_actions _ flow hflow) hline hagain

/-- A flow of a container that is gone. -/
def staleFlow : Flow := ⟨0, [.priority 5000, .inPort 9], [.output 8]⟩

theorem held_stale : Held [staleFlow.rule] [staleFlow.rule] where
  eq := rfl
  apart := List.pairwise_singleton _ _
  clear := by
    rw [List.forall_mem_singleton]
    refine Flow.clear ⟨by simp [staleFlow], by simp [staleFlow], ?_, ?_⟩ (by decide) ?_
      (by decide +kernel) (by decide +kernel)
    · simp [staleFlow, Field.Plain]
    · simp [staleFlow, Action.Plain]
    · simp [staleFlow, isAction_output]

theorem updateOpenFlow_installs_iff_stale :
    ∃ commands after final,
      updateOpenFlow (idealBridge redTargets) (generateTargetOpenFlow bridge [red] [] [])
        [staleFlow.rule] = some (commands, after) ∧ Held after final ∧
      (∀ rule, rule ∈ final ↔ ∃ target ∈ redTargets, printedRule target = rule) ∧
      ∃ last, updateOpenFlow (idealBridge redTargets)
        (generateTargetOpenFlow bridge [red] [] []) after = some ([], last) := by
  obtain ⟨commands, after, final, hupdate, hheld, hinstalls, hsettles⟩ :=
    updateOpenFlow_installs_iff generateTargetOpenFlow_red redTargets_switches held_stale
  have hprinted : ∀ flow, Target bridge [red] [] [] flow →
      printedRule flow.rule = flow.canonical.rule :=
    fun flow hflow => (redStation_lines flow (target_red_mem hflow)).1
  have hagree := not_conflict_printed addressed_red generateTargetOpenFlow_red (by decide) hprinted
  refine ⟨commands, after, final, hupdate, hheld, hinstalls.mpr hagree, ?_⟩
  rw [hsettles addressed_red hprinted hagree]
  decide

end OpenFlow
end Di
