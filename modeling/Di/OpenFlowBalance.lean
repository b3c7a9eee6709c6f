import Di.OpenFlow

/-!
# Load balancing

The packets to a label with several containers pass two tables.  A rule of the first one
stores a hash modulo the number of addresses in a register; for each value of the register a
rule of the second one sets the address of one container.  Every address gets one value, and
the slice of the register holds all of them.
-/

namespace Di
namespace OpenFlow

open Db
open Lang (intText)
open LogicalPorts (labelMac)

/-! ## Rules -/

theorem Flow.rule_eq {flow : Flow} {table : String} {fields actions : List String}
    (hne : flow.actions ≠ []) (hplain : ∀ action ∈ flow.actions, IsAction action.text.toList)
    (htable : "table=" ++ intText flow.table = table)
    (hfields : flow.fields.map Field.text = fields)
    (hactions : flow.actions.map Action.text = actions) :
    flow.rule = ⟨table, joinSorted fields, joinSorted actions⟩ := by
  have hparts : ∀ rule : OFRule, rule = ⟨rule.table, rule.matchText, rule.actions⟩ :=
    fun _ => rfl
  rw [hparts flow.rule, Flow.rule_actions hne hplain, ← htable, ← hfields, ← hactions]
  rfl

/-! ## The rules of a label -/

def multipathRule (ip : String) (n k : ℕ) : OFRule where
  table := "table=0"
  matchText := joinSorted ["priority=4000", "dl_dst=0a:00:00:00:00:00", "ip", "nw_dst=" ++ ip]
  actions := joinSorted ["multipath(symmetric_l3l4,0,modulo_n," ++ intText n ++
    ",0,NXM_NX_REG0[" ++ registerSlice k ++ "])", "resubmit(,1)"]

def pickRule (ip : String) (mac : String) (i : ℕ) : OFRule where
  table := "table=1"
  matchText := joinSorted ["priority=5000", "ip", "nw_dst=" ++ ip,
    "reg0=" ++ if i = 0 then "0" else "0x" ++ hexText i]
  actions := joinSorted ["mod_dl_dst:" ++ mac, "resubmit(,2)"]

theorem Field.text_nwDst (ip : String) : (Field.nwDst ip).text = "nw_dst=" ++ ip := by
  have hname : "nw_dst" ++ "=" = "nw_dst=" := by decide
  exact congrArg (· ++ ip) hname

theorem Field.text_reg0 (i : ℕ) :
    (Field.reg0 i).text = "reg0=" ++ if i = 0 then "0" else "0x" ++ hexText i := by
  have hname : "reg0" ++ "=" = "reg0=" := by decide
  have hvalue : regText i = if i = 0 then "0" else "0x" ++ hexText i := by
    unfold regText
    split
    next hzero =>
      subst hzero
      decide
    next => rfl
  rw [← hvalue]
  exact congrArg (· ++ regText i) hname

theorem Field.text_ip : (Field.protocol .ip).text = "ip" := rfl

theorem balance_rule (ip : String) (n : ℕ) :
    (balance ip n).rule = multipathRule ip n (Nat.clog 2 n) := by
  have hpriority : (Field.priority 4000).text = "priority=4000" := by decide
  have hmac : (Field.dlDst labelMac).text = "dl_dst=0a:00:00:00:00:00" := by decide
  have htable : "table=" ++ intText (0 : ℕ) = "table=0" := by decide
  have hresubmit : (Action.resubmit 1).text = "resubmit(,1)" := by decide
  apply Flow.rule_eq
  · simp [balance]
  · simp only [balance, List.forall_mem_cons]
    exact ⟨isAction_multipath n, isAction_resubmit 1, by simp⟩
  · exact htable
  · simp only [balance, List.map_cons, List.map_nil, hpriority, hmac, Field.text_ip,
      Field.text_nwDst]
  · simp only [balance, List.map_cons, List.map_nil, hresubmit]
    rfl

theorem pick_rule (ip : String) {mac : String} (hmac : IsAddress mac) (i : ℕ) :
    (pick ip (mac, i)).rule = pickRule ip mac i := by
  have hpriority : (Field.priority 5000).text = "priority=5000" := by decide
  have htable : "table=" ++ intText (1 : ℕ) = "table=1" := by decide
  have hresubmit : (Action.resubmit 2).text = "resubmit(,2)" := by decide
  apply Flow.rule_eq
  · simp [pick]
  · simp only [pick, List.forall_mem_cons]
    exact ⟨isAction_modDlDst hmac, isAction_resubmit 2, by simp⟩
  · exact htable
  · simp only [pick, List.map_cons, List.map_nil, hpriority, Field.text_ip, Field.text_nwDst,
      Field.text_reg0]
  · simp only [pick, List.map_cons, List.map_nil, hresubmit]
    rfl

/-! ## The target -/

section Target

variable {ovs : Ovs} {containers : List Container} {connections : List Connection}
  {front back : List Label} {label : Label}

theorem generateTargetOpenFlow_eq_ok {labels : List Label} {rules : List OFRule} :
    generateTargetOpenFlow ovs containers labels connections = .ok rules ↔
      ∃ flows, Outcome.collect (containerFlows ovs connections) containers = .ok flows ∧
        Outcome.collect makeTargetRule
          (flows.flatten ++ labels.flatMap (labelFlows ovs containers)) = .ok rules :=
  Outcome.bind_eq_ok

theorem mem_labelMacs {name mac : String} :
    mac ∈ labelMacs containers name ↔ ∃ dbc ∈ containers, name ∈ dbc.labels ∧ dbc.mac = mac := by
  simp [labelMacs, and_assoc]

/-- The addresses in the order of their register values. -/
def registerMacs (ovs : Ovs) (containers : List Container) (label : Label) : List String :=
  sortStrings ((ovs.macOrder label).visit (labelMacs containers label.label))

theorem registerMacs_perm (ovs : Ovs) (containers : List Container) (label : Label) :
    (registerMacs ovs containers label).Perm (labelMacs containers label.label) :=
  (sortStrings_perm _).trans ((ovs.macOrder label).perm _)

def balanceRules (ip : String) (macs : List String) : List OFRule :=
  multipathRule ip macs.length (Nat.clog 2 macs.length) ::
    macs.zipIdx.map fun entry => pickRule ip entry.1 entry.2

theorem labelFlows_eq
    (hlabel : ¬(label.multiHost = false ∨ labelMacs containers label.label = [])) :
    labelFlows ovs containers label =
      balance label.ip (labelMacs containers label.label).length ::
        (registerMacs ovs containers label).zipIdx.map (pick label.ip) := by
  rw [labelFlows, if_neg hlabel]
  rfl

theorem collect_labelFlows (ovs : Ovs) (hmulti : label.multiHost = true)
    (hne : labelMacs containers label.label ≠ []) (hip : IsAddress label.ip)
    (hmacs : ∀ dbc ∈ containers, label.label ∈ dbc.labels → IsAddress dbc.mac) :
    Outcome.collect makeTargetRule (labelFlows ovs containers label) =
      .ok (balanceRules label.ip (registerMacs ovs containers label)) := by
  have hplain : ∀ flow ∈ labelFlows ovs containers label,
      makeTargetRule flow = .ok flow.rule := by
    intro flow hflow
    exact makeTargetRule_plain (plain_of_mem_labelFlows hip.isWord
      (fun dbc hdbc hlabel => (hmacs dbc hdbc hlabel).isWord) hflow)
  have hskip : ¬(label.multiHost = false ∨ labelMacs containers label.label = []) := by
    simp [hmulti, hne]
  have hperm := registerMacs_perm ovs containers label
  have hpicks : ((registerMacs ovs containers label).zipIdx.map (pick label.ip)).map Flow.rule =
      (registerMacs ovs containers label).zipIdx.map
        fun entry => pickRule label.ip entry.1 entry.2 := by
    rw [List.map_map]
    apply List.map_congr_left
    rintro ⟨mac, i⟩ hentry
    apply pick_rule
    have hmac := hperm.mem_iff.mp (List.fst_mem_of_mem_zipIdx hentry)
    obtain ⟨dbc, hdbc, hlabel, rfl⟩ := mem_labelMacs.mp hmac
    exact hmacs dbc hdbc hlabel
  rw [Outcome.collect_eq_map hplain, balanceRules, hperm.length_eq, ← hpicks, ← balance_rule,
    labelFlows_eq hskip, List.map_cons]

/-- The rules that a run appends for one label. -/
theorem run_appends {rules : List OFRule} (hmulti : label.multiHost = true)
    (hne : labelMacs containers label.label ≠ []) (hip : IsAddress label.ip)
    (hmacs : ∀ dbc ∈ containers, label.label ∈ dbc.labels → IsAddress dbc.mac)
    (hrun : generateTargetOpenFlow ovs containers (front ++ label :: back) connections =
      .ok rules) :
    ∃ before after,
      rules = before ++ balanceRules label.ip (registerMacs ovs containers label) ++ after ∧
      generateTargetOpenFlow ovs containers front connections = .ok before ∧
      generateTargetOpenFlow ovs containers (front ++ [label]) connections =
        .ok (before ++ balanceRules label.ip (registerMacs ovs containers label)) := by
  obtain ⟨flows, hflows, hrules⟩ := generateTargetOpenFlow_eq_ok.mp hrun
  have hlabel := collect_labelFlows ovs hmulti hne hip hmacs
  rw [List.flatMap_append, List.flatMap_cons, ← List.append_assoc,
    Outcome.collect_append_eq_ok] at hrules
  obtain ⟨before, rest, hbefore, hrest, rfl⟩ := hrules
  obtain ⟨block, after, hblock, hafter, rfl⟩ := Outcome.collect_append_eq_ok.mp hrest
  rw [hlabel] at hblock
  cases hblock
  refine ⟨before, after, (List.append_assoc _ _ _).symm, ?_, ?_⟩
  · exact generateTargetOpenFlow_eq_ok.mpr ⟨flows, hflows, hbefore⟩
  · refine generateTargetOpenFlow_eq_ok.mpr ⟨flows, hflows, ?_⟩
    rw [List.flatMap_append, List.flatMap_singleton, ← List.append_assoc]
    exact Outcome.collect_append_eq_ok.mpr ⟨before, _, hbefore, hlabel, rfl⟩

/-- Every address of a label gets one value of the register, and the slice holds them. -/
theorem generateTargetOpenFlow_balances (hmulti : label.multiHost = true)
    (hcontainers : ∃ dbc ∈ containers, label.label ∈ dbc.labels) (hip : IsAddress label.ip)
    (hmacs : ∀ dbc ∈ containers, label.label ∈ dbc.labels → IsAddress dbc.mac) :
    (Spelled ovs containers (front ++ label :: back) →
      (∀ dbc ∈ containers, ∃ ofDI ofVeth, Wired ovs dbc ofDI ofVeth) →
      ∃ rules, generateTargetOpenFlow ovs containers (front ++ label :: back) connections =
        .ok rules) ∧
    ∀ rules, generateTargetOpenFlow ovs containers (front ++ label :: back) connections =
        .ok rules →
      ∃ (before : List OFRule) (macs : List String) (k : ℕ) (after : List OFRule),
        macs ≠ [] ∧ macs.Nodup ∧
        (∀ mac, mac ∈ macs ↔ ∃ dbc ∈ containers, label.label ∈ dbc.labels ∧ dbc.mac = mac) ∧
        rules = before ++ (multipathRule label.ip macs.length k ::
          macs.zipIdx.map fun entry => pickRule label.ip entry.1 entry.2) ++ after ∧
        generateTargetOpenFlow ovs containers front connections = .ok before ∧
        generateTargetOpenFlow ovs containers (front ++ [label]) connections =
          .ok (before ++ (multipathRule label.ip macs.length k ::
            macs.zipIdx.map fun entry => pickRule label.ip entry.1 entry.2)) ∧
        macs.length - 1 < 2 ^ (k + 1) := by
  obtain ⟨dbc, hdbc, hlabel⟩ := hcontainers
  have hne : labelMacs containers label.label ≠ [] :=
    List.ne_nil_of_mem (mem_labelMacs.mpr ⟨dbc, hdbc, hlabel, rfl⟩)
  refine ⟨fun hspelled hwired => exists_run hspelled hwired, ?_⟩
  intro rules hrun
  obtain ⟨before, after, hrules, hbefore, hblock⟩ := run_appends hmulti hne hip hmacs hrun
  have hperm := registerMacs_perm ovs containers label
  refine ⟨before, registerMacs ovs containers label, _, after, ?_, ?_, ?_, hrules, hbefore,
    hblock, ?_⟩
  · exact fun hnil => hne (hnil ▸ hperm).symm.eq_nil
  · exact hperm.nodup_iff.mpr (List.nodup_dedup _)
  · intro mac
    rw [hperm.mem_iff, mem_labelMacs]
  · have hpow := Nat.le_pow_clog (b := 2) (by norm_num) (registerMacs ovs containers label).length
    have hpos := Nat.two_pow_pos (Nat.clog 2 (registerMacs ovs containers label).length)
    rw [pow_succ]
    omega

end Target

theorem generateTargetOpenFlow_balances_bridge :
    ∃ (before : List OFRule) (macs : List String) (k : ℕ) (after : List OFRule),
      macs.Nodup ∧ macs.length = 2 ∧
      generateTargetOpenFlow bridge [red, blue] allLabel [] =
        .ok (before ++ (multipathRule "10.0.0.5" 2 k ::
          macs.zipIdx.map fun entry => pickRule "10.0.0.5" entry.1 entry.2) ++ after) ∧
      2 - 1 < 2 ^ (k + 1) := by
  have hmacs : ∀ dbc ∈ [red, blue], "all" ∈ dbc.labels → IsAddress dbc.mac := by decide
  have hbalances := @generateTargetOpenFlow_balances bridge [red, blue] [] [] []
    { ID := 3, label := "all", ip := "10.0.0.5", multiHost := true } rfl
    ⟨red, by simp, by decide⟩ (by decide) hmacs
  obtain ⟨rules, hrun⟩ := hbalances.1 addressed_bridge.toSpelled (by
    rw [List.forall_mem_cons, List.forall_mem_singleton]
    exact ⟨⟨1, 2, wired_red⟩, 3, 4, wired_blue⟩)
  obtain ⟨before, macs, k, after, _, hnodup, hmem, hrules, _, _, hwide⟩ := hbalances.2 rules hrun
  have htwo : macs.length = 2 := by
    have hperm : macs.Perm [red.mac, blue.mac] := by
      refine (List.perm_ext_iff_of_nodup hnodup (by decide)).mpr fun mac => ?_
      rw [hmem mac]
      simp [red, blue, eq_comm]
    exact hperm.length_eq
  rw [htwo] at hrules hwide
  exact ⟨before, macs, k, after, hnodup, htwo, hrules ▸ hrun, hwide⟩

end OpenFlow
end Di
