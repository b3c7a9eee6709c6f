import Di.Database
import Di.Join
import Di.NumberText

/-!
# Firewall rules

The leader translates the connections into access control rules of OVN: by
default all IP traffic is dropped, and for every connection and every container
that carries its source label one match admits the packets to the address of
the target label and another one the replies.

Two things are shown.  The rules admit exactly the traffic of the connections,
and all matches are well formed, exactly if every container that may connect and
every label it may connect to has an address.  Bringing the rules of OVN in line
with the generated ones succeeds exactly if for each generated rule there is at
most one row that a deletion could confuse with it, and this row is the rule.
-/

namespace Di
namespace NetworkAcl

open Db Join
open Lang (intText intText_injective not_mem_intText)

/-- The columns of a row of OVN. -/
structure Acl where
  priority : ℤ
  direction : String
  matchText : String
  action : String
  log : Bool := false
  deriving DecidableEq, Repr

/-! ## The generated rules -/

/-- `labelIPMap`. -/
def labelIP (labels : List Label) : String → Option String :=
  labels.foldl (fun known l => Function.update known l.label (some l.ip)) fun _ => none

/-- `labelDbcMap`: a container is listed once for each time it carries the label. -/
def labelDbcs (containers : List Container) (label : String) : List Container :=
  containers.flatMap fun dbc => (dbc.labels.filter (· = label)).map fun _ => dbc

/-- One allowed direction between two addresses. -/
structure Flow where
  src : String
  dst : String
  low : ℤ
  high : ℤ
  reply : Bool
  deriving DecidableEq, Repr

def Flow.port (flow : Flow) : String := if flow.reply then "src" else "dst"

def Flow.tokens (flow : Flow) : List String :=
  ["ip4.src==" ++ flow.src, "&&", "ip4.dst==" ++ flow.dst, "&&", "(icmp", "||",
    intText flow.low, "<=", "udp." ++ flow.port, "<=", intText flow.high, "||",
    intText flow.low, "<=", "tcp." ++ flow.port, "<=", intText flow.high ++ ")"]

def Flow.text (flow : Flow) : String := " ".intercalate flow.tokens

def connectionFlows (labels : List Label) (conn : Connection) (dbc : Container) : List Flow :=
  let toIP := (labelIP labels conn.toLabel).getD ""
  [⟨dbc.ip, toIP, conn.minPort, conn.maxPort, false⟩,
    ⟨toIP, dbc.ip, conn.minPort, conn.maxPort, true⟩]

def flows (connections : List Connection) (labels : List Label) (containers : List Container) :
    List Flow :=
  connections.flatMap fun conn =>
    (labelDbcs containers conn.fromLabel).flatMap (connectionFlows labels conn)

def directions : List String := ["to-lport", "from-lport"]

def dropACLs : List Acl := directions.map fun direction => ⟨0, direction, "ip", "drop", false⟩

def allowACLs (text : String) : List Acl :=
  directions.map fun direction => ⟨1, direction, text, "allow", false⟩

/-- The set of matches is traversed in an arbitrary order. -/
def targetACLs (order : IterOrder String) (connections : List Connection)
    (labels : List Label) (containers : List Container) : List Acl :=
  let matchSet := ((flows connections labels containers).map Flow.text).dedup
  dropACLs ++ (order.visit matchSet).flatMap allowACLs

/-! ## Rows of OVN -/

/-- The row that is created for a rule.  A column that is not set gets its default. -/
def Acl.stored (acl : Acl) : Acl :=
  { acl with
    direction := if acl.direction = "*" then "" else acl.direction
    matchText := if acl.matchText = "*" then "" else acl.matchText
    priority := max 0 acl.priority }

def createACL (rows : List Acl) (acl : Acl) : List Acl := rows ++ [acl.stored]

/-- Whether `DeleteACL`, called with the columns of `acl`, deletes `row`. -/
def Acl.covers (acl row : Acl) : Bool :=
  (acl.direction = "*" || row.direction = acl.direction) &&
    (acl.matchText = "*" || row.matchText = acl.matchText) &&
    (acl.priority < 0 || row.priority = acl.priority)

def deleteACL (rows : List Acl) (acl : Acl) : List Acl := rows.filter fun row => !acl.covers row

def Acl.columns (acl : Acl) : ℤ × String × String × String :=
  (acl.priority, acl.direction, acl.matchText, acl.action)

def aclScore (acl ovsc : Acl) : ℤ := if acl.columns = ovsc.columns then 0 else -1

/-- The rows after `updateACLs`, when no call of OVSDB fails. -/
def updateACLs (targets rows : List Acl) : List Acl :=
  let joined := join aclScore targets rows
  joined.lonelyRights.foldl deleteACL (joined.lonelyLefts.foldl createACL rows)

/-! ## Reconciliation -/

theorem covers_self (acl : Acl) : acl.covers acl = true := by simp [Acl.covers]

theorem covers_columns {acl row row' : Acl} (hsame : row.columns = row'.columns) :
    acl.covers row = acl.covers row' := by
  simp only [Acl.columns, Prod.mk.injEq] at hsame
  simp [Acl.covers, hsame.1, hsame.2.1, hsame.2.2.1]

theorem mem_foldl_deleteACL {acls rows : List Acl} {row : Acl} :
    row ∈ acls.foldl deleteACL rows ↔ row ∈ rows ∧ ∀ acl ∈ acls, acl.covers row = false := by
  induction acls generalizing rows with
  | nil => simp
  | cons acl rest ih =>
      rw [List.foldl_cons, ih]
      simp [deleteACL, and_assoc]

/-- A rule that means what it says: no column is a wildcard. -/
structure Acl.Exact (acl : Acl) : Prop where
  direction : acl.direction ≠ "*"
  matchText : acl.matchText ≠ "*"
  priority : 0 ≤ acl.priority

theorem createACL_exact {acl : Acl} (hexact : acl.Exact) (rows : List Acl) :
    createACL rows acl = rows ++ [acl] := by
  have hmax : max 0 acl.priority = acl.priority := max_eq_right hexact.priority
  simp [createACL, Acl.stored, hexact.direction, hexact.matchText, hmax]

theorem foldl_createACL {acls : List Acl} (hexact : ∀ acl ∈ acls, acl.Exact) (rows : List Acl) :
    acls.foldl createACL rows = rows ++ acls := by
  induction acls generalizing rows with
  | nil => simp
  | cons acl rest ih =>
      rw [List.foldl_cons, createACL_exact (hexact acl List.mem_cons_self),
        ih fun other hmem => hexact other (List.mem_cons_of_mem acl hmem)]
      simp

/-- Rules of which none could be deleted in place of another. -/
structure Targets (targets : List Acl) : Prop where
  exact : ∀ t ∈ targets, t.Exact
  nodup : targets.Nodup
  apart : ∀ t ∈ targets, ∀ t' ∈ targets, t.covers t' = true → t = t'

section Reconcile

variable {targets rows : List Acl}

theorem columns_eq_of_pair {pair : Acl × Acl}
    (hpair : pair ∈ (join aclScore targets rows).pairs) : pair.1.columns = pair.2.columns := by
  have hscore := join_pairs_nonneg aclScore targets rows pair hpair
  by_contra hother
  rw [aclScore, if_neg hother] at hscore
  omega

theorem mem_updateACLs (htargets : Targets targets) {row : Acl} :
    row ∈ updateACLs targets rows ↔
      (row ∈ rows ∨ row ∈ (join aclScore targets rows).lonelyLefts) ∧
        ∀ acl ∈ (join aclScore targets rows).lonelyRights, acl.covers row = false := by
  have hexact : ∀ acl ∈ (join aclScore targets rows).lonelyLefts, acl.Exact := by
    intro acl hmem
    exact htargets.exact acl ((join_lefts_perm aclScore targets rows).mem_iff.mp
      (List.mem_append_right _ hmem))
  rw [updateACLs, mem_foldl_deleteACL, foldl_createACL hexact, List.mem_append]

/-- The rows that a deletion with the columns of some row could take for the rule. -/
def Unmistakable (rows : List Acl) (t : Acl) : Prop :=
  rows.countP (fun row => row.covers t) ≤ 1 ∧
    ∀ row ∈ rows, row.covers t = true → row.columns = t.columns

theorem not_covered_of_unmistakable {t : Acl} (ht : t ∈ targets)
    (hclear : Unmistakable rows t) :
    ∀ acl ∈ (join aclScore targets rows).lonelyRights, acl.covers t = false := by
  intro acl hlonely
  by_contra hcovers
  rw [Bool.not_eq_false] at hcovers
  have hrights := join_rights_perm aclScore targets rows
  have hcolumns := hclear.2 acl (join_lonelyRight_mem aclScore hlonely) hcovers
  rcases List.mem_append.mp ((join_lefts_perm aclScore targets rows).mem_iff.mpr ht) with
    hpaired | hleft
  · -- the partner of the rule and the deleted row would both be taken for it
    rcases List.mem_map.mp hpaired with ⟨pair, hpair, rfl⟩
    have hpartner : pair.2.covers pair.1 = true := by
      rw [covers_columns (columns_eq_of_pair hpair)]
      exact covers_self pair.2
    have hcount := hrights.countP_eq fun row => row.covers pair.1
    rw [List.countP_append] at hcount
    have hpairs : 0 < ((join aclScore targets rows).pairs.map Prod.snd).countP
        fun row => row.covers pair.1 :=
      List.countP_pos_iff.mpr ⟨pair.2, List.mem_map_of_mem hpair, hpartner⟩
    have hlonelies : 0 < (join aclScore targets rows).lonelyRights.countP
        fun row => row.covers pair.1 := List.countP_pos_iff.mpr ⟨acl, hlonely, hcovers⟩
    have hone := hclear.1
    omega
  · have hscore := join_lonely_incompatible aclScore hleft hlonely
    rw [aclScore, if_pos hcolumns.symm] at hscore
    omega

theorem unmistakable_of_not_covered (htargets : Targets targets) {t : Acl} (ht : t ∈ targets)
    (hkept : ∀ acl ∈ (join aclScore targets rows).lonelyRights, acl.covers t = false) :
    Unmistakable rows t := by
  have hrights := join_rights_perm aclScore targets rows
  -- a row that is taken for the rule was paired, and only with the rule
  have hpartner : ∀ pair ∈ (join aclScore targets rows).pairs, pair.2.covers t = true →
      pair.1 = t := by
    intro pair hpair hcovers
    have hmem := join_pair_left_mem aclScore hpair
    have hsame := columns_eq_of_pair hpair
    apply htargets.apart pair.1 hmem t ht
    have hcolumns := hsame
    simp only [Acl.columns, Prod.mk.injEq] at hcolumns
    simpa [Acl.covers, hcolumns.1, hcolumns.2.1, hcolumns.2.2.1] using hcovers
  constructor
  · rw [← hrights.countP_eq, List.countP_append, List.countP_map]
    have hzero :
        (join aclScore targets rows).lonelyRights.countP (fun row => row.covers t) = 0 := by
      rw [List.countP_eq_zero]
      intro acl hmem
      rw [hkept acl hmem]
      simp
    have hlefts : ((join aclScore targets rows).pairs.map Prod.fst).Nodup :=
      ((join_lefts_perm aclScore targets rows).nodup_iff.mpr htargets.nodup).of_append_left
    have hcount : (join aclScore targets rows).pairs.countP
        ((fun row => row.covers t) ∘ Prod.snd) ≤
        ((join aclScore targets rows).pairs.map Prod.fst).count t := by
      rw [List.count, List.countP_map]
      apply List.countP_mono_left
      intro pair hpair hcovers
      simpa using hpartner pair hpair hcovers
    have honce := List.nodup_iff_count_le_one.mp hlefts t
    omega
  · intro row hmem hcovers
    rcases List.mem_append.mp (hrights.mem_iff.mpr hmem) with hpaired | hlonely
    · rcases List.mem_map.mp hpaired with ⟨pair, hpair, rfl⟩
      rw [← hpartner pair hpair hcovers]
      exact (columns_eq_of_pair hpair).symm
    · rw [hkept row hlonely] at hcovers
      cases hcovers

theorem columns_mem_of_mem_updateACLs (htargets : Targets targets) {row : Acl}
    (hmem : row ∈ updateACLs targets rows) : row.columns ∈ targets.map Acl.columns := by
  rw [mem_updateACLs htargets] at hmem
  rcases hmem with ⟨hrow | hleft, hkept⟩
  · rcases List.mem_append.mp ((join_rights_perm aclScore targets rows).mem_iff.mpr hrow) with
      hpaired | hlonely
    · rcases List.mem_map.mp hpaired with ⟨pair, hpair, rfl⟩
      rw [← columns_eq_of_pair hpair]
      exact List.mem_map_of_mem (join_pair_left_mem aclScore hpair)
    · exact absurd (hkept row hlonely) (by simp [covers_self])
  · exact List.mem_map_of_mem ((join_lefts_perm aclScore targets rows).mem_iff.mp
      (List.mem_append_right _ hleft))

theorem columns_mem_updateACLs_iff (htargets : Targets targets) {t : Acl} (ht : t ∈ targets) :
    t.columns ∈ (updateACLs targets rows).map Acl.columns ↔
      ∀ acl ∈ (join aclScore targets rows).lonelyRights, acl.covers t = false := by
  constructor
  · intro hmem acl hlonely
    rcases List.mem_map.mp hmem with ⟨row, hrow, hcolumns⟩
    rw [← covers_columns hcolumns]
    exact ((mem_updateACLs htargets).mp hrow).2 acl hlonely
  · intro hkept
    rcases List.mem_append.mp ((join_lefts_perm aclScore targets rows).mem_iff.mpr ht) with
      hpaired | hleft
    · rcases List.mem_map.mp hpaired with ⟨pair, hpair, rfl⟩
      have hcolumns := columns_eq_of_pair hpair
      apply List.mem_map.mpr
      refine ⟨pair.2, (mem_updateACLs htargets).mpr ⟨.inl ?_, ?_⟩, hcolumns.symm⟩
      · exact join_pair_right_mem aclScore hpair
      · intro acl hlonely
        rw [← covers_columns hcolumns]
        exact hkept acl hlonely
    · exact List.mem_map_of_mem ((mem_updateACLs htargets).mpr ⟨.inr hleft, hkept⟩)

theorem updateACLs_columns_iff (htargets : Targets targets) :
    (∀ columns, columns ∈ (updateACLs targets rows).map Acl.columns ↔
      columns ∈ targets.map Acl.columns) ↔ ∀ t ∈ targets, Unmistakable rows t := by
  constructor
  · intro hsame t ht
    apply unmistakable_of_not_covered htargets ht
    rw [← columns_mem_updateACLs_iff htargets ht, hsame]
    exact List.mem_map_of_mem ht
  · intro hclear columns
    constructor
    · intro hmem
      rcases List.mem_map.mp hmem with ⟨row, hrow, rfl⟩
      exact columns_mem_of_mem_updateACLs htargets hrow
    · intro hmem
      rcases List.mem_map.mp hmem with ⟨t, ht, rfl⟩
      rw [columns_mem_updateACLs_iff htargets ht]
      exact not_covered_of_unmistakable ht (hclear t ht)

end Reconcile

/-! ## The texts of matches -/

def blanks (text : String) : ℕ := text.toList.count ' '

theorem blanks_append (left right : String) :
    blanks (left ++ right) = blanks left + blanks right := by
  rw [blanks, String.toList_append, List.count_append]
  rfl

theorem blanks_intText (x : ℤ) : blanks (intText x) = 0 := by
  rw [blanks, List.count_eq_zero]
  exact not_mem_intText x (by decide) (by decide)

theorem Flow.blanks_port (flow : Flow) : blanks flow.port = 0 := by
  unfold Flow.port
  split <;> decide

theorem blanks_intercalate (token : String) (tokens : List String) :
    blanks (" ".intercalate (token :: tokens)) =
      tokens.length + ((token :: tokens).map blanks).sum := by
  have hblank : blanks " " = 1 := by decide +kernel
  induction tokens generalizing token with
  | nil => simp
  | cons next rest ih =>
      rw [String.intercalate_cons_cons, blanks_append, blanks_append, ih, hblank]
      simp only [List.length_cons, List.map_cons, List.sum_cons]
      omega

theorem Flow.blanks_tokens (flow : Flow) :
    (flow.tokens.map blanks).sum = blanks flow.src + blanks flow.dst := by
  have hliterals : blanks "ip4.src==" = 0 ∧ blanks "ip4.dst==" = 0 ∧ blanks "&&" = 0 ∧
      blanks "(icmp" = 0 ∧ blanks "||" = 0 ∧ blanks "<=" = 0 ∧ blanks "udp." = 0 ∧
      blanks "tcp." = 0 ∧ blanks ")" = 0 := by decide +kernel
  simp [Flow.tokens, blanks_append, blanks_intText, Flow.blanks_port, hliterals]

theorem Flow.blanks_text (flow : Flow) :
    blanks flow.text = 16 + (blanks flow.src + blanks flow.dst) := by
  rw [Flow.text, Flow.tokens, blanks_intercalate, ← Flow.tokens, flow.blanks_tokens]
  rfl

theorem tokens_eq_of_text_eq {flow flow' : Flow} (hsrc : blanks flow.src = 0)
    (hdst : blanks flow.dst = 0) (hsrc' : blanks flow'.src = 0) (hdst' : blanks flow'.dst = 0)
    (htext : flow.text = flow'.text) : flow.tokens = flow'.tokens := by
  have hsplit : ∀ flow : Flow, blanks flow.src = 0 → blanks flow.dst = 0 →
      flow.text.toList.splitOn ' ' = flow.tokens.map String.toList := by
    intro flow hsrc hdst
    rw [Flow.text, String.toList_intercalate]
    apply List.splitOn_intercalate
    · have hclean : ∀ token ∈ flow.tokens, blanks token = 0 := by
        intro token hmem
        have hsum := flow.blanks_tokens
        rw [hsrc, hdst] at hsum
        exact List.sum_eq_zero_iff.mp hsum _ (List.mem_map_of_mem hmem)
      intro chars hmem
      rcases List.mem_map.mp hmem with ⟨token, htoken, rfl⟩
      exact List.count_eq_zero.mp (hclean token htoken)
    · simp [Flow.tokens]
  have hmap : flow.tokens.map String.toList = flow'.tokens.map String.toList := by
    rw [← hsplit flow hsrc hdst, ← hsplit flow' hsrc' hdst', htext]
  exact List.map_injective_iff.mpr (fun _ _ h => String.toList_inj.mp h) hmap

/-- A match text whose addresses contain no blank can be read in one way only. -/
theorem Flow.eq_of_text_eq {flow flow' : Flow} (hsrc : blanks flow.src = 0)
    (hdst : blanks flow.dst = 0) (htext : flow.text = flow'.text) : flow = flow' := by
  have hcount := congrArg blanks htext
  rw [flow.blanks_text, flow'.blanks_text, hsrc, hdst] at hcount
  have htokens := tokens_eq_of_text_eq hsrc hdst (by omega) (by omega) htext
  simp only [Flow.tokens, List.cons.injEq, String.append_right_inj] at htokens
  rcases htokens with ⟨hsrc, -, hdst, -, -, -, hlow, -, hport, -, hhigh, -⟩
  have hreply : flow.reply = flow'.reply := by
    simp only [Flow.port] at hport
    cases hreply : flow.reply <;> cases hreply' : flow'.reply <;> simp_all
  rcases flow with ⟨src, dst, low, high, reply⟩
  rcases flow' with ⟨src', dst', low', high', reply'⟩
  simp only [Flow.mk.injEq]
  exact ⟨hsrc, hdst, intText_injective hlow, intText_injective hhigh, hreply⟩

theorem Flow.text_ne {flow : Flow} {text : String} (htext : blanks text = 0) :
    flow.text ≠ text := by
  rintro rfl
  rw [flow.blanks_text] at htext
  omega

section Generated

variable {order : IterOrder String} {connections : List Connection} {labels : List Label}
  {containers : List Container}

theorem mem_targetACLs {acl : Acl} :
    acl ∈ targetACLs order connections labels containers ↔
      acl ∈ dropACLs ∨ ∃ flow ∈ flows connections labels containers, acl ∈ allowACLs flow.text := by
  simp [targetACLs]

theorem targets_targetACLs : Targets (targetACLs order connections labels containers) := by
  have hip : blanks "ip" = 0 := by decide +kernel
  have hstar : blanks "*" = 0 := by decide +kernel
  -- what the columns that a deletion compares say about a rule
  have hshape : ∀ acl ∈ targetACLs order connections labels containers,
      acl.direction ∈ directions ∧ acl.log = false ∧
        (acl.priority = 0 ∧ acl.matchText = "ip" ∧ acl.action = "drop" ∨
          acl.priority = 1 ∧ acl.action = "allow" ∧ ∃ flow : Flow, acl.matchText = flow.text) := by
    intro acl hmem
    rcases mem_targetACLs.mp hmem with hdrop | ⟨flow, _, hallow⟩
    · rcases List.mem_map.mp hdrop with ⟨direction, hdirection, rfl⟩
      exact ⟨hdirection, rfl, .inl ⟨rfl, rfl, rfl⟩⟩
    · rcases List.mem_map.mp hallow with ⟨direction, hdirection, rfl⟩
      exact ⟨hdirection, rfl, .inr ⟨rfl, rfl, flow, rfl⟩⟩
  have hexact : ∀ acl ∈ targetACLs order connections labels containers, acl.Exact := by
    intro acl hmem
    rcases hshape acl hmem with ⟨hdirection, -, hkind⟩
    constructor
    · intro hwild
      rw [hwild] at hdirection
      exact absurd hdirection (by decide)
    · rcases hkind with ⟨-, htext, -⟩ | ⟨-, -, flow, htext⟩
      · rw [htext]
        decide
      · rw [htext]
        exact Flow.text_ne hstar
    · rcases hkind with ⟨hpriority, -⟩ | ⟨hpriority, -⟩ <;> omega
  constructor
  · exact hexact
  · have hdrops : dropACLs.Nodup := by decide
    have hallows : ∀ text, (allowACLs text).Nodup := by
      intro text
      apply List.Nodup.map
      · intro direction direction' heq
        injection heq
      · decide
    rw [targetACLs, List.nodup_append]
    refine ⟨hdrops, ?_, ?_⟩
    · rw [List.nodup_flatMap]
      refine ⟨fun text _ => hallows text, ?_⟩
      have htexts := ((order.perm _).nodup_iff.mpr
        (List.nodup_dedup ((flows connections labels containers).map Flow.text)))
      apply htexts.imp
      intro text text' hne acl hmem hmem'
      rcases List.mem_map.mp hmem with ⟨direction, _, rfl⟩
      rcases List.mem_map.mp hmem' with ⟨direction', _, heq⟩
      injection heq with _ _ htext
      exact hne htext.symm
    · intro acl hdrop acl' hallow heq
      rcases List.mem_map.mp hdrop with ⟨direction, _, rfl⟩
      rcases List.mem_flatMap.mp hallow with ⟨text, _, hmem⟩
      rcases List.mem_map.mp hmem with ⟨direction', _, rfl⟩
      injection heq with hpriority
      omega
  · intro acl hmem acl' hmem' hcovers
    have hacl := hexact acl hmem
    simp only [Acl.covers, Bool.and_eq_true, Bool.or_eq_true, decide_eq_true_eq] at hcovers
    rcases hcovers with ⟨⟨hdirection, htext⟩, hpriority⟩
    have hdirection := hdirection.resolve_left hacl.direction
    have htext := htext.resolve_left hacl.matchText
    have hpriority := hpriority.resolve_left (not_lt.mpr hacl.priority)
    rcases hshape acl hmem with ⟨-, hlog, hkind⟩
    rcases hshape acl' hmem' with ⟨-, hlog', hkind'⟩
    have haction : acl.action = acl'.action := by
      rcases hkind with ⟨hzero, -, hdrop⟩ | ⟨hone, hallow, -⟩
      · rcases hkind' with ⟨-, -, hdrop'⟩ | ⟨hone, -⟩
        · rw [hdrop, hdrop']
        · omega
      · rcases hkind' with ⟨hzero, -⟩ | ⟨-, hallow', -⟩
        · omega
        · rw [hallow, hallow']
    rcases acl with ⟨priority, direction, text, action, log⟩
    rcases acl' with ⟨priority', direction', text', action', log'⟩
    simp only [Acl.mk.injEq]
    exact ⟨hpriority.symm, hdirection.symm, htext.symm, haction, hlog.trans hlog'.symm⟩

/-- After one run the rules in OVN are the generated ones, exactly if for each
generated rule at most one of the rows before the run would be deleted along with
it, and that row is the rule itself. -/
theorem updateACLs_converges_iff (order : IterOrder String) (connections : List Connection)
    (labels : List Label) (containers : List Container) (rows : List Acl) :
    (∀ columns,
      columns ∈ (updateACLs (targetACLs order connections labels containers) rows).map
          Acl.columns ↔
        columns ∈ (targetACLs order connections labels containers).map Acl.columns) ↔
      ∀ t ∈ targetACLs order connections labels containers, Unmistakable rows t :=
  updateACLs_columns_iff targets_targetACLs

/-- With two copies of a default rule in OVN, one is left over, and its deletion
takes the other one along. -/
theorem duplicate_drop_lost :
    (updateACLs (targetACLs (.asStored _) [] [] [])
      (dropACLs ++ [⟨0, "to-lport", "ip", "drop", false⟩])).map Acl.columns =
        [(0, "from-lport", "ip", "drop")] := by
  decide +kernel

end Generated

/-! ## What the rules admit -/

/-- The text of an IP address. -/
structure Address where
  text : String
  nonempty : text ≠ ""
  noBlank : blanks text = 0

inductive Protocol
  | icmp
  | udp (src dst : ℕ)
  | tcp (src dst : ℕ)
  | other

structure Packet where
  src : Address
  dst : Address
  protocol : Protocol

/-- ICMP, or the destination port (of a reply, the source port) lies in the range. -/
def Protocol.Within (low high : ℤ) (reply : Bool) : Protocol → Prop
  | .icmp => True
  | .udp src dst | .tcp src dst =>
      low ≤ (if reply then src else dst : ℕ) ∧ ((if reply then src else dst : ℕ) : ℤ) ≤ high
  | .other => False

def Packet.flow (packet : Packet) (low high : ℤ) (reply : Bool) : Flow :=
  ⟨packet.src.text, packet.dst.text, low, high, reply⟩

/-- What a match text says about a packet. -/
def Reads (text : String) (packet : Packet) : Prop :=
  text = "ip" ∨ ∃ low high reply, text = (packet.flow low high reply).text ∧
    packet.protocol.Within low high reply

/-- The rules of highest priority decide; without any rule everything passes. -/
def Passes (acls : List Acl) (direction : String) (packet : Packet) : Prop :=
  (∀ acl ∈ acls, acl.direction = direction → ¬Reads acl.matchText packet) ∨
    ∃ acl ∈ acls, acl.direction = direction ∧ Reads acl.matchText packet ∧
      acl.action = "allow" ∧
      ∀ other ∈ acls, other.direction = direction → Reads other.matchText packet →
        other.priority ≤ acl.priority

def Admitted (acls : List Acl) (packet : Packet) : Prop :=
  ∀ direction ∈ directions, Passes acls direction packet

/-- The traffic that the connections stand for. -/
def Permitted (connections : List Connection) (labels : List Label)
    (containers : List Container) (packet : Packet) : Prop :=
  ∃ c ∈ connections, ∃ dbc ∈ containers, c.fromLabel ∈ dbc.labels ∧
    ∃ ip, labelIP labels c.toLabel = some ip ∧
      (packet.src.text = dbc.ip ∧ packet.dst.text = ip ∧
          packet.protocol.Within c.minPort c.maxPort false ∨
        packet.src.text = ip ∧ packet.dst.text = dbc.ip ∧
          packet.protocol.Within c.minPort c.maxPort true)

section Firewall

variable {order : IterOrder String} {connections : List Connection} {labels : List Label}
  {containers : List Container}

theorem mem_labelDbcs {label : String} {dbc : Container} :
    dbc ∈ labelDbcs containers label ↔ dbc ∈ containers ∧ label ∈ dbc.labels := by
  simp only [labelDbcs, List.mem_flatMap, List.mem_map, List.mem_filter, decide_eq_true_eq]
  constructor
  · rintro ⟨other, hmem, name, ⟨hname, rfl⟩, rfl⟩
    exact ⟨hmem, hname⟩
  · rintro ⟨hmem, hname⟩
    exact ⟨dbc, hmem, label, ⟨hname, rfl⟩, rfl⟩

theorem mem_flows {flow : Flow} :
    flow ∈ flows connections labels containers ↔
      ∃ c ∈ connections, ∃ dbc ∈ containers, c.fromLabel ∈ dbc.labels ∧
        flow ∈ connectionFlows labels c dbc := by
  simp only [flows, List.mem_flatMap, mem_labelDbcs]
  constructor
  · rintro ⟨c, hc, dbc, ⟨hdbc, hlabel⟩, hflow⟩
    exact ⟨c, hc, dbc, hdbc, hlabel, hflow⟩
  · rintro ⟨c, hc, dbc, hdbc, hlabel, hflow⟩
    exact ⟨c, hc, dbc, ⟨hdbc, hlabel⟩, hflow⟩

theorem passes_targetACLs {direction : String} (hdirection : direction ∈ directions)
    (packet : Packet) :
    Passes (targetACLs order connections labels containers) direction packet ↔
      ∃ flow ∈ flows connections labels containers, Reads flow.text packet := by
  have hdrop : (⟨0, direction, "ip", "drop", false⟩ : Acl) ∈
      targetACLs order connections labels containers :=
    mem_targetACLs.mpr (.inl (List.mem_map_of_mem hdirection))
  constructor
  · rintro (hnone | ⟨acl, hmem, _, hreads, hallow, _⟩)
    · exact absurd (.inl rfl) (hnone _ hdrop rfl)
    · rcases mem_targetACLs.mp hmem with hacl | ⟨flow, hflow, hacl⟩
      · rcases List.mem_map.mp hacl with ⟨_, _, rfl⟩
        simp at hallow
      · rcases List.mem_map.mp hacl with ⟨_, _, rfl⟩
        exact ⟨flow, hflow, hreads⟩
  · rintro ⟨flow, hflow, hreads⟩
    right
    refine ⟨⟨1, direction, flow.text, "allow", false⟩, ?_, rfl, hreads, rfl, ?_⟩
    · exact mem_targetACLs.mpr (.inr ⟨flow, hflow, List.mem_map_of_mem hdirection⟩)
    · intro other hother _ _
      rcases mem_targetACLs.mp hother with hacl | ⟨_, _, hacl⟩
      · rcases List.mem_map.mp hacl with ⟨_, _, rfl⟩
        simp
      · rcases List.mem_map.mp hacl with ⟨_, _, rfl⟩
        simp

theorem reads_flow_text {flow : Flow} {packet : Packet} :
    Reads flow.text packet ↔
      flow = packet.flow flow.low flow.high flow.reply ∧
        packet.protocol.Within flow.low flow.high flow.reply := by
  constructor
  · rintro (hip | ⟨low, high, reply, htext, hwithin⟩)
    · exact absurd hip (Flow.text_ne (by decide +kernel))
    · have hflow : packet.flow low high reply = flow :=
        Flow.eq_of_text_eq packet.src.noBlank packet.dst.noBlank htext.symm
      subst hflow
      exact ⟨rfl, hwithin⟩
  · rintro ⟨hflow, hwithin⟩
    exact .inr ⟨flow.low, flow.high, flow.reply, congrArg Flow.text hflow, hwithin⟩

theorem admitted_iff_permitted (packet : Packet) :
    Admitted (targetACLs order connections labels containers) packet ↔
      Permitted connections labels containers packet := by
  have hpasses : Admitted (targetACLs order connections labels containers) packet ↔
      ∃ flow ∈ flows connections labels containers, Reads flow.text packet := by
    constructor
    · intro hadmitted
      exact (passes_targetACLs (by decide) packet).mp (hadmitted "to-lport" (by decide))
    · intro hflow direction hdirection
      exact (passes_targetACLs hdirection packet).mpr hflow
  rw [hpasses]
  constructor
  · rintro ⟨flow, hflow, hreads⟩
    rcases mem_flows.mp hflow with ⟨c, hc, dbc, hdbc, hlabel, hflow⟩
    rcases reads_flow_text.mp hreads with ⟨hsame, hwithin⟩
    have hknown : ∀ ip, (labelIP labels c.toLabel).getD "" = ip → ip ≠ "" →
        labelIP labels c.toLabel = some ip := by
      intro ip hip hne
      cases hlookup : labelIP labels c.toLabel with
      | none =>
          rw [hlookup] at hip
          exact absurd hip.symm hne
      | some found =>
          rw [hlookup] at hip
          exact congrArg some hip
    rw [connectionFlows, List.mem_cons, List.mem_singleton] at hflow
    rcases hflow with rfl | rfl
    · injection hsame with hsrc hdst
      exact ⟨c, hc, dbc, hdbc, hlabel, _, hknown _ hdst packet.dst.nonempty,
        .inl ⟨hsrc.symm, rfl, hwithin⟩⟩
    · injection hsame with hsrc hdst
      exact ⟨c, hc, dbc, hdbc, hlabel, _, hknown _ hsrc packet.src.nonempty,
        .inr ⟨rfl, hdst.symm, hwithin⟩⟩
  · rintro ⟨c, hc, dbc, hdbc, hlabel, ip, hip, hforward | hreply⟩
    · rcases hforward with ⟨hsrc, hdst, hwithin⟩
      refine ⟨⟨dbc.ip, ip, c.minPort, c.maxPort, false⟩, ?_, reads_flow_text.mpr ?_⟩
      · exact mem_flows.mpr ⟨c, hc, dbc, hdbc, hlabel, by simp [connectionFlows, hip]⟩
      · exact ⟨by rw [Packet.flow, hsrc, hdst], hwithin⟩
    · rcases hreply with ⟨hsrc, hdst, hwithin⟩
      refine ⟨⟨ip, dbc.ip, c.minPort, c.maxPort, true⟩, ?_, reads_flow_text.mpr ?_⟩
      · exact mem_flows.mpr ⟨c, hc, dbc, hdbc, hlabel, by simp [connectionFlows, hip]⟩
      · exact ⟨by rw [Packet.flow, hsrc, hdst], hwithin⟩

theorem flows_addressed_iff :
    (∀ flow ∈ flows connections labels containers, flow.src ≠ "" ∧ flow.dst ≠ "") ↔
      ∀ c ∈ connections, ∀ dbc ∈ containers, c.fromLabel ∈ dbc.labels →
        dbc.ip ≠ "" ∧ (labelIP labels c.toLabel).getD "" ≠ "" := by
  constructor
  · intro haddressed c hc dbc hdbc hlabel
    exact haddressed _ (mem_flows.mpr ⟨c, hc, dbc, hdbc, hlabel, List.mem_cons_self⟩)
  · intro hknown flow hflow
    rcases mem_flows.mp hflow with ⟨c, hc, dbc, hdbc, hlabel, hflow⟩
    have haddresses := hknown c hc dbc hdbc hlabel
    rw [connectionFlows, List.mem_cons, List.mem_singleton] at hflow
    rcases hflow with rfl | rfl
    · exact haddresses
    · exact haddresses.symm

/-- Every allowing match names both addresses and the rules admit exactly the
traffic of the connections, exactly if every container that carries the source
label of a connection has an address and so has the target label. -/
theorem acls_mean_connections_iff (order : IterOrder String) (connections : List Connection)
    (labels : List Label) (containers : List Container) :
    ((∀ flow ∈ flows connections labels containers, flow.src ≠ "" ∧ flow.dst ≠ "") ∧
      ∀ packet, Admitted (targetACLs order connections labels containers) packet ↔
        Permitted connections labels containers packet) ↔
      ∀ c ∈ connections, ∀ dbc ∈ containers, c.fromLabel ∈ dbc.labels →
        dbc.ip ≠ "" ∧ (labelIP labels c.toLabel).getD "" ≠ "" := by
  rw [flows_addressed_iff]
  constructor
  · exact And.left
  · intro hknown
    exact ⟨hknown, admitted_iff_permitted⟩

/-- A connection to the public internet yields matches without an address. -/
theorem public_match_malformed :
    (flows [{ ID := 1, fromLabel := "web", toLabel := "public", minPort := 80, maxPort := 80 }]
      [{ ID := 2, label := "web", ip := "10.0.0.2" }]
      [{ ID := 3, ip := "10.0.0.2", labels := ["web"] }]).map Flow.text =
    ["ip4.src==10.0.0.2 && ip4.dst== && (icmp || 80 <= udp.dst <= 80 || 80 <= tcp.dst <= 80)",
      "ip4.src== && ip4.dst==10.0.0.2 && (icmp || 80 <= udp.src <= 80 || 80 <= tcp.src <= 80)"
    ] := by
  decide +kernel

end Firewall

end NetworkAcl
end Di
