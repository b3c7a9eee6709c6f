import Di.FlowTable

/-!
# Address translation

A worker compares the rules that `iptables` lists for the nat table with those it wants:
packets of containers leave the host under its address, and the ports on which the public
internet may connect to a container are forwarded to it.  Commands that fail are only
logged.  What is assumed of `iptables` is said in `Translates`: rules are listed in the
texts in which they are appended and deleted, a chain that is in use may stay when it is
deleted, and a policy is no rule.

A pass never sets a policy.  So from the second pass on the table has exactly the wanted rules
and no chain of its own, and it settles if and only if the policies are the wanted ones from the
start.
-/

namespace Di
namespace IpTables

open Db Join
open Lang (intText publicInternetLabel)
open OpenFlow (Shell)

/-! ## The table -/

/-- The nat table of a host; a rule is a chain and options. -/
structure NatTable where
  policies : List (String × String)
  chains : List String
  rules : List (String × String)
  deriving DecidableEq, Repr

def NatTable.listing (t : NatTable) : List Listed :=
  t.policies.map (fun policy => .policy policy.1 policy.2) ++ t.chains.map .newChain ++
    t.rules.map fun rule => .append rule.1 rule.2

/-- No rule is in the chain or mentions it. -/
def NatTable.Unused (t : NatTable) (chain : String) : Prop :=
  ∀ rule ∈ t.rules, rule.1 ≠ chain ∧ chain ∉ words rule.2

instance (t : NatTable) (chain : String) : Decidable (t.Unused chain) :=
  inferInstanceAs (Decidable (∀ rule ∈ t.rules, _))

/-! ## A pass -/

/-- The visits of the map from addresses to ports and of its entries. -/
structure NatOrder where
  ips : IterOrder String
  ports : String → IterOrder ℤ

/-- An address and a port on which it can receive packets from the public internet. -/
def publicPorts (containers : List Container) (connections : List Connection) :
    List (String × ℤ) :=
  containers.flatMap fun dbc =>
    (connections.filter fun conn =>
      conn.fromLabel = publicInternetLabel ∧ conn.toLabel ∈ dbc.labels).map fun conn =>
        (dbc.ip, conn.minPort)

/-- The entries of `portsFromWeb` in the order of their visit. -/
def portsFromWeb (order : NatOrder) (containers : List Container)
    (connections : List Connection) : List (String × ℤ) :=
  let entries := publicPorts containers connections
  (order.ips.visit (entries.map Prod.fst).dedup).flatMap fun ip =>
    ((order.ports ip).visit
      (((entries.filter fun entry => entry.1 = ip).map Prod.snd).dedup)).map fun port => (ip, port)

def dnatRule (protocol ip : String) (port : ℤ) : String :=
  "-A PREROUTING -i eth0 -p " ++ protocol ++ " -m " ++ protocol ++ " --dport " ++ intText port ++
    " -j DNAT --to-destination " ++ ip ++ ":" ++ intText port

def strRules (order : NatOrder) (containers : List Container) (connections : List Connection) :
    List String :=
  ["-P PREROUTING ACCEPT", "-P INPUT ACCEPT", "-P OUTPUT ACCEPT", "-P POSTROUTING ACCEPT",
    "-A POSTROUTING -s 10.0.0.0/8 -o eth0 -j MASQUERADE"] ++
    (portsFromWeb order containers connections).flatMap fun entry =>
      ["tcp", "udp"].map fun protocol => dnatRule protocol entry.1 entry.2

/-- A rule that cannot be read would be a panic. -/
def generateTargetNatRules (order : NatOrder) (containers : List Container)
    (connections : List Connection) : Outcome String (List IPRule) :=
  Outcome.collect
    (fun text =>
      match makeIPRule text with
      | .ok rule => .ok rule
      | .error _ => .panic)
    (strRules order containers connections)

def generateCurrentNatRules (listed : Except String String) : Outcome String (List IPRule) :=
  match listed with
  | .error err => .error ("failed to get IP tables: " ++ err)
  | .ok stdout =>
      Outcome.collect
        (fun line =>
          match makeIPRule line with
          | .ok rule => .ok rule
          | .error err => .error ("failed to get current IP rules: " ++ err))
        (scanLines stdout)

def natScore (left right : IPRule) : ℤ :=
  if left.cmd = right.cmd ∧ left.chain = right.chain ∧ left.opts = right.opts then 0 else -1

def natCommands (fmt : Sprintf) (current targets : List IPRule) : List (List String) :=
  let joined := join natScore current targets
  joined.lonelyLefts.map (deleteNatRule fmt) ++ joined.lonelyRights.map (addNatRule fmt)

section Pass

variable {σ : Type} (fmt : Sprintf) (sh : Shell σ)

def listNat : List String := shVerbose fmt "iptables -t nat -S"

/-- Failures are logged. -/
def runAll (s : σ) (commands : List (List String)) : σ :=
  commands.foldl (fun s args => (sh.exec args s).2) s

/-- The commands of a pass and the state after it.  A failure to find out the rules ends the pass;
`none` is a panic. -/
def updateNAT (targets : Outcome String (List IPRule)) (s : σ) :
    Option (List (List String) × σ) :=
  match targets with
  | .ok targets =>
      let listed := sh.exec (listNat fmt) s
      match generateCurrentNatRules listed.1 with
      | .ok current =>
          let commands := natCommands fmt current targets
          some (commands, runAll sh listed.2 commands)
      | .error _ => some ([], listed.2)
      | _ => none
  | _ => none

def passes (targets : Outcome String (List IPRule)) : ℕ → σ → Option σ
  | 0, s => some s
  | n + 1, s => do
      let after ← passes targets n s
      let pass ← updateNAT fmt sh targets after
      pure pass.2

end Pass

theorem natScore_eq : natScore = keyMatch id id := by
  funext left right
  obtain ⟨cmd, chain, opts⟩ := left
  obtain ⟨cmd', chain', opts'⟩ := right
  simp [natScore, keyMatch]

/-! ## Listed rules -/

namespace Listed

/-- A line that is read without loss and that the commands name. -/
structure Legible (listed : Listed) : Prop where
  wellFormed : listed.WellFormed
  upper : ∀ c ∈ listed.chain.toList, c.isUpper = true
  kept : listed.Kept
  trimmed : ∀ rest ∈ listed.rest, trimSpace rest = rest
  plain : '%' ∉ (listed.rest.getD "").toList
  unquoted : '"' ∉ (listed.rest.getD "").toList
  isLine : IsLine listed.text

def rule (listed : Listed) : IPRule :=
  ⟨String.ofList ['-', listed.letter], listed.chain, listed.rest.getD ""⟩

variable {listed other : Listed}

theorem Legible.makeIPRule (hlegible : listed.Legible) :
    makeIPRule listed.text = .ok listed.rule := by
  obtain ⟨opts, hmake, -, hopts⟩ := makeIPRule_upper hlegible.wellFormed hlegible.upper
  have htrimmed : trimSpace (listed.rest.getD "") = listed.rest.getD "" := by
    cases hrest : listed.rest with
    | none => decide
    | some rest => exact hlegible.trimmed rest hrest
  rw [hmake, hopts hlegible.kept, htrimmed]
  rfl

theorem rule_injective (heq : listed.rule = other.rule) : listed = other := by
  cases listed <;> cases other <;> simp [rule, letter, chain, rest] at heq ⊢
  all_goals exact heq

theorem Legible.blank_not_mem (hlegible : listed.Legible) : ' ' ∉ listed.chain.toList :=
  fun hmem => absurd (hlegible.upper _ hmem) (by decide)

end Listed

/-! ## Options as words -/

def Printable (text : String) : Prop :=
  ∀ c ∈ text.toList, isSpace c = false ∧ c ≠ '%' ∧ c ≠ '"'

instance (text : String) : Decidable (Printable text) :=
  decidable_of_iff (text.toList.all (fun c => isSpace c = false ∧ c ≠ '%' ∧ c ≠ '"') = true)
    (by simp [Printable])

/-- Names of upper-case letters, as the built-in chains and targets have. -/
def Capital (text : String) : Prop := text.toList ≠ [] ∧ ∀ c ∈ text.toList, c.isUpper = true

instance (text : String) : Decidable (Capital text) :=
  decidable_of_iff (text.toList ≠ [] ∧ text.toList.all Char.isUpper = true) (by simp [Capital])

theorem Capital.not_mem {text : String} (hcapital : Capital text) {c : Char}
    (hc : c.isUpper = false) : c ∉ text.toList :=
  fun hmem => by simp [hcapital.2 c hmem] at hc

theorem isLine_text (listed : Listed) (hchain : Capital listed.chain)
    (hrest : ∀ rest ∈ listed.rest, rest.toList ≠ [] ∧ '\n' ∉ rest.toList ∧
      rest.toList.getLast? ≠ some '\r') : IsLine listed.text := by
  have hstart : '\n' ∉ ['-', listed.letter, ' '] := by
    cases listed <;> simp [Listed.letter]
  have hparts : ∃ front last, listed.text.toList = ['-', listed.letter, ' '] ++ front ++ last ∧
      '\n' ∉ front ∧ last ≠ [] ∧ '\n' ∉ last ∧ last.getLast? ≠ some '\r' := by
    rw [Listed.toList_text, Listed.tail]
    cases hcase : listed.rest with
    | none =>
        exact ⟨[], listed.chain.toList, by simp, by simp, hchain.1, hchain.not_mem (by decide),
          fun heq => hchain.not_mem (by decide) (List.mem_of_getLast? heq)⟩
    | some rest =>
        obtain ⟨hne, hnewline, hlast⟩ := hrest rest hcase
        refine ⟨listed.chain.toList ++ [' '], rest.toList, by simp, ?_, hne, hnewline, hlast⟩
        simp [hchain.not_mem (show '\n'.isUpper = false by decide)]
  obtain ⟨front, last, htext, hfront, hne, hnewline, hlast⟩ := hparts
  constructor
  · rw [htext, List.mem_append, List.mem_append, not_or, not_or]
    exact ⟨⟨hstart, hfront⟩, hnewline⟩
  · rw [htext, List.getLast?_append_of_ne_nil _ hne]
    exact hlast

/-- Words without blanks, directives and quotes, the first of which is an option. -/
structure Tidy (options : List String) : Prop where
  dash : ∃ rest others, options = String.ofList ('-' :: rest) :: others
  words : ∀ word ∈ options, word.toList ≠ [] ∧ Printable word

section Unwords

variable {options : List String}

theorem exists_last_word (hne : options ≠ []) :
    ∃ front, ∃ word ∈ options, (" ".intercalate options).toList = front ++ word.toList := by
  induction options with
  | nil => exact absurd rfl hne
  | cons word rest ih =>
      cases rest with
      | nil => exact ⟨[], word, by simp, by simp⟩
      | cons next rest =>
          obtain ⟨front, last, hlast, htext⟩ := ih (by simp)
          refine ⟨word.toList ++ ' ' :: front, last, List.mem_cons_of_mem _ hlast, ?_⟩
          rw [String.intercalate_cons_cons, String.toList_append, String.toList_append, htext]
          simp

theorem Tidy.ne_nil (htidy : Tidy options) : options ≠ [] := by
  obtain ⟨rest, others, rfl⟩ := htidy.dash
  simp

theorem Tidy.exists_text (htidy : Tidy options) :
    ∃ rest, (" ".intercalate options).toList = '-' :: rest := by
  obtain ⟨rest, others, rfl⟩ := htidy.dash
  cases others with
  | nil => exact ⟨rest, by simp⟩
  | cons next others =>
      refine ⟨rest ++ ' ' :: (" ".intercalate (next :: others)).toList, ?_⟩
      rw [String.intercalate_cons_cons]
      simp [String.toList_append]

theorem Tidy.last_not_space (htidy : Tidy options) (hne : (" ".intercalate options).toList ≠ []) :
    isSpace ((" ".intercalate options).toList.getLast hne) = false := by
  obtain ⟨front, word, hword, htext⟩ := exists_last_word htidy.ne_nil
  obtain ⟨hnonempty, hchars⟩ := htidy.words word hword
  simp only [htext]
  rw [List.getLast_append_of_ne_nil _ hnonempty]
  exact (hchars _ (List.getLast_mem hnonempty)).1

/-- Rules of tidy options in a chain of upper-case letters are legible. -/
theorem Tidy.legible (htidy : Tidy options) {chain : String} (hchain : Capital chain) :
    (Listed.append chain (" ".intercalate options)).Legible := by
  obtain ⟨rest, htext⟩ := htidy.exists_text
  have hclean : ∀ c ∈ (" ".intercalate options).toList,
      c = ' ' ∨ isSpace c = false ∧ c ≠ '%' ∧ c ≠ '"' := by
    intro c hc
    rcases OpenFlow.mem_intercalate hc with hblank | ⟨word, hword, hmem⟩
    · exact .inl (List.mem_singleton.mp hblank)
    · exact .inr ((htidy.words word hword).2 c hmem)
  have hnewline : '\n' ∉ (" ".intercalate options).toList := by
    intro hmem
    rcases hclean _ hmem with hblank | ⟨hspace, -⟩
    · exact absurd hblank (by decide)
    · exact absurd hspace (by decide)
  have hends : TextRuns.Ends isSpace (" ".intercalate options).toList := by
    rw [htext]
    exact TextRuns.ends_cons.mpr (by decide)
  have hname : chain.toList.all nameChar = true :=
    List.all_eq_true.mpr fun c hc => nameChar_of_isUpper (hchain.2 c hc)
  have htextNe : (" ".intercalate options).toList ≠ [] := by simp [htext]
  refine ⟨wellFormed_append hchain.1 hname hnewline, hchain.2, ?_, ?_, ?_, ?_, ?_⟩
  · rintro _ ⟨⟩
    refine .inr ⟨hends, ?_⟩
    rw [htext, dropWord]
    exact if_neg (by simp)
  · rintro _ ⟨⟩
    rw [← String.toList_inj, toList_trimSpace, TextRuns.trim_of_ends hends,
      List.rdropWhile_eq_self_iff]
    intro hne
    rw [htidy.last_not_space hne]
    exact Bool.false_ne_true
  · intro hmem
    rcases hclean _ hmem with hblank | ⟨-, hpercent, -⟩
    · exact absurd hblank (by decide)
    · exact hpercent rfl
  · intro hmem
    rcases hclean _ hmem with hblank | ⟨-, -, hquote⟩
    · exact absurd hblank (by decide)
    · exact hquote rfl
  · apply isLine_text (.append chain _) hchain
    rintro _ ⟨⟩
    refine ⟨htextNe, hnewline, ?_⟩
    rw [List.getLast?_eq_some_getLast htextNe]
    intro heq
    have hspace := htidy.last_not_space htextNe
    rw [Option.some.inj heq] at hspace
    exact absurd hspace (by decide)

end Unwords

/-! ## Commands -/

theorem words_command {flag chain rest : String} (hflag : ' ' ∉ flag.toList)
    (hchain : ' ' ∉ chain.toList) :
    words ("iptables" ++ " " ++ ("-t" ++ " " ++ ("nat" ++ " " ++ (flag ++ " " ++
      (chain ++ " " ++ rest))))) = ["iptables", "-t", "nat", flag, chain] ++ words rest := by
  rw [words_blank (by decide), words_blank (by decide), words_blank (by decide),
    words_blank hflag, words_blank hchain]
  rfl

section Commands

variable (fmt : Sprintf) {listed : Listed}

theorem Listed.Legible.commands (hlegible : listed.Legible) :
    addNatRule fmt listed.rule = ["iptables", "-t", "nat", "-A", listed.chain] ++
        words (listed.rest.getD "") ∧
      (listed.letter = 'A' → deleteNatRule fmt listed.rule =
        ["iptables", "-t", "nat", "-D", listed.chain] ++ words (listed.rest.getD "")) ∧
      (listed.letter = 'N' → deleteNatRule fmt listed.rule =
        ["iptables", "-t", "nat", "-X", listed.chain]) := by
  have htrimmed : trimSpace (listed.rest.getD "") = listed.rest.getD "" := by
    cases hrest : listed.rest with
    | none => decide
    | some rest => exact hlegible.trimmed rest hrest
  obtain ⟨hadd, hdelete, hchain⟩ := (@Listed.commands_iff fmt listed hlegible.upper
    listed.rule rfl rfl htrimmed.symm).mpr hlegible.plain
  have hblank := hlegible.blank_not_mem
  rw [htrimmed] at hadd hdelete
  refine ⟨?_, ?_, ?_⟩
  · rw [hadd, ← words_command (by decide) hblank]
    have hstart : "iptables -t nat -A " =
        "iptables" ++ " " ++ ("-t" ++ " " ++ ("nat" ++ " " ++ ("-A" ++ " "))) := by decide
    simp only [hstart, String.append_assoc]
  · intro hletter
    rw [hdelete hletter, ← words_command (by decide) hblank]
    have hstart : "iptables -t nat -D " =
        "iptables" ++ " " ++ ("-t" ++ " " ++ ("nat" ++ " " ++ ("-D" ++ " "))) := by decide
    simp only [hstart, String.append_assoc]
  · intro hletter
    have hstart : "iptables -t nat -X " ++ listed.chain =
        "iptables" ++ " " ++ ("-t" ++ " " ++ ("nat" ++ " " ++ ("-X" ++ " " ++ listed.chain))) := by
      have hlit : "iptables -t nat -X " =
        "iptables" ++ " " ++ ("-t" ++ " " ++ ("nat" ++ " " ++ ("-X" ++ " "))) := by decide
      simp only [hlit, String.append_assoc]
    rw [hchain hletter, hstart, words_blank (by decide), words_blank (by decide),
      words_blank (by decide), words_blank (by decide), words_single hblank]

end Commands

/-! ## What commands do -/

/-- The chain and the options of a rule. -/
def Listed.entry? : Listed → Option (String × String)
  | .append chain options => some (chain, options)
  | _ => none

def Listed.newChain? : Listed → Option String
  | .newChain chain => some chain
  | _ => none

namespace NatTable

/-- What the deletion of a listed line may leave. -/
def Forgets (t : NatTable) : Listed → NatTable → Prop
  | .policy _ _, t' => t' = t
  | .newChain chain, t' =>
      t' = t ∧ ¬t.Unused chain ∨ t' = { t with chains := t.chains.erase chain }
  | .append chain options, t' => t' = { t with rules := t.rules.erase (chain, options) }

def enter (t : NatTable) (listed : Listed) : NatTable :=
  { t with rules := t.rules ++ listed.entry?.toList }

section Forgets

variable {t t' : NatTable} {listed : Listed}

theorem Forgets.policies (hforgets : t.Forgets listed t') : t'.policies = t.policies := by
  cases listed with
  | policy chain target => rw [show t' = t from hforgets]
  | newChain chain =>
      rcases hforgets with ⟨rfl, -⟩ | rfl
      · rfl
      · rfl
  | append chain options => rw [show t' = _ from hforgets]

theorem Forgets.rules (hforgets : t.Forgets listed t') :
    t'.rules = t.rules.diff listed.entry?.toList := by
  cases listed with
  | policy chain target =>
      rw [show t' = t from hforgets]
      rfl
  | newChain chain =>
      rcases hforgets with ⟨rfl, -⟩ | rfl
      · rfl
      · rfl
  | append chain options =>
      rw [show t' = _ from hforgets]
      simp [Listed.entry?, List.diff_cons]

theorem Forgets.chains_sublist (hforgets : t.Forgets listed t') : t'.chains.Sublist t.chains := by
  cases listed with
  | policy chain target =>
      rw [show t' = t from hforgets]
  | newChain chain =>
      rcases hforgets with ⟨rfl, -⟩ | rfl
      · exact .refl _
      · exact List.erase_sublist
  | append chain options =>
      rw [show t' = _ from hforgets]

/-- A chain that nothing is in is deleted. -/
theorem Forgets.chains (hforgets : t.Forgets listed t') (hrule : listed.entry? = none)
    (hunused : ∀ chain ∈ t.chains, t.Unused chain) :
    t'.chains = t.chains.diff listed.newChain?.toList := by
  cases listed with
  | policy chain target =>
      rw [show t' = t from hforgets]
      rfl
  | newChain chain =>
      have hdiff : t.chains.diff (Listed.newChain chain).newChain?.toList =
          t.chains.erase chain := by simp [Listed.newChain?, List.diff_cons]
      rw [hdiff]
      rcases hforgets with ⟨rfl, hused⟩ | rfl
      · rw [List.erase_of_not_mem fun hmem => hused (hunused chain hmem)]
      · rfl
  | append chain options => simp [Listed.entry?] at hrule

end Forgets

theorem foldl_enter (adds : List Listed) (t : NatTable) :
    adds.foldl enter t = { t with rules := t.rules ++ adds.filterMap Listed.entry? } := by
  induction adds generalizing t with
  | nil => simp
  | cons add rest ih =>
      rw [List.foldl_cons, ih]
      cases hentry : add.entry? with
      | none => simp [enter, hentry]
      | some entry => simp [enter, hentry]

end NatTable

/-- What a pass for these rules relies on.  A state of the host has a nat table, which is
described by the texts that are listed. -/
structure Translates {σ : Type} (sh : Shell σ) (holds : σ → NatTable → Prop)
    (wanted : NatTable) : Prop where
  list : ∀ {s t}, holds s t → ∃ (lines : List Listed) (after : σ), lines.Perm t.listing ∧
    sh.exec ["iptables", "-t", "nat", "-S"] s = (.ok (unlines (lines.map Listed.text)), after) ∧
    holds after t
  append : ∀ {s t}, holds s t → ∀ rule ∈ wanted.rules, rule.1 ∈ t.policies.map Prod.fst →
    holds (sh.exec (["iptables", "-t", "nat", "-A", rule.1] ++ words rule.2) s).2
      { t with rules := t.rules ++ [rule] }
  /-- The target of a policy is no rule. -/
  refuse : ∀ {s t}, holds s t → ∀ policy ∈ wanted.policies,
    holds (sh.exec ["iptables", "-t", "nat", "-A", policy.1, policy.2] s).2 t
  /-- A rule that was listed without quotes is deleted by the same text. -/
  delete : ∀ {s t s₀ t₀}, holds s t → holds s₀ t₀ → ∀ rule ∈ t₀.rules, '"' ∉ rule.2.toList →
    holds (sh.exec (["iptables", "-t", "nat", "-D", rule.1] ++ words rule.2) s).2
      { t with rules := t.rules.erase rule }
  /-- A chain that was listed is deleted unless it is in use. -/
  drop : ∀ {s t s₀ t₀}, holds s t → holds s₀ t₀ → ∀ chain ∈ t₀.chains, ∃ t',
    holds (sh.exec ["iptables", "-t", "nat", "-X", chain] s).2 t' ∧
      t.Forgets (.newChain chain) t'
  /-- There is no program with an empty name. -/
  nothing : ∀ {s t}, holds s t → holds (sh.exec [""] s).2 t

theorem mem_listing_append {t : NatTable} {chain options : String} :
    Listed.append chain options ∈ t.listing ↔ (chain, options) ∈ t.rules := by
  simp [NatTable.listing]

theorem mem_listing_newChain {t : NatTable} {chain : String} :
    Listed.newChain chain ∈ t.listing ↔ chain ∈ t.chains := by
  simp [NatTable.listing]

theorem mem_listing_policy {t : NatTable} {chain target : String} :
    Listed.policy chain target ∈ t.listing ↔ (chain, target) ∈ t.policies := by
  simp [NatTable.listing]

section Run

variable {σ : Type} (fmt : Sprintf) {sh : Shell σ} {holds : σ → NatTable → Prop}
  {wanted : NatTable} (htr : Translates sh holds wanted) {s : σ} {t : NatTable}
include htr

theorem Translates.run_delete (hholds : holds s t) {s₀ : σ} {t₀ : NatTable} (hold : holds s₀ t₀)
    {del : Listed} (hdel : del ∈ t₀.listing) (hlegible : del.Legible) :
    ∃ t', holds (sh.exec (deleteNatRule fmt del.rule) s).2 t' ∧ t.Forgets del t' := by
  cases del with
  | policy chain target =>
      have hnone : deleteNatRule fmt (Listed.policy chain target).rule = [""] := by
        have hformat : fmt.format "" = "" := fmt.plain "" (by decide)
        have hcmd : (Listed.policy chain target).rule.cmd = "-P" :=
          show String.ofList ['-', 'P'] = "-P" by decide
        rw [deleteNatRule, if_neg (by rw [hcmd]; decide), if_neg (by rw [hcmd]; decide), shVerbose,
          hformat]
        decide
      rw [hnone]
      exact ⟨t, htr.nothing hholds, rfl⟩
  | newChain chain =>
      rw [(hlegible.commands fmt).2.2 rfl]
      exact htr.drop hholds hold chain (mem_listing_newChain.mp hdel)
  | append chain options =>
      rw [(hlegible.commands fmt).2.1 rfl]
      exact ⟨_, htr.delete hholds hold (chain, options) (mem_listing_append.mp hdel)
        hlegible.unquoted, rfl⟩

theorem Translates.run_add (hholds : holds s t) {add : Listed} (hadd : add ∈ wanted.listing)
    (hlegible : add.Legible) (hchains : wanted.chains = [])
    (hcapital : ∀ policy ∈ wanted.policies, ' ' ∉ policy.2.toList)
    (hbuiltin : ∀ rule ∈ wanted.rules, rule.1 ∈ t.policies.map Prod.fst) :
    holds (sh.exec (addNatRule fmt add.rule) s).2 (t.enter add) := by
  rw [(hlegible.commands fmt).1]
  cases add with
  | policy chain target =>
      have hpolicy := mem_listing_policy.mp hadd
      have hwords : words target = [target] := words_single (hcapital _ hpolicy)
      have hsame : t.enter (.policy chain target) = t := by simp [NatTable.enter, Listed.entry?]
      rw [hsame]
      simpa [Listed.rest, Listed.chain, hwords] using htr.refuse hholds (chain, target) hpolicy
  | newChain chain =>
      rw [mem_listing_newChain, hchains] at hadd
      exact absurd hadd List.not_mem_nil
  | append chain options =>
      have hrule := mem_listing_append.mp hadd
      exact htr.append hholds (chain, options) hrule (hbuiltin _ hrule)

omit htr in
theorem diff_filterMap_cons {β : Type} [BEq β] [LawfulBEq β] (f : Listed → Option β) (list : List β)
    (del : Listed) (rest : List Listed) :
    list.diff ((del :: rest).filterMap f) =
      (list.diff (f del).toList).diff (rest.filterMap f) := by
  cases hf : f del with
  | none => rw [List.filterMap_cons_none hf, Option.toList_none, List.diff_nil]
  | some b =>
      rw [List.filterMap_cons_some hf, Option.toList_some, List.diff_cons, List.diff_cons,
        List.diff_nil]

/-- The table after deletions: policies stay, and chains that nothing is in are deleted as long as
no rule is. -/
theorem Translates.run_deletes (hholds : holds s t) {s₀ : σ} {t₀ : NatTable} (hold : holds s₀ t₀)
    {dels : List Listed} (hdels : ∀ del ∈ dels, del ∈ t₀.listing ∧ del.Legible) :
    ∃ t', holds (runAll sh s (dels.map fun del => deleteNatRule fmt del.rule)) t' ∧
      t'.policies = t.policies ∧ t'.rules = t.rules.diff (dels.filterMap Listed.entry?) ∧
      t'.chains.Sublist t.chains ∧
      ((∀ del ∈ dels, del.entry? = none) → (∀ chain ∈ t.chains, t.Unused chain) →
        t'.chains = t.chains.diff (dels.filterMap Listed.newChain?)) := by
  induction dels generalizing s t with
  | nil => exact ⟨t, hholds, rfl, rfl, .refl _, fun _ _ => rfl⟩
  | cons del rest ih =>
      rw [List.forall_mem_cons] at hdels
      obtain ⟨mid, hmid, hforgets⟩ := htr.run_delete fmt hholds hold hdels.1.1 hdels.1.2
      obtain ⟨t', hlast, hpolicies, hrules, hchains, hgone⟩ := ih hmid hdels.2
      refine ⟨t', hlast, hpolicies.trans hforgets.policies, ?_,
        hchains.trans hforgets.chains_sublist, ?_⟩
      · rw [hrules, hforgets.rules, diff_filterMap_cons]
      · intro hnone hunused
        rw [List.forall_mem_cons] at hnone
        have hsame : mid.rules = t.rules := by
          rw [hforgets.rules, hnone.1]
          rfl
        rw [hgone hnone.2, hforgets.chains hnone.1 hunused, diff_filterMap_cons]
        intro chain hchain rule hrule
        exact hunused chain (hforgets.chains_sublist.subset hchain) rule (hsame ▸ hrule)

end Run

/-! ## Passes -/

/-- Rules that can be entered, and nothing else. -/
structure NatTable.Wanted (wanted : NatTable) : Prop where
  legible : ∀ listed ∈ wanted.listing, listed.Legible
  chains : wanted.chains = []
  policies : ∀ policy ∈ wanted.policies, ' ' ∉ policy.2.toList

/-- A table that can be read, and whose chains are not those of the wanted rules. -/
structure NatTable.Sound (t wanted : NatTable) : Prop where
  legible : ∀ listed ∈ t.listing, listed.Legible
  builtin : ∀ rule ∈ wanted.rules, rule.1 ∈ t.policies.map Prod.fst
  apart : ∀ chain ∈ t.chains, wanted.Unused chain

theorem exists_preimage {α β : Type*} (f : α → β) (source : List α) {images : List β}
    (himages : ∀ image ∈ images, image ∈ source.map f) :
    ∃ items : List α, items.map f = images ∧ ∀ item ∈ items, item ∈ source := by
  induction images with
  | nil => exact ⟨[], rfl, by simp⟩
  | cons image rest ih =>
      rw [List.forall_mem_cons] at himages
      obtain ⟨item, hitem, rfl⟩ := List.mem_map.mp himages.1
      obtain ⟨items, rfl, hitems⟩ := ih himages.2
      exact ⟨item :: items, rfl, List.forall_mem_cons.mpr ⟨hitem, hitems⟩⟩

theorem collect_makeIPRule {read : String → Outcome String IPRule}
    (hread : ∀ {text rule}, makeIPRule text = .ok rule → read text = .ok rule) {lines : List Listed}
    (hlines : ∀ listed ∈ lines, listed.Legible) :
    Outcome.collect read (lines.map Listed.text) = .ok (lines.map Listed.rule) := by
  induction lines with
  | nil => rfl
  | cons listed rest ih =>
      rw [List.forall_mem_cons] at hlines
      exact Outcome.collect_cons_eq_ok.mpr
        ⟨listed.rule, _, hread hlines.1.makeIPRule, ih hlines.2, rfl⟩

/-- The listed table is read back. -/
theorem generateCurrentNatRules_eq {lines : List Listed}
    (hlines : ∀ listed ∈ lines, listed.Legible) :
    generateCurrentNatRules (.ok (unlines (lines.map Listed.text))) =
      .ok (lines.map Listed.rule) := by
  have hscan : scanLines (unlines (lines.map Listed.text)) = lines.map Listed.text := by
    apply scanLines_unlines
    intro line hline
    obtain ⟨listed, hlisted, rfl⟩ := List.mem_map.mp hline
    exact (hlines listed hlisted).isLine
  rw [generateCurrentNatRules, hscan]
  exact collect_makeIPRule (fun hmake => by rw [hmake]) hlines

theorem count_rule (list : List Listed) (listed : Listed) :
    (list.map Listed.rule).count listed.rule = list.count listed :=
  List.count_map_of_injective _ _ (fun _ _ => Listed.rule_injective) _

theorem count_filterMap {β : Type*} [BEq β] [LawfulBEq β] {f : Listed → Option β} {g : β → Listed}
    (hinverse : ∀ listed b, f listed = some b ↔ listed = g b) (list : List Listed) (b : β) :
    (list.filterMap f).count b = list.count (g b) := by
  induction list with
  | nil => rfl
  | cons listed rest ih =>
      cases hf : f listed with
      | none =>
          have hne : listed ≠ g b := fun heq => by simp [(hinverse listed b).mpr heq] at hf
          rw [List.filterMap_cons_none hf, ih, List.count_cons_of_ne hne]
      | some b' =>
          rw [List.filterMap_cons_some hf, List.count_cons, List.count_cons, ih,
            (hinverse listed b').mp hf]
          have hiff : b' = b ↔ g b' = g b := by
            refine ⟨fun heq => heq ▸ rfl, fun heq => Option.some.inj ?_⟩
            rw [← (hinverse (g b') b').mpr rfl, (hinverse (g b') b).mpr heq]
          simp only [beq_iff_eq, hiff]

theorem count_entries (list : List Listed) (rule : String × String) :
    (list.filterMap Listed.entry?).count rule = list.count (.append rule.1 rule.2) := by
  have hinverse : ∀ (listed : Listed) (rule : String × String),
      listed.entry? = some rule ↔ listed = (fun rule => .append rule.1 rule.2) rule := by
    rintro (_ | _ | _) ⟨chain, options⟩ <;> simp [Listed.entry?]
  exact count_filterMap hinverse list rule

theorem count_newChains (list : List Listed) (chain : String) :
    (list.filterMap Listed.newChain?).count chain = list.count (.newChain chain) := by
  have hinverse : ∀ (listed : Listed) (chain : String),
      listed.newChain? = some chain ↔ listed = .newChain chain := by
    rintro (_ | _ | _) chain <;> simp [Listed.newChain?]
  exact count_filterMap hinverse list chain

theorem NatTable.entries_listing (t : NatTable) : t.listing.filterMap Listed.entry? = t.rules := by
  simp [listing, List.filterMap_append, List.filterMap_map, Function.comp_def, Listed.entry?]

theorem NatTable.newChains_listing (t : NatTable) :
    t.listing.filterMap Listed.newChain? = t.chains := by
  simp [listing, List.filterMap_append, List.filterMap_map, Function.comp_def, Listed.newChain?]

section Passes

variable {σ : Type} (fmt : Sprintf) {sh : Shell σ} {holds : σ → NatTable → Prop}
  {wanted : NatTable} (htr : Translates sh holds wanted) {s : σ} {t : NatTable}
include htr

/-- What a pass deletes and enters. -/
theorem Translates.updateNAT_eq (hholds : holds s t)
    (hlegible : ∀ listed ∈ t.listing, listed.Legible) :
    ∃ (dels adds : List Listed) (after : σ), holds after t ∧
      updateNAT fmt sh (.ok (wanted.listing.map Listed.rule)) s =
        some (dels.map (fun del => deleteNatRule fmt del.rule) ++
            adds.map (fun add => addNatRule fmt add.rule),
          runAll sh after (dels.map (fun del => deleteNatRule fmt del.rule) ++
            adds.map fun add => addNatRule fmt add.rule)) ∧
      (∀ del ∈ dels, del ∈ t.listing) ∧ (∀ add ∈ adds, add ∈ wanted.listing) ∧
      ∀ listed, dels.count listed = t.listing.count listed - wanted.listing.count listed ∧
        adds.count listed = wanted.listing.count listed - t.listing.count listed := by
  obtain ⟨lines, after, hperm, hexec, hafter⟩ := htr.list hholds
  have hread := generateCurrentNatRules_eq fun listed hlisted =>
    hlegible listed (hperm.mem_iff.mp hlisted)
  have hargs : listNat fmt = ["iptables", "-t", "nat", "-S"] := by
    rw [listNat, shVerbose, fmt.plain _ (by decide)]
    decide
  obtain ⟨dels, hdels, hdelsMem⟩ := exists_preimage Listed.rule lines
    fun rule hrule => (join_lonelyLefts_sublist natScore (lines.map Listed.rule)
      (wanted.listing.map Listed.rule)).subset hrule
  obtain ⟨adds, hadds, haddsMem⟩ := exists_preimage Listed.rule wanted.listing
    fun rule hrule => @join_lonelyRight_mem _ _ natScore (lines.map Listed.rule)
      (wanted.listing.map Listed.rule) rule hrule
  refine ⟨dels, adds, after, hafter, ?_, fun del hdel => hperm.mem_iff.mp (hdelsMem del hdel),
    haddsMem, ?_⟩
  · have hcommands : natCommands fmt (lines.map Listed.rule) (wanted.listing.map Listed.rule) =
        dels.map (fun del => deleteNatRule fmt del.rule) ++
          adds.map fun add => addNatRule fmt add.rule := by
      simp only [natCommands, ← hdels, ← hadds, List.map_map]
      rfl
    simp only [updateNAT, hargs, hexec, hread, hcommands]
  · intro listed
    have hlefts := count_lonelyLefts id id (lines.map Listed.rule)
      (wanted.listing.map Listed.rule) listed.rule
    have hrights := count_lonelyRights id id (lines.map Listed.rule)
      (wanted.listing.map Listed.rule) listed.rule
    rw [← natScore_eq, List.map_id, List.map_id, List.map_id] at hlefts hrights
    rw [← hdels, count_rule, count_rule, count_rule, hperm.count_eq] at hlefts
    rw [← hadds, count_rule, count_rule, count_rule, hperm.count_eq] at hrights
    exact ⟨hlefts, hrights⟩

theorem Translates.run_adds (hwanted : wanted.Wanted) (hholds : holds s t)
    (hbuiltin : ∀ rule ∈ wanted.rules, rule.1 ∈ t.policies.map Prod.fst) {adds : List Listed}
    (hadds : ∀ add ∈ adds, add ∈ wanted.listing) :
    holds (runAll sh s (adds.map fun add => addNatRule fmt add.rule))
      (adds.foldl NatTable.enter t) := by
  induction adds generalizing s t with
  | nil => exact hholds
  | cons add rest ih =>
      rw [List.forall_mem_cons] at hadds
      have hstep := htr.run_add fmt hholds hadds.1 (hwanted.legible add hadds.1) hwanted.chains
        hwanted.policies hbuiltin
      exact ih hstep hbuiltin hadds.2

/-- The table after a pass: the policies are those before, the rules those that are wanted,
and if they were before, all chains that nothing wanted is in are gone. -/
theorem Translates.pass (hwanted : wanted.Wanted) (hholds : holds s t) (hsound : t.Sound wanted) :
    ∃ pass t', updateNAT fmt sh (.ok (wanted.listing.map Listed.rule)) s = some pass ∧
      holds pass.2 t' ∧ t'.policies = t.policies ∧ t'.rules.Perm wanted.rules ∧
      t'.chains.Sublist t.chains ∧ (t.rules.Perm wanted.rules → t'.chains = []) := by
  obtain ⟨dels, adds, after, hafter, hupdate, hdels, hadds, hcounts⟩ :=
    htr.updateNAT_eq fmt hholds hsound.legible
  obtain ⟨mid, hmid, hpolicies, hrules, hchains, hgone⟩ := htr.run_deletes fmt hafter hholds
    fun del hdel => ⟨hdels del hdel, hsound.legible del (hdels del hdel)⟩
  have hlast := htr.run_adds fmt hwanted hmid (hpolicies ▸ hsound.builtin) hadds
  rw [NatTable.foldl_enter] at hlast
  refine ⟨_, { mid with rules := mid.rules ++ adds.filterMap Listed.entry? }, hupdate, ?_,
    hpolicies, ?_, hchains, ?_⟩
  · rw [runAll, List.foldl_append]
    exact hlast
  · rw [List.perm_iff_count]
    intro rule
    obtain ⟨hdelCount, haddCount⟩ := hcounts (.append rule.1 rule.2)
    rw [hrules, List.count_append, List.count_diff, count_entries, count_entries, hdelCount,
      haddCount, ← count_entries t.listing, ← count_entries wanted.listing,
      NatTable.entries_listing, NatTable.entries_listing]
    omega
  · intro hsettled
    have hnone : ∀ del ∈ dels, del.entry? = none := by
      intro del hdel
      by_contra hentry
      obtain ⟨rule, hrule⟩ := Option.ne_none_iff_exists'.mp hentry
      have hmem : rule ∈ dels.filterMap Listed.entry? := List.mem_filterMap.mpr ⟨del, hdel, hrule⟩
      have hpos := List.count_pos_iff.mpr hmem
      rw [count_entries, (hcounts _).1, ← count_entries t.listing, ← count_entries wanted.listing,
        NatTable.entries_listing, NatTable.entries_listing, hsettled.count_eq] at hpos
      omega
    have hunused : ∀ chain ∈ t.chains, t.Unused chain := by
      intro chain hchain rule hrule
      exact hsound.apart chain hchain rule (hsettled.mem_iff.mp hrule)
    have hleft := hgone hnone hunused
    have hwantedChains : ∀ chain, wanted.listing.count (.newChain chain) = 0 := by
      intro chain
      rw [← count_newChains, NatTable.newChains_listing, hwanted.chains, List.count_nil]
    change mid.chains = []
    rw [hleft, List.eq_nil_iff_forall_not_mem]
    intro chain
    rw [← List.count_eq_zero, List.count_diff, count_newChains, (hcounts _).1, hwantedChains,
      ← count_newChains t.listing, NatTable.newChains_listing]
    omega

omit htr in
/-- The table after a pass can be read as well. -/
theorem NatTable.Sound.of_pass {t' : NatTable} (hwanted : wanted.Wanted) (hsound : t.Sound wanted)
    (hpolicies : t'.policies = t.policies) (hrules : t'.rules.Perm wanted.rules)
    (hchains : t'.chains.Sublist t.chains) : t'.Sound wanted := by
  refine ⟨?_, hpolicies ▸ hsound.builtin, fun chain hchain =>
    hsound.apart chain (hchains.subset hchain)⟩
  intro listed hlisted
  cases listed with
  | policy chain target =>
      rw [mem_listing_policy, hpolicies] at hlisted
      exact hsound.legible _ (mem_listing_policy.mpr hlisted)
  | newChain chain =>
      rw [mem_listing_newChain] at hlisted
      exact hsound.legible _ (mem_listing_newChain.mpr (hchains.subset hlisted))
  | append chain options =>
      rw [mem_listing_append, hrules.mem_iff] at hlisted
      exact hwanted.legible _ (mem_listing_append.mpr hlisted)

/-- The table after any number of passes. -/
theorem Translates.passes (hwanted : wanted.Wanted) (hholds : holds s t) (hsound : t.Sound wanted)
    (n : ℕ) :
    ∃ after t', passes fmt sh (.ok (wanted.listing.map Listed.rule)) n s = some after ∧
      holds after t' ∧ t'.Sound wanted ∧ t'.policies = t.policies ∧
      (1 ≤ n → t'.rules.Perm wanted.rules) ∧ (2 ≤ n → t'.chains = []) := by
  induction n with
  | zero => exact ⟨s, t, rfl, hholds, hsound, rfl, by omega, by omega⟩
  | succ n ih =>
      obtain ⟨before, t', hpasses, hbefore, hsound', hpolicies, hrules, -⟩ := ih
      obtain ⟨pass, t'', hupdate, hafter, hpolicies', hrules', hchains', hgone⟩ :=
        htr.pass fmt hwanted hbefore hsound'
      refine ⟨pass.2, t'', ?_, hafter, hsound'.of_pass hwanted hpolicies' hrules' hchains',
        hpolicies'.trans hpolicies, fun _ => hrules', fun htwo => hgone (hrules (by omega))⟩
      rw [IpTables.passes, hpasses]
      simp [hupdate]

/-- A pass has nothing to do exactly if the table is the wanted one. -/
theorem Translates.updateNAT_eq_nil_iff (hholds : holds s t)
    (hlegible : ∀ listed ∈ t.listing, listed.Legible) :
    (∃ last, updateNAT fmt sh (.ok (wanted.listing.map Listed.rule)) s = some ([], last)) ↔
      t.listing.Perm wanted.listing := by
  obtain ⟨dels, adds, after, -, hupdate, -, -, hcounts⟩ :=
    htr.updateNAT_eq fmt hholds hlegible
  rw [hupdate]
  simp only [Option.some.injEq, Prod.mk.injEq, exists_and_left, exists_eq', and_true]
  rw [List.append_eq_nil_iff, List.map_eq_nil_iff, List.map_eq_nil_iff, List.perm_iff_count]
  constructor
  · rintro ⟨rfl, rfl⟩ listed
    have hcount := hcounts listed
    simp only [List.count_nil] at hcount
    omega
  · intro hequal
    simp only [List.eq_nil_iff_forall_not_mem, ← List.count_eq_zero, (hcounts _).1, (hcounts _).2,
      hequal, Nat.sub_self, implies_true, and_self]

end Passes

/-! ## The rules of a worker -/

theorem Printable.append {left right : String} (hleft : Printable left) (hright : Printable right) :
    Printable (left ++ right) :=
  OpenFlow.forall_chars_append hleft hright

theorem printable_intText (x : ℤ) : Printable (intText x) := by
  intro c hc
  have hname : nameChar c = true := by
    rcases Lang.mem_intText hc with rfl | hdigit
    · decide
    · simp [nameChar, isAlphanum_iff, hdigit]
  refine ⟨isSpace_of_nameChar hname, ?_, ?_⟩
  · rintro rfl
    exact absurd hname (by decide)
  · rintro rfl
    exact absurd hname (by decide)

def masqueradeOptions : List String := ["-s", "10.0.0.0/8", "-o", "eth0", "-j", "MASQUERADE"]

def dnatOptions (protocol ip : String) (port : ℤ) : List String :=
  ["-i", "eth0", "-p", protocol, "-m", protocol, "--dport", intText port, "-j", "DNAT",
    "--to-destination", ip ++ ":" ++ intText port]

def acceptPolicies : List (String × String) :=
  [("PREROUTING", "ACCEPT"), ("INPUT", "ACCEPT"), ("OUTPUT", "ACCEPT"), ("POSTROUTING", "ACCEPT")]

def wantedTable (order : NatOrder) (containers : List Container) (connections : List Connection) :
    NatTable where
  policies := acceptPolicies
  chains := []
  rules := ("POSTROUTING", " ".intercalate masqueradeOptions) ::
    (portsFromWeb order containers connections).flatMap fun entry =>
      ["tcp", "udp"].map fun protocol =>
        ("PREROUTING", " ".intercalate (dnatOptions protocol entry.1 entry.2))

theorem Listed.text_append (chain options : String) :
    (Listed.append chain options).text = "-A" ++ " " ++ chain ++ (" " ++ options) := rfl

theorem dnatRule_eq (protocol ip : String) (port : ℤ) :
    dnatRule protocol ip port =
      (Listed.append "PREROUTING" (" ".intercalate (dnatOptions protocol ip port))).text := by
  have hstart : "-A PREROUTING -i eth0 -p " = "-A" ++ (" " ++ ("PREROUTING" ++
      (" " ++ ("-i" ++ (" " ++ ("eth0" ++ (" " ++ ("-p" ++ " ")))))))) := by decide
  have hmodule : " -m " = " " ++ ("-m" ++ " ") := by decide
  have hport : " --dport " = " " ++ ("--dport" ++ " ") := by decide
  have hjump : " -j DNAT --to-destination " =
      " " ++ ("-j" ++ (" " ++ ("DNAT" ++ (" " ++ ("--to-destination" ++ " "))))) := by decide
  -- over variables, as the texts are slow to compare
  have hassoc : ∀ {A B C D a b c d e f m g j k l : String} (x y z n : String),
      A = a ++ (b ++ (c ++ (b ++ (d ++ (b ++ (e ++ (b ++ (f ++ b)))))))) →
      B = b ++ (m ++ b) → C = b ++ (g ++ b) →
      D = b ++ (j ++ (b ++ (k ++ (b ++ (l ++ b))))) →
      A ++ x ++ B ++ x ++ C ++ n ++ D ++ y ++ z ++ n =
        a ++ b ++ c ++ (b ++ b.intercalate [d, e, f, x, m, x, g, n, j, k, l, y ++ z ++ n]) := by
    rintro _ _ _ _ a b c d e f m g j k l x y z n rfl rfl rfl rfl
    simp only [String.intercalate_cons_cons, String.intercalate_singleton, String.append_assoc]
  rw [Listed.text_append]
  exact hassoc protocol ip ":" (intText port) hstart hmodule hport hjump

theorem strRules_eq (order : NatOrder) (containers : List Container)
    (connections : List Connection) :
    strRules order containers connections =
      (wantedTable order containers connections).listing.map Listed.text := by
  have hfixed : (["-P PREROUTING ACCEPT", "-P INPUT ACCEPT", "-P OUTPUT ACCEPT",
      "-P POSTROUTING ACCEPT", "-A POSTROUTING -s 10.0.0.0/8 -o eth0 -j MASQUERADE"] :
        List String) =
      ([.policy "PREROUTING" "ACCEPT", .policy "INPUT" "ACCEPT", .policy "OUTPUT" "ACCEPT",
        .policy "POSTROUTING" "ACCEPT",
        .append "POSTROUTING" (" ".intercalate masqueradeOptions)] : List Listed).map
          Listed.text := by decide
  rw [strRules, hfixed]
  simp only [wantedTable, acceptPolicies, NatTable.listing, List.map_cons, List.map_nil,
    List.map_flatMap, dnatRule_eq, List.cons_append, List.nil_append]

theorem tidy_dnatOptions {protocol ip : String} (hprotocol : protocol ∈ ["tcp", "udp"])
    (hip : Printable ip) (port : ℤ) : Tidy (dnatOptions protocol ip port) := by
  have hprotocol' : protocol.toList ≠ [] ∧ Printable protocol := by
    simp only [List.mem_cons, List.not_mem_nil, or_false] at hprotocol
    rcases hprotocol with rfl | rfl <;> decide
  have hdestination : Printable (ip ++ ":" ++ intText port) :=
    (hip.append (by decide)).append (printable_intText port)
  have hne : (ip ++ ":" ++ intText port).toList ≠ [] := by simp [String.toList_append]
  refine ⟨⟨['i'], _, rfl⟩, ?_⟩
  simp only [dnatOptions, List.forall_mem_cons]
  refine ⟨by decide, by decide, by decide, hprotocol', by decide, hprotocol', by decide,
    ⟨OpenFlow.intText_ne_nil port, printable_intText port⟩, by decide, by decide, by decide,
    ⟨hne, hdestination⟩, by simp⟩

theorem tidy_masqueradeOptions : Tidy masqueradeOptions :=
  ⟨⟨['s'], _, rfl⟩, by decide⟩

/-- Policies of words of upper-case letters are legible. -/
theorem legible_policy {chain target : String} (hchain : Capital chain)
    (htarget : Capital target) : (Listed.policy chain target).Legible := by
  have hspace : ∀ c ∈ target.toList, isSpace c = false :=
    fun c hc => isSpace_of_nameChar (nameChar_of_isUpper (htarget.2 c hc))
  have hnewline : '\n' ∉ target.toList := htarget.not_mem (by decide)
  refine ⟨⟨hchain.1, ?_, ?_, ?_⟩, hchain.2, ?_, ?_, htarget.not_mem (by decide),
    htarget.not_mem (by decide), ?_⟩
  · intro c hc
    exact .inl (isAlphanum_iff.mpr (.inl (.inl (hchain.2 c hc))))
  · rintro _ ⟨⟩
    exact hnewline
  · rintro _ _ ⟨⟩
    exact ⟨htarget.1, hspace⟩
  · rintro _ ⟨⟩
    exact .inr ⟨fun c hc => hspace c (List.mem_of_mem_head? hc), dropWord_eq_none htarget.2⟩
  · rintro _ ⟨⟩
    rw [trimSpace, TextRuns.trim_eq_self hspace, String.ofList_toList]
  · apply isLine_text (.policy chain _) hchain
    rintro _ ⟨⟩
    exact ⟨htarget.1, hnewline,
      fun heq => htarget.not_mem (by decide) (List.mem_of_getLast? heq)⟩

theorem legible_newChain {chain : String} (hchain : Capital chain) :
    (Listed.newChain chain).Legible := by
  refine ⟨⟨hchain.1, ?_, by simp [Listed.rest], by simp⟩, hchain.2,
    by simp [Listed.Kept, Listed.rest], by simp [Listed.rest], by simp [Listed.rest],
    by simp [Listed.rest], isLine_text _ hchain (by simp [Listed.rest])⟩
  intro c hc
  exact .inl (isAlphanum_iff.mpr (.inl (.inl (hchain.2 c hc))))

section Worker

variable {order : NatOrder} {containers : List Container}
  {connections : List Connection}

theorem mem_portsFromWeb {ip : String} {port : ℤ} :
    (ip, port) ∈ portsFromWeb order containers connections ↔
      ∃ dbc ∈ containers, dbc.ip = ip ∧ ∃ conn ∈ connections,
        conn.fromLabel = publicInternetLabel ∧ conn.toLabel ∈ dbc.labels ∧ conn.minPort = port := by
  have hentry : (ip, port) ∈ publicPorts containers connections ↔
      ∃ dbc ∈ containers, dbc.ip = ip ∧ ∃ conn ∈ connections,
        conn.fromLabel = publicInternetLabel ∧ conn.toLabel ∈ dbc.labels ∧
          conn.minPort = port := by
    simp only [publicPorts, List.mem_flatMap, List.mem_map, List.mem_filter, decide_eq_true_eq,
      Prod.mk.injEq]
    constructor
    · rintro ⟨dbc, hdbc, conn, ⟨hconn, hfrom, hto⟩, hip, hport⟩
      exact ⟨dbc, hdbc, hip, conn, hconn, hfrom, hto, hport⟩
    · rintro ⟨dbc, hdbc, hip, conn, hconn, hfrom, hto, hport⟩
      exact ⟨dbc, hdbc, conn, ⟨hconn, hfrom, hto⟩, hip, hport⟩
  rw [← hentry]
  simp only [portsFromWeb, List.mem_flatMap, IterOrder.mem_visit, List.mem_dedup, List.mem_map,
    List.mem_filter, decide_eq_true_eq, Prod.mk.injEq]
  constructor
  · rintro ⟨ip', -, port', ⟨entry, ⟨hmem, hfst⟩, hsnd⟩, rfl, rfl⟩
    rw [← hfst, ← hsnd]
    exact hmem
  · intro hmem
    exact ⟨ip, ⟨_, hmem, rfl⟩, port, ⟨_, ⟨hmem, rfl⟩, rfl⟩, rfl, rfl⟩

theorem wantedTable_legible (hips : ∀ dbc ∈ containers, Printable dbc.ip) :
    ∀ listed ∈ (wantedTable order containers connections).listing, listed.Legible := by
  intro listed hlisted
  simp only [NatTable.listing, wantedTable, List.mem_append, List.mem_map, List.mem_cons,
    List.mem_flatMap] at hlisted
  rcases hlisted with (⟨policy, hpolicy, rfl⟩ | ⟨chain, hchain, -⟩) | ⟨rule, hrule, rfl⟩
  · have hnames : ∀ policy ∈ acceptPolicies, Capital policy.1 ∧ Capital policy.2 := by decide
    obtain ⟨hchain, htarget⟩ := hnames policy hpolicy
    exact legible_policy hchain htarget
  · exact absurd hchain List.not_mem_nil
  · rcases hrule with rfl | ⟨⟨ip, port⟩, hentry, protocol, hprotocol, rfl⟩
    · exact tidy_masqueradeOptions.legible (by decide)
    · obtain ⟨dbc, hdbc, rfl, -⟩ := mem_portsFromWeb.mp hentry
      have htidy := tidy_dnatOptions (by simpa using hprotocol) (hips dbc hdbc) port
      exact htidy.legible (show Capital "PREROUTING" by decide)

theorem generateTargetNatRules_eq (hips : ∀ dbc ∈ containers, Printable dbc.ip) :
    generateTargetNatRules order containers connections =
      .ok ((wantedTable order containers connections).listing.map Listed.rule) := by
  rw [generateTargetNatRules, strRules_eq]
  exact collect_makeIPRule (fun hmake => by rw [hmake]) (wantedTable_legible hips)

theorem wantedTable_wanted (hips : ∀ dbc ∈ containers, Printable dbc.ip) :
    (wantedTable order containers connections).Wanted :=
  ⟨wantedTable_legible hips, rfl,
    (by decide : ∀ policy ∈ acceptPolicies, ' ' ∉ policy.2.toList)⟩

/-- From the second pass on the table has exactly the wanted rules and no chain of its own;
its policies are never changed, so it settles if and only if they are the wanted ones. -/
theorem updateNAT_settles_iff {σ : Type} (fmt : Sprintf) {sh : Shell σ}
    {holds : σ → NatTable → Prop} (hips : ∀ dbc ∈ containers, Printable dbc.ip)
    (htr : Translates sh holds (wantedTable order containers connections)) {s : σ} {t : NatTable}
    (hholds : holds s t) (hsound : t.Sound (wantedTable order containers connections)) {n : ℕ}
    (htwo : 2 ≤ n) :
    ∃ after t', passes fmt sh (generateTargetNatRules order containers connections) n s =
        some after ∧ holds after t' ∧ t'.policies = t.policies ∧ t'.chains = [] ∧
      t'.rules.Perm (wantedTable order containers connections).rules ∧
      ((∃ last, updateNAT fmt sh (generateTargetNatRules order containers connections) after =
        some ([], last)) ↔ t.policies.Perm acceptPolicies) := by
  obtain ⟨after, t', hpasses, hafter, hsound', hpolicies, hrules, hchains⟩ :=
    htr.passes fmt (wantedTable_wanted hips) hholds hsound n
  rw [generateTargetNatRules_eq hips]
  refine ⟨after, t', hpasses, hafter, hpolicies, hchains htwo, hrules (by omega), ?_⟩
  rw [htr.updateNAT_eq_nil_iff fmt hafter hsound'.legible, ← hpolicies]
  have hsame : ((t'.rules.map fun rule => Listed.append rule.1 rule.2)).Perm
      ((wantedTable order containers connections).rules.map fun rule => .append rule.1 rule.2) :=
    (hrules (by omega)).map _
  rw [NatTable.listing, NatTable.listing, hchains htwo]
  constructor
  · intro hperm
    have hinjective : Function.Injective fun policy : String × String =>
        Listed.policy policy.1 policy.2 := by
      rintro ⟨chain, target⟩ ⟨chain', target'⟩ heq
      simpa using heq
    have hleft := (List.perm_append_right_iff _).mp
      (hperm.trans (hsame.symm.append_left _))
    simp only [wantedTable, List.map_nil, List.append_nil] at hleft
    exact (List.map_perm_map_iff hinjective).mp hleft
  · intro hperm
    exact ((hperm.map _).append_right _).append hsame

end Worker

/-! ## A host -/

/-- A rule starts with an option. -/
def accepts (options : List String) : Bool :=
  options.any fun word => word.toList.head? = some '-'

/-- A host whose state is the nat table, as it is listed. -/
def natHost : Shell NatTable where
  exec := fun args t =>
    match args with
    | ["iptables", "-t", "nat", "-S"] => (.ok (unlines (t.listing.map Listed.text)), t)
    | "iptables" :: "-t" :: "nat" :: "-A" :: chain :: options =>
        if chain ∈ t.policies.map Prod.fst ∧ accepts options then
          (.ok "", { t with rules := t.rules ++ [(chain, " ".intercalate options)] })
        else (.error "exit status 2", t)
    | "iptables" :: "-t" :: "nat" :: "-D" :: chain :: options =>
        (.ok "", { t with rules := t.rules.erase (chain, " ".intercalate options) })
    | ["iptables", "-t", "nat", "-X", chain] =>
        if t.Unused chain then (.ok "", { t with chains := t.chains.erase chain })
        else (.error "exit status 1", t)
    | _ => (.error "exec: no command", t)

theorem natHost_translates {wanted : NatTable}
    (haccepts : ∀ rule ∈ wanted.rules, accepts (words rule.2) = true)
    (hpolicies : ∀ policy ∈ wanted.policies, accepts [policy.2] = false) :
    Translates natHost Eq wanted where
  list := by
    rintro s _ rfl
    exact ⟨s.listing, s, .refl _, rfl, rfl⟩
  append := by
    rintro s _ rfl rule hrule hchain
    have hexec : natHost.exec (["iptables", "-t", "nat", "-A", rule.1] ++ words rule.2) s =
        (.ok "", { s with rules := s.rules ++ [(rule.1, " ".intercalate (words rule.2))] }) :=
      if_pos ⟨hchain, haccepts rule hrule⟩
    rw [hexec, unwords_words]
  refuse := by
    rintro s _ rfl policy hpolicy
    have hexec : natHost.exec ["iptables", "-t", "nat", "-A", policy.1, policy.2] s =
        (.error "exit status 2", s) :=
      if_neg fun hboth => Bool.false_ne_true ((hpolicies policy hpolicy).symm.trans hboth.2)
    rw [hexec]
  delete := by
    rintro s _ _ _ rfl _ rule - -
    have hexec : natHost.exec (["iptables", "-t", "nat", "-D", rule.1] ++ words rule.2) s =
        (.ok "", { s with rules := s.rules.erase (rule.1, " ".intercalate (words rule.2)) }) := rfl
    rw [hexec, unwords_words]
  drop := by
    rintro s _ _ _ rfl _ chain -
    refine ⟨_, rfl, ?_⟩
    have hexec : natHost.exec ["iptables", "-t", "nat", "-X", chain] s =
        if s.Unused chain then (.ok "", { s with chains := s.chains.erase chain })
        else (.error "exit status 1", s) := rfl
    rw [hexec]
    split
    next hunused => exact .inr rfl
    next hused => exact .inl ⟨rfl, hused⟩
  nothing := by
    rintro s _ rfl
    rfl

/-- A table with a chain of Docker. -/
def dockerTable : NatTable where
  policies := acceptPolicies
  chains := ["DOCKER"]
  rules := [("PREROUTING", " ".intercalate ["-m", "addrtype", "-j", "DOCKER"]),
    ("DOCKER", " ".intercalate ["-i", "docker0", "-j", "RETURN"])]

def storedOrder : NatOrder := ⟨.asStored String, fun _ => .asStored ℤ⟩

def web : Container := { ID := 1, ip := "10.0.0.2", labels := ["web"] }

def toWeb : Connection := { ID := 2, fromLabel := "public", toLabel := "web", minPort := 80 }

theorem sound_dockerTable : dockerTable.Sound (wantedTable storedOrder [web] [toWeb]) := by
  have hjump : Tidy ["-m", "addrtype", "-j", "DOCKER"] := ⟨⟨['m'], _, rfl⟩, by decide⟩
  have hreturn : Tidy ["-i", "docker0", "-j", "RETURN"] := ⟨⟨['i'], _, rfl⟩, by decide⟩
  refine ⟨?_, by decide, by decide⟩
  intro listed hlisted
  simp only [dockerTable, acceptPolicies, NatTable.listing, List.map_cons, List.map_nil,
    List.cons_append, List.nil_append, List.mem_cons, List.not_mem_nil, or_false] at hlisted
  rcases hlisted with rfl | rfl | rfl | rfl | rfl | rfl | rfl
  · exact legible_policy (by decide) (by decide)
  · exact legible_policy (by decide) (by decide)
  · exact legible_policy (by decide) (by decide)
  · exact legible_policy (by decide) (by decide)
  · exact legible_newChain (by decide)
  · exact hjump.legible (by decide)
  · exact hreturn.legible (by decide)

theorem updateNAT_settles_iff_docker :
    ∃ after, passes marking natHost (generateTargetNatRules storedOrder [web] [toWeb]) 2
        dockerTable = some after ∧ after.chains = [] ∧
      after.rules.Perm (wantedTable storedOrder [web] [toWeb]).rules ∧
      ∃ last, updateNAT marking natHost (generateTargetNatRules storedOrder [web] [toWeb]) after =
        some ([], last) := by
  have htr : Translates natHost Eq (wantedTable storedOrder [web] [toWeb]) :=
    natHost_translates (by decide) (by decide)
  obtain ⟨after, _, hpasses, rfl, -, hchains, hrules, hsettles⟩ :=
    updateNAT_settles_iff marking (by decide) htr rfl sound_dockerTable le_rfl
  exact ⟨after, hpasses, hchains, hrules, hsettles.mpr (.refl _)⟩

end IpTables
end Di
