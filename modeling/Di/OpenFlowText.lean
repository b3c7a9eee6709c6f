import Di.NumberText
import Di.OpenFlowRule

/-!
# The lines of flows

The worker writes each flow as a line with a table, the fields of the match and the
actions.  The normal form of such a line contains exactly the fields of the flow, and
fields can be told apart by their texts, so two rules conflict exactly if their flows
match the same packets and their actions differ in normal form.
-/

namespace Di
namespace OpenFlow

open Lang (intText intText_injective intText_natCast natChars natChars_ne_nil not_mem_intText)

inductive Protocol
  | tcp
  | udp
  | icmp
  | arp
  | ip
  deriving DecidableEq, Repr

inductive Field
  | priority (level : ℕ)
  | inPort (port : ℤ)
  /-- The port that is created with the bridge. -/
  | inLocal
  | protocol (proto : Protocol)
  | tpSrc (port : ℤ)
  | tpDst (port : ℤ)
  | dlDst (mac : String)
  | nwDst (ip : String)
  | reg0 (i : ℕ)
  deriving DecidableEq, Repr

inductive Action
  | output (number : ℤ)
  /-- A bare port number. -/
  | port (number : ℤ)
  | toLocal
  | multipath (n : ℕ)
  | resubmit (table : ℕ)
  | modDlDst (mac : String)
  deriving DecidableEq, Repr

structure Flow where
  table : ℕ
  fields : List Field
  actions : List Action
  deriving DecidableEq, Repr

def Protocol.text : Protocol → String
  | .tcp => "tcp"
  | .udp => "udp"
  | .icmp => "icmp"
  | .arp => "arp"
  | .ip => "ip"

/-- `%x`. -/
def hexText (n : ℕ) : String :=
  String.ofList (if n = 0 then ['0'] else (Nat.digits 16 n).reverse.map Nat.digitChar)

def regText (i : ℕ) : String := if i = 0 then hexText i else "0x" ++ hexText i

def Field.name : Field → String
  | .priority _ => "priority"
  | .inPort _ => "in_port"
  | .inLocal => "in_port"
  | .protocol proto => proto.text
  | .tpSrc _ => "tp_src"
  | .tpDst _ => "tp_dst"
  | .dlDst _ => "dl_dst"
  | .nwDst _ => "nw_dst"
  | .reg0 _ => "reg0"

def Field.value : Field → Option String
  | .priority level => some (intText level)
  | .inPort port => some (intText port)
  | .inLocal => some "LOCAL"
  | .protocol _ => none
  | .tpSrc port => some (intText port)
  | .tpDst port => some (intText port)
  | .dlDst mac => some mac
  | .nwDst ip => some ip
  | .reg0 i => some (regText i)

def Field.text (field : Field) : String :=
  match field.value with
  | some value => field.name ++ "=" ++ value
  | none => field.name

/-- The bits from 0 to `k`. -/
def registerSlice (k : ℕ) : String := if k = 0 then "0" else "0.." ++ intText k

/-- `lg2n` is the number of bits that hold `n` values. -/
def nxmRange (n : ℕ) : String :=
  let lg2n := Nat.clog 2 n
  registerSlice lg2n

def Action.text : Action → String
  | .output number => "output:" ++ intText number
  | .port number => intText number
  | .toLocal => "LOCAL"
  | .multipath n => "multipath(symmetric_l3l4,0,modulo_n," ++ intText n ++ ",0,NXM_NX_REG0[" ++
      nxmRange n ++ "])"
  | .resubmit table => "resubmit(," ++ intText table ++ ")"
  | .modDlDst mac => "mod_dl_dst:" ++ mac

def Flow.fieldsText (flow : Flow) : String := ",".intercalate (flow.fields.map Field.text)

def Flow.actionsText (flow : Flow) : String := ",".intercalate (flow.actions.map Action.text)

def Flow.text (flow : Flow) : String :=
  "table=" ++ intText flow.table ++ " " ++ flow.fieldsText ++ " actions=" ++ flow.actionsText

/-! ## Texts -/

/-- Neither separates words nor fields. -/
def IsWord (text : String) : Prop := ' ' ∉ text.toList ∧ ',' ∉ text.toList

instance (text : String) : Decidable (IsWord text) := inferInstanceAs (Decidable (_ ∧ _))

theorem IsWord.append {left right : String} (hleft : IsWord left) (hright : IsWord right) :
    IsWord (left ++ right) := by
  simp only [IsWord, String.toList_append, List.mem_append, not_or]
  exact ⟨⟨hleft.1, hright.1⟩, hleft.2, hright.2⟩

theorem isWord_intText (x : ℤ) : IsWord (intText x) :=
  ⟨not_mem_intText x (by decide) (by decide), not_mem_intText x (by decide) (by decide)⟩

theorem hexText_injective {m n : ℕ} (hm : m ≠ 0) (hn : n ≠ 0) (htext : hexText m = hexText n) :
    m = n := by
  have hvalue : ∀ d < 16, (if (Nat.digitChar d).isDigit then (Nat.digitChar d).toNat - 48
      else (Nat.digitChar d).toNat - 87) = d := by decide
  have hback : ∀ n : ℕ, ((Nat.digits 16 n).map Nat.digitChar).map (fun c =>
      if c.isDigit then c.toNat - 48 else c.toNat - 87) = Nat.digits 16 n := by
    intro n
    rw [List.map_map]
    calc
      _ = (Nat.digits 16 n).map id := List.map_congr_left fun d hd =>
          hvalue d (Nat.digits_lt_base (by norm_num) hd)
      _ = Nat.digits 16 n := List.map_id _
  have hchars := String.ofList_injective htext
  rw [if_neg hm, if_neg hn, List.map_reverse, List.map_reverse, List.reverse_inj] at hchars
  apply Nat.digits_inj_iff.mp
  rw [← hback m, hchars, hback n]

theorem regText_injective {i j : ℕ} (htext : regText i = regText j) : i = j := by
  have hzero : ∀ n, "0x" ++ hexText n ≠ hexText 0 := by
    intro n heq
    have hlength := congrArg (fun text : String => text.toList.length) heq
    simp [hexText, String.toList_append] at hlength
  unfold regText at htext
  split at htext
  next hi =>
    split at htext
    next hj => rw [hi, hj]
    next => exact absurd (hi ▸ htext.symm) (hzero j)
  next hi =>
    split at htext
    next hj => exact absurd (hj ▸ htext) (hzero i)
    next hj => exact hexText_injective hi hj (String.append_right_inj _ |>.mp htext)

theorem isWord_regText (i : ℕ) : IsWord (regText i) := by
  have hdigit : ∀ d < 16, Nat.digitChar d ≠ ' ' ∧ Nat.digitChar d ≠ ',' := by decide
  have hhex : IsWord (hexText i) := by
    unfold hexText
    split
    next => decide
    next =>
      simp only [IsWord, String.toList_ofList, List.mem_map, List.mem_reverse, not_exists, not_and]
      exact ⟨fun d hd => (hdigit d (Nat.digits_lt_base (by norm_num) hd)).1,
        fun d hd => (hdigit d (Nat.digits_lt_base (by norm_num) hd)).2⟩
  unfold regText
  split
  next => exact hhex
  next => exact IsWord.append (by decide) hhex

theorem Field.name_cases (field : Field) : IsWord field.name ∧ '=' ∉ field.name.toList := by
  cases field with
  | protocol proto => cases proto <;> decide
  | _ =>
      simp only [Field.name]
      decide

theorem Field.toList_text (field : Field) :
    field.text.toList =
      field.name.toList ++ (field.value.elim [] fun value => '=' :: value.toList) := by
  unfold Field.text
  cases field.value with
  | none => simp
  | some value => simp [String.toList_append]

theorem Field.parts_eq {field other : Field} (htext : field.text = other.text) :
    field.name = other.name ∧ field.value = other.value := by
  have hname : ∀ field : Field, field.text.toList.takeWhile (· ≠ '=') = field.name.toList := by
    intro field
    have hclean : ∀ c ∈ field.name.toList, decide (c ≠ '=') = true := by
      intro c hmem
      apply decide_eq_true
      rintro rfl
      exact field.name_cases.2 hmem
    rw [field.toList_text, List.takeWhile_append_of_pos hclean]
    cases field.value with
    | none => simp
    | some value => simp
  have hnames : field.name = other.name := by
    rw [← String.toList_inj, ← hname field, ← hname other, htext]
  refine ⟨hnames, ?_⟩
  have hrest := congrArg String.toList htext
  rw [field.toList_text, other.toList_text, hnames, List.append_cancel_left_eq] at hrest
  cases hvalue : field.value with
  | none =>
      cases hother : other.value with
      | none => rfl
      | some value => simp [hvalue, hother] at hrest
  | some value =>
      cases hother : other.value with
      | none => simp [hvalue, hother] at hrest
      | some value' => simpa [hvalue, hother, String.toList_inj] using hrest

@[simp] theorem Protocol.text_inj {proto other : Protocol} :
    proto.text = other.text ↔ proto = other := by
  cases proto <;> cases other <;> simp [Protocol.text]

@[simp] theorem intText_inj {x y : ℤ} : intText x = intText y ↔ x = y :=
  ⟨intText_injective, fun heq => heq ▸ rfl⟩

@[simp] theorem regText_inj {i j : ℕ} : regText i = regText j ↔ i = j :=
  ⟨regText_injective, fun heq => heq ▸ rfl⟩

@[simp] theorem intText_ne_local (port : ℤ) : intText port ≠ "LOCAL" := by
  intro heq
  exact not_mem_intText port (c := 'L') (by decide) (by decide) (heq ▸ by decide)

@[simp] theorem local_ne_intText (port : ℤ) : "LOCAL" ≠ intText port := (intText_ne_local port).symm

/-- A field can be read back from its text, whatever the addresses are. -/
theorem Field.eq_of_text_eq {field other : Field} (htext : field.text = other.text) :
    field = other := by
  rcases Field.parts_eq htext with ⟨hname, hvalue⟩
  -- fields of different kinds differ in their names, except for the two kinds of ports
  cases field <;> cases other <;> simp_all [Field.name, Field.value]

theorem solid_of_mem_intText {x : ℤ} {c : Char} (hmem : c ∈ (intText x).toList) :
    solid c = true := by
  have hne : ∀ blank : Char, blank ≠ '-' → blank.isDigit = false → c ≠ blank := by
    rintro _ hminus hdigit rfl
    exact not_mem_intText x hminus hdigit hmem
  simp only [solid, decide_eq_true_eq]
  exact ⟨hne _ (by decide) (by decide), hne _ (by decide) (by decide),
    hne _ (by decide) (by decide), hne _ (by decide) (by decide), hne _ (by decide) (by decide)⟩

theorem intText_ne_nil (x : ℤ) : (intText x).toList ≠ [] := by
  rw [intText, String.toList_ofList]
  split
  · exact List.cons_ne_nil _ _
  · exact natChars_ne_nil _

theorem takeWhile_solid_append_ne_nil {text rest : String}
    (htext : text.toList.takeWhile solid ≠ []) : (text ++ rest).toList.takeWhile solid ≠ [] := by
  rw [String.toList_append]
  cases hchars : text.toList with
  | nil => simp [hchars] at htext
  | cons c chars =>
      have hsolid : solid c = true := by
        by_contra hnot
        simp [hchars, List.takeWhile_cons_of_neg hnot] at htext
      simp [List.takeWhile_cons_of_pos hsolid]

theorem Action.takeWhile_solid_text (action : Action) :
    action.text.toList.takeWhile solid ≠ [] := by
  cases action with
  | output number => exact takeWhile_solid_append_ne_nil (by decide)
  | port number =>
      change (intText number).toList.takeWhile solid ≠ []
      rw [List.takeWhile_eq_self_iff.mpr fun c hmem => solid_of_mem_intText hmem]
      exact intText_ne_nil number
  | toLocal =>
      change "LOCAL".toList.takeWhile solid ≠ []
      decide
  | multipath n =>
      iterate 4 apply takeWhile_solid_append_ne_nil
      decide
  | resubmit table =>
      iterate 2 apply takeWhile_solid_append_ne_nil
      decide
  | modDlDst mac => exact takeWhile_solid_append_ne_nil (by decide)

theorem mem_intercalate {separator : String} {texts : List String} {c : Char}
    (hmem : c ∈ (separator.intercalate texts).toList) :
    c ∈ separator.toList ∨ ∃ text ∈ texts, c ∈ text.toList := by
  induction texts with
  | nil => simp at hmem
  | cons text rest ih =>
      cases rest with
      | nil => exact .inr ⟨text, by simp, by simpa using hmem⟩
      | cons next rest =>
          rw [String.intercalate_cons_cons, String.toList_append, String.toList_append,
            List.mem_append, List.mem_append] at hmem
          rcases hmem with (hmem | hmem) | hmem
          · exact .inr ⟨text, List.mem_cons_self, hmem⟩
          · exact .inl hmem
          · rcases ih hmem with hc | ⟨found, hfound, hc⟩
            · exact .inl hc
            · exact .inr ⟨found, List.mem_cons_of_mem _ hfound, hc⟩

theorem blank_not_mem_join {texts : List String} (hclean : ∀ text ∈ texts, ' ' ∉ text.toList) :
    ' ' ∉ (",".intercalate texts).toList := by
  intro hmem
  rcases mem_intercalate hmem with hcomma | ⟨text, htext, hblank⟩
  · exact absurd hcomma (by decide)
  · exact hclean text htext hblank

def Field.Plain : Field → Prop
  | .dlDst mac => IsWord mac
  | .nwDst ip => IsWord ip
  | _ => True

def Action.Plain : Action → Prop
  | .modDlDst mac => IsWord mac
  | _ => True

theorem Field.Plain.isWord_text {field : Field} (hplain : field.Plain) : IsWord field.text := by
  have hvalue : ∀ value ∈ field.value, IsWord value := by
    cases field with
    | priority level =>
        rintro _ ⟨⟩
        exact isWord_intText level
    | inPort port =>
        rintro _ ⟨⟩
        exact isWord_intText port
    | inLocal =>
        rintro _ ⟨⟩
        decide
    | protocol proto => rintro _ ⟨⟩
    | tpSrc port =>
        rintro _ ⟨⟩
        exact isWord_intText port
    | tpDst port =>
        rintro _ ⟨⟩
        exact isWord_intText port
    | dlDst mac =>
        rintro _ ⟨⟩
        exact hplain
    | nwDst ip =>
        rintro _ ⟨⟩
        exact hplain
    | reg0 i =>
        rintro _ ⟨⟩
        exact isWord_regText i
  unfold Field.text
  split
  next value hsome =>
    exact (field.name_cases.1.append (by decide)).append (hvalue value hsome)
  next => exact field.name_cases.1

theorem blank_not_mem_append {left right : String} (hleft : ' ' ∉ left.toList)
    (hright : ' ' ∉ right.toList) : ' ' ∉ (left ++ right).toList := by
  rw [String.toList_append, List.mem_append, not_or]
  exact ⟨hleft, hright⟩

theorem blank_not_mem_nxmRange (n : ℕ) : ' ' ∉ (nxmRange n).toList := by
  simp only [nxmRange, registerSlice]
  split
  next => decide
  next => exact blank_not_mem_append (by decide) (isWord_intText _).1

theorem Action.Plain.blank_not_mem {action : Action} (hplain : action.Plain) :
    ' ' ∉ action.text.toList := by
  cases action with
  | output number => exact blank_not_mem_append (by decide) (isWord_intText number).1
  | port number => exact (isWord_intText number).1
  | toLocal =>
      change ' ' ∉ "LOCAL".toList
      decide
  | multipath n =>
      refine blank_not_mem_append (blank_not_mem_append (blank_not_mem_append
        (blank_not_mem_append ?_ (isWord_intText n).1) ?_) (blank_not_mem_nxmRange n)) ?_
      · decide
      · decide
      · decide
  | resubmit table =>
      refine blank_not_mem_append (blank_not_mem_append ?_ (isWord_intText table).1) ?_
      · decide
      · decide
  | modDlDst mac => exact blank_not_mem_append (by decide) hplain.1

/-- A flow whose line can be split into its parts. -/
structure Flow.Plain (flow : Flow) : Prop where
  fields_ne_nil : flow.fields ≠ []
  actions_ne_nil : flow.actions ≠ []
  fields : ∀ field ∈ flow.fields, field.Plain
  actions : ∀ action ∈ flow.actions, action.Plain

/-- The normal form of a flow. -/
def Flow.rule (flow : Flow) : OFRule where
  table := "table=" ++ intText flow.table
  matchText := joinSorted (flow.fields.map Field.text)
  actions := joinSorted (allMatches (flow.actionsText.toList.takeWhile solid))

namespace Flow.Plain

variable {flow other : Flow}

theorem takeWhile_solid (hplain : flow.Plain) : flow.actionsText.toList.takeWhile solid ≠ [] := by
  rcases List.exists_cons_of_ne_nil hplain.actions_ne_nil with ⟨action, rest, hactions⟩
  rw [Flow.actionsText, hactions, List.map_cons]
  cases rest with
  | nil => simpa using action.takeWhile_solid_text
  | cons next rest =>
      rw [List.map_cons, String.intercalate_cons_cons, String.append_assoc]
      exact takeWhile_solid_append_ne_nil action.takeWhile_solid_text

theorem splitCommas_fieldsText (hplain : flow.Plain) :
    splitCommas flow.fieldsText = flow.fields.map Field.text := by
  apply splitCommas_join
  · simpa using hplain.fields_ne_nil
  · intro text hmem
    rcases List.mem_map.mp hmem with ⟨field, hfield, rfl⟩
    exact (hplain.fields field hfield).isWord_text.2

theorem makeOFRule_text (hplain : flow.Plain) : makeOFRule flow.text = .ok flow.rule := by
  have hfields : ' ' ∉ flow.fieldsText.toList := by
    apply blank_not_mem_join
    intro text hmem
    rcases List.mem_map.mp hmem with ⟨field, hfield, rfl⟩
    exact (hplain.fields field hfield).isWord_text.1
  have hactions : ' ' ∉ flow.actionsText.toList := by
    apply blank_not_mem_join
    intro text hmem
    rcases List.mem_map.mp hmem with ⟨action, haction, rfl⟩
    exact (hplain.actions action haction).blank_not_mem
  have hline : flow.text.toList = "table=".toList ++ (natChars flow.table ++
      ' ' :: (flow.fieldsText.toList ++
        ' ' :: ("actions=".toList ++ flow.actionsText.toList))) := by
    simp [Flow.text, String.toList_append, intText_natCast]
  rw [makeOFRule_line hline (natChars_ne_nil _) (fun _ => Lang.isDigit_of_mem_natChars) hfields
    hactions hplain.takeWhile_solid, String.ofList_toList, hplain.splitCommas_fieldsText,
    ← intText_natCast]
  rfl

theorem fields_rule (hplain : flow.Plain) :
    flow.rule.fields = sortStrings (flow.fields.map Field.text) := by
  have hperm := sortStrings_perm (flow.fields.map Field.text)
  apply splitCommas_join
  · intro hnil
    rw [hnil] at hperm
    exact hplain.fields_ne_nil (List.map_eq_nil_iff.mp hperm.symm.eq_nil)
  · intro text hmem
    rcases List.mem_map.mp (hperm.mem_iff.mp hmem) with ⟨field, hfield, rfl⟩
    exact (hplain.fields field hfield).isWord_text.2

theorem mem_fields_rule (hplain : flow.Plain) {text : String} :
    text ∈ flow.rule.fields ↔ ∃ field ∈ flow.fields, field.text = text := by
  rw [hplain.fields_rule, (sortStrings_perm _).mem_iff, List.mem_map]

end Flow.Plain

/-- Two flows for the same packets. -/
def Flow.Overlaps (flow other : Flow) : Prop :=
  flow.table = other.table ∧ ∀ field, field ∈ flow.fields ↔ field ∈ other.fields

theorem Flow.Plain.sameMatch_iff {flow other : Flow} (hplain : flow.Plain) (hother : other.Plain) :
    SameMatch flow.rule other.rule ↔ flow.Overlaps other := by
  have htable : flow.rule.table = other.rule.table ↔ flow.table = other.table := by
    simp [Flow.rule, String.append_right_inj]
  have hfields : (∀ text, text ∈ flow.rule.fields ↔ text ∈ other.rule.fields) ↔
      ∀ field, field ∈ flow.fields ↔ field ∈ other.fields := by
    simp only [hplain.mem_fields_rule, hother.mem_fields_rule]
    constructor
    · intro hsame field
      have hread : ∀ fields : List Field,
          (∃ found ∈ fields, found.text = field.text) ↔ field ∈ fields := by
        intro fields
        constructor
        · rintro ⟨found, hfound, htext⟩
          exact Field.eq_of_text_eq htext ▸ hfound
        · intro hmem
          exact ⟨field, hmem, rfl⟩
      rw [← hread flow.fields, ← hread other.fields]
      exact hsame field.text
    · intro hsame text
      simp only [hsame]
  rw [SameMatch, htable, hfields, Flow.Overlaps]

theorem Flow.Plain.conflict_iff {flow other : Flow} (hplain : flow.Plain) (hother : other.Plain) :
    Conflict flow.rule other.rule ↔
      flow.Overlaps other ∧ flow.rule.actions ≠ other.rule.actions := by
  rw [Conflict, hplain.sameMatch_iff hother]

end OpenFlow
end Di
