import Di.GoStrings
import Di.Procedure
import Di.TextRuns

/-!
# The normal form of OpenFlow rules

Flows are compared as texts, those that Open vSwitch dumps with those that the
worker wants.  `makeOFRule` brings a line into a normal form first: the fields
of its match and its actions are sorted.  The commas inside of the arguments of
an action do not separate actions, so actions with arguments are cut out by a
regular expression before the rest is split.

A line that consists of a table, a match and actions without blanks is read
back as such (`makeOFRule_line`), and the fields of the match are the fields
that were joined (`splitCommas_join`).
-/

namespace Di
namespace OpenFlow

open TextRuns

structure OFRule where
  table : String
  /-- `match`. -/
  matchText : String
  actions : String
  deriving DecidableEq, Repr

/-! ## Regular expressions -/

/-- The characters of `\S`. -/
def solid (c : Char) : Bool := c ≠ ' ' ∧ c ≠ '\t' ∧ c ≠ '\n' ∧ c ≠ '\r' ∧ c ≠ '\x0c'

/-- The characters of `\w`. -/
def wordChar (c : Char) : Bool := c.isAlphanum || c = '_'

/-- What `+` matches in the leftmost occurrence of the expression `key` followed by `p+`. -/
def findAfter (key : List Char) (p : Char → Bool) : List Char → Option (List Char)
  | [] => none
  | c :: rest =>
      match key.isPrefixOf? (c :: rest) with
      | some after =>
          match after.takeWhile p with
          | [] => findAfter key p rest
          | run => some run
      | none => findAfter key p rest

/-- The match of `\w+\([^\)]+\)` that starts at the first character. -/
def matchFunc (text : List Char) : Option (List Char) :=
  let name := text.takeWhile wordChar
  match text.dropWhile wordChar with
  | '(' :: rest =>
      let args := rest.takeWhile (· ≠ ')')
      if name ≠ [] ∧ args ≠ [] ∧ ')' ∈ rest then some (name ++ '(' :: args ++ [')']) else none
  | _ => none

/-- The results of `funcRE.Split` and `funcRE.FindAllString`; the first `skip` characters belong
to the match before. -/
def splitFuncs : List Char → ℕ → List (List Char) × List (List Char)
  | [], _ => ([[]], [])
  | _ :: rest, skip + 1 => splitFuncs rest skip
  | c :: rest, 0 =>
      match matchFunc (c :: rest) with
      | some func =>
          let split := splitFuncs rest (func.length - 1)
          ([] :: split.1, func :: split.2)
      | none =>
          let split := splitFuncs rest 0
          (split.1.modifyHead (c :: ·), split.2)

/-! ## Normal form -/

/-- `strings.Trim(_, ",")`. -/
def trimCommas (text : List Char) : List Char := (text.dropWhile (· = ',')).rdropWhile (· = ',')

/-- `strings.Split(_, ",")`. -/
def splitCommas (text : String) : List String := (text.toList.splitOn ',').map String.ofList

/-- `sort.Strings` and `strings.Join(_, ",")`. -/
def joinSorted (items : List String) : String := ",".intercalate (sortStrings items)

def argMatches (noFuncs : List (List Char)) : List String :=
  noFuncs.flatMap fun a =>
    let act := trimCommas a
    if act = [] then [] else splitCommas (String.ofList act)

def allMatches (actions : List Char) : List String :=
  let split := splitFuncs actions 0
  argMatches split.1 ++ split.2.map String.ofList

def makeOFRule (flowEntry : String) : Outcome String OFRule :=
  match findAfter "table=".toList Char.isDigit flowEntry.toList with
  | none => .error ("malformed OpenFlow table: " ++ flowEntry)
  | some digits =>
      match (flowEntry.toList.splitOn ' ').reverse with
      | actions :: fields :: _ =>
          match findAfter "actions=".toList solid actions with
          | none => .error ("bad OF action format: " ++ String.ofList actions)
          | some actions => .ok {
              table := "table=" ++ String.ofList digits
              matchText := joinSorted (splitCommas (String.ofList fields))
              actions := joinSorted (allMatches actions) }
      -- a line without a blank has no last but one field
      | _ => .panic

def OFRule.fields (rule : OFRule) : List String := splitCommas rule.matchText

def SameMatch (rule other : OFRule) : Prop :=
  rule.table = other.table ∧ ∀ field, field ∈ rule.fields ↔ field ∈ other.fields

/-- Two rules for the same packets that do different things with them.  Adding
one of them to a table replaces the other. -/
def Conflict (rule other : OFRule) : Prop :=
  SameMatch rule other ∧ rule.actions ≠ other.actions

/-! ## Reading a line -/

theorem findAfter_key {key text : List Char} {p : Char → Bool} (hkey : key ≠ [])
    (hrun : text.takeWhile p ≠ []) :
    findAfter key p (key ++ text) = some (text.takeWhile p) := by
  rcases List.exists_cons_of_ne_nil hkey with ⟨c, rest, rfl⟩
  have hprefix : (c :: rest).isPrefixOf? (c :: rest ++ text) = some text :=
    List.isPrefixOf?_eq_some_iff_append_eq.mpr rfl
  rw [List.cons_append] at hprefix ⊢
  rw [findAfter, hprefix]
  cases hfound : text.takeWhile p with
  | nil => exact absurd hfound hrun
  | cons first run => simp [hfound]

theorem splitCommas_join {items : List String} (hne : items ≠ [])
    (hclean : ∀ item ∈ items, ',' ∉ item.toList) : splitCommas (",".intercalate items) = items := by
  rw [splitCommas, String.toList_intercalate]
  change (([','].intercalate _).splitOn ',').map _ = _
  rw [List.splitOn_intercalate]
  · simp
  · intro chars hmem
    rcases List.mem_map.mp hmem with ⟨item, hitem, rfl⟩
    exact hclean item hitem
  · simpa using hne

theorem makeOFRule_line {flowEntry : String} {digits fields actions : List Char}
    (hentry : flowEntry.toList = "table=".toList ++ (digits ++
      ' ' :: (fields ++ ' ' :: ("actions=".toList ++ actions))))
    (hdigits : digits ≠ []) (hnumber : ∀ c ∈ digits, c.isDigit = true) (hfields : ' ' ∉ fields)
    (hactions : ' ' ∉ actions) (hrun : actions.takeWhile solid ≠ []) :
    makeOFRule flowEntry =
      .ok {
        table := "table=" ++ String.ofList digits
        matchText := joinSorted (splitCommas (String.ofList fields))
        actions := joinSorted (allMatches (actions.takeWhile solid)) } := by
  have htable : ∀ rest : List Char, (digits ++ ' ' :: rest).takeWhile Char.isDigit = digits :=
    fun _ => takeWhile_run hnumber (ends_cons.mpr (by decide))
  have hblank : ' ' ∉ "table=".toList ++ digits := by
    intro hmem
    rcases List.mem_append.mp hmem with hmem | hmem
    · exact absurd hmem (by decide)
    · exact absurd (hnumber _ hmem) (by decide)
  have hlast : ' ' ∉ "actions=".toList ++ actions := by
    intro hmem
    rcases List.mem_append.mp hmem with hmem | hmem
    · exact absurd hmem (by decide)
    · exact hactions hmem
  have hsplit : ("table=".toList ++ (digits ++
      ' ' :: (fields ++ ' ' :: ("actions=".toList ++ actions)))).splitOn ' ' =
        ["table=".toList ++ digits, fields, "actions=".toList ++ actions] := by
    rw [← List.append_assoc, List.splitOn_append_cons_self_of_not_mem hblank,
      List.splitOn_append_cons_self_of_not_mem hfields, List.splitOn_eq_singleton hlast]
  have hfound : findAfter "table=".toList Char.isDigit ("table=".toList ++ (digits ++
      ' ' :: (fields ++ ' ' :: ("actions=".toList ++ actions)))) = some digits := by
    rw [findAfter_key (by decide) (by rwa [htable]), htable]
  have hacts : findAfter "actions=".toList solid ("actions=".toList ++ actions) =
      some (actions.takeWhile solid) := findAfter_key (by decide) hrun
  rw [makeOFRule, hentry, hfound, hsplit]
  simp only [List.reverse_cons, List.reverse_nil, List.nil_append, List.cons_append, hacts]

/-! ## A single action -/

theorem matchFunc_eq_none {text : List Char} (hplain : '(' ∉ text) : matchFunc text = none := by
  rw [matchFunc]
  split
  next rest hdrop =>
    refine absurd ?_ hplain
    rw [← List.takeWhile_append_dropWhile (p := wordChar) (l := text), hdrop]
    simp
  next => rfl

theorem splitFuncs_plain {text : List Char} (hplain : '(' ∉ text) :
    splitFuncs text 0 = ([text], []) := by
  induction text with
  | nil => rfl
  | cons c rest ih =>
      rw [splitFuncs, matchFunc_eq_none hplain]
      simp only [ih (List.not_mem_of_not_mem_cons hplain), List.modifyHead_cons]

theorem joinSorted_singleton (item : String) : joinSorted [item] = item := by
  simp [joinSorted, sortStrings]

end OpenFlow
end Di
