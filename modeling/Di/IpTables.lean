import Di.OpenFlowRule

/-!
# Rules of iptables

The worker compares the rules that `iptables -S` lists with those it wants.  `makeIPRule`
reads a listed rule with two regular expressions, neither of which is anchored: one finds
the command and the chain, the other one skips words of upper-case letters and takes the
rest of the line for the options.  Both know chains of upper-case letters only.
-/

namespace Di
namespace IpTables

open OpenFlow (solid)
open TextRuns

/-! ## Reading a rule -/

structure IPRule where
  cmd : String
  chain : String
  opts : String
  deriving DecidableEq, Repr

/-- The characters of `\s`. -/
def gap (c : Char) : Bool := !solid c

/-- `unicode.IsSpace`. -/
def isSpace (c : Char) : Bool :=
  c ∈ ['\t', '\n', '\x0b', '\x0c', '\r', ' ', '\u0085', '\u00a0', '\u1680',
    '\u2028', '\u2029', '\u202f', '\u205f', '\u3000'] ||
    (0x2000 ≤ c.toNat && c.toNat ≤ 0x200a)

/-- The groups of `(-[A-Z]+)\s+([A-Z]+)` in a match that starts at the first character. -/
def cmdAt : List Char → Option (List Char × List Char)
  | '-' :: rest =>
      let cmd := rest.takeWhile Char.isUpper
      let afterCmd := rest.dropWhile Char.isUpper
      let chain := (afterCmd.dropWhile gap).takeWhile Char.isUpper
      if cmd ≠ [] ∧ afterCmd.takeWhile gap ≠ [] ∧ chain ≠ [] then some ('-' :: cmd, chain)
      else none
  | _ => none

/-- What follows a match of `[A-Z]+\s+`. -/
def dropWord (text : List Char) : Option (List Char) :=
  let rest := text.dropWhile Char.isUpper
  if text.takeWhile Char.isUpper ≠ [] ∧ rest.takeWhile gap ≠ [] then some (rest.dropWhile gap)
  else none

/-- Repeats it as often as possible, and counts. -/
def dropWords : ℕ → List Char → ℕ × List Char
  | 0, text => (0, text)
  | fuel + 1, text =>
      match dropWord text with
      | some rest =>
          let dropped := dropWords fuel rest
          (dropped.1 + 1, dropped.2)
      | none => (0, text)

/-- The group of `-(?:[A-Z]+\s+)+[A-Z]+\s+(.*)` in a match that starts at the first character.
-/
def optsAt : List Char → Option (List Char)
  | '-' :: rest =>
      let dropped := dropWords rest.length rest
      if 2 ≤ dropped.1 then some (dropped.2.takeWhile (· ≠ '\n')) else none
  | _ => none

/-- `strings.TrimSpace`. -/
def trimSpace (text : String) : String := String.ofList (trim isSpace text.toList)

/-- The second expression has one group, so its match is never too long. -/
def makeIPRule (inputRule : String) : Except String IPRule :=
  match leftmost cmdAt inputRule.toList with
  | none => .error "missing iptables command"
  | some (cmd, chain) =>
      let opts :=
        match leftmost optsAt inputRule.toList with
        | some opts => trimSpace (String.ofList opts)
        | none => ""
      .ok {
        cmd := trimSpace (String.ofList cmd)
        chain := trimSpace (String.ofList chain)
        opts := opts }

/-! ## Writing a rule -/

/-- `fmt.Sprintf` of a format without arguments. -/
structure Sprintf where
  format : String → String
  plain : ∀ text, '%' ∉ text.toList → format text = text
  changed : ∀ text, '%' ∈ text.toList → format text ≠ text

/-- `strings.Split(_, " ")`. -/
def words (text : String) : List String := (text.toList.splitOn ' ').map String.ofList

/-- The arguments of the process that `shVerbose` starts; the command is a format. -/
def shVerbose (fmt : Sprintf) (command : String) : List String := words (fmt.format command)

def deleteNatRule (fmt : Sprintf) (rule : IPRule) : List String :=
  let args := rule.chain ++ " " ++ rule.opts
  let command :=
    if rule.cmd = "-A" then "iptables -t nat -D " ++ args
    else if rule.cmd = "-N" then "iptables -t nat -X " ++ rule.chain
    else ""
  shVerbose fmt command

def addNatRule (fmt : Sprintf) (rule : IPRule) : List String :=
  let args := rule.chain ++ " " ++ rule.opts
  shVerbose fmt ("iptables -t nat -A " ++ args)

/-! ## Words -/

theorem words_blank {word rest : String} (hword : ' ' ∉ word.toList) :
    words (word ++ " " ++ rest) = word :: words rest := by
  have hchars : (word ++ " " ++ rest).toList = word.toList ++ ' ' :: rest.toList := by
    simp [String.toList_append]
  rw [words, hchars, List.splitOn_append_cons_self_of_not_mem hword]
  simp [words]

theorem words_single {word : String} (hword : ' ' ∉ word.toList) : words word = [word] := by
  rw [words, List.splitOn_eq_singleton hword]
  simp

theorem unwords_words (text : String) : " ".intercalate (words text) = text := by
  rw [← String.toList_inj, String.toList_intercalate, words, List.map_map]
  have hid : (text.toList.splitOn ' ').map (String.toList ∘ String.ofList) =
      text.toList.splitOn ' ' := by simp
  rw [hid]
  exact List.intercalate_splitOn ' '

/-! ## Listed rules -/

/-- A line of `iptables -S`. -/
inductive Listed
  | policy (chain target : String)
  | newChain (chain : String)
  | append (chain options : String)
  deriving DecidableEq, Repr

namespace Listed

def letter : Listed → Char
  | .policy _ _ => 'P'
  | .newChain _ => 'N'
  | .append _ _ => 'A'

def chain : Listed → String
  | .policy chain _ => chain
  | .newChain chain => chain
  | .append chain _ => chain

/-- The text behind the chain. -/
def rest : Listed → Option String
  | .policy _ target => some target
  | .newChain _ => none
  | .append _ options => some options

def text (listed : Listed) : String :=
  String.ofList ['-', listed.letter] ++ " " ++ listed.chain ++
    (match listed.rest with
    | some rest => " " ++ rest
    | none => "")

/-- The chain has a name, and the line is one. -/
structure WellFormed (listed : Listed) : Prop where
  named : listed.chain.toList ≠ []
  name : ∀ c ∈ listed.chain.toList, c.isAlphanum = true ∨ c = '-' ∨ c = '_'
  line : ∀ rest ∈ listed.rest, '\n' ∉ rest.toList
  target : ∀ chain target, listed = .policy chain target →
    target.toList ≠ [] ∧ ∀ c ∈ target.toList, isSpace c = false

/-- The rule that is read is the one that was listed, and so are those that the commands
name. -/
structure ReadAs (fmt : Sprintf) (listed : Listed) (rule : IPRule) : Prop where
  rendered : trimSpace (rule.cmd ++ " " ++ rule.chain ++ " " ++ rule.opts) = trimSpace listed.text
  added : addNatRule fmt rule =
    words ("iptables -t nat -A " ++ listed.chain ++ " " ++ trimSpace (listed.rest.getD ""))
  deletedRule : listed.letter = 'A' → deleteNatRule fmt rule =
    words ("iptables -t nat -D " ++ listed.chain ++ " " ++ trimSpace (listed.rest.getD ""))
  deletedChain : listed.letter = 'N' → deleteNatRule fmt rule =
    words ("iptables -t nat -X " ++ listed.chain)

/-- The text starts with a word of upper-case letters and white space behind it. -/
def StartsWithWord (text : String) : Prop :=
  ∃ word c rest, text.toList = word ++ c :: rest ∧ word ≠ [] ∧
    (∀ d ∈ word, d.isUpper = true) ∧ solid c = false

def Readable : Listed → Prop
  | .policy chain target => (∀ c ∈ chain.toList, c.isUpper = true) ∧ '%' ∉ target.toList
  | .newChain chain => ∀ c ∈ chain.toList, c.isUpper = true
  | .append chain options => (∀ c ∈ chain.toList, c.isUpper = true) ∧ '%' ∉ options.toList ∧
      ((∀ c ∈ options.toList, isSpace c = true) ∨
        Ends isSpace options.toList ∧ ¬StartsWithWord options)

end Listed

/-! ## Characters -/

def nameChar (c : Char) : Bool := c.isAlphanum || c = '-' || c = '_'

theorem isAlphanum_iff {c : Char} :
    c.isAlphanum = true ↔ (c.isUpper = true ∨ c.isLower = true) ∨ c.isDigit = true := by
  change ((c.isUpper || c.isLower) || c.isDigit) = true ↔ _
  simp only [Bool.or_eq_true]

theorem nameChar_of_isUpper {c : Char} (hupper : c.isUpper = true) : nameChar c = true := by
  simp [nameChar, isAlphanum_iff, hupper]

theorem toNat_lt_of_nameChar {c : Char} (hname : nameChar c = true) : c.toNat < 128 := by
  have hbelow : ∀ bound : Char, bound.toNat < 128 → c.val ≤ bound.val → c.toNat < 128 :=
    fun bound hbound hle => (UInt32.le_iff_toNat_le.mp hle).trans_lt hbound
  simp only [nameChar, Bool.or_eq_true, decide_eq_true_eq, isAlphanum_iff] at hname
  rcases hname with (((hupper | hlower) | hdigit) | rfl) | rfl
  · exact hbelow 'Z' (by decide) (of_decide_eq_true hupper).2
  · exact hbelow 'z' (by decide) (of_decide_eq_true ((Bool.and_eq_true _ _).mp hlower).2)
  · exact hbelow '9' (by decide) (of_decide_eq_true ((Bool.and_eq_true _ _).mp hdigit).2)
  · decide
  · decide

theorem isSpace_of_nameChar {c : Char} (hname : nameChar c = true) : isSpace c = false := by
  have hlt := toNat_lt_of_nameChar hname
  rw [isSpace, Bool.or_eq_false_iff, decide_eq_false_iff_not]
  constructor
  · intro hmem
    simp only [List.mem_cons, List.not_mem_nil, or_false] at hmem
    rcases hmem with rfl | rfl | rfl | rfl | rfl | rfl | rfl | rfl | rfl | rfl | rfl | rfl | rfl |
      rfl <;> revert hname <;> decide
  · simp only [Bool.and_eq_false_iff, decide_eq_false_iff_not]
    omega

theorem isSpace_of_gap {c : Char} (hgap : gap c = true) : isSpace c = true := by
  simp only [gap, solid, Bool.not_eq_true', decide_eq_false_iff_not, not_and_or, not_not] at hgap
  rcases hgap with rfl | rfl | rfl | rfl | rfl <;> decide

theorem gap_of_nameChar {c : Char} (hname : nameChar c = true) : gap c = false := by
  by_contra hgap
  rw [Bool.not_eq_false] at hgap
  have hspace := isSpace_of_gap hgap
  rw [isSpace_of_nameChar hname] at hspace
  contradiction

theorem isUpper_of_gap {c : Char} (hgap : gap c = true) : c.isUpper = false := by
  by_contra hupper
  rw [Bool.not_eq_false] at hupper
  rw [gap_of_nameChar (nameChar_of_isUpper hupper)] at hgap
  contradiction

theorem ends_gap_chain {chain : List Char} (hne : chain ≠ [])
    (hupper : ∀ c ∈ chain, c.isUpper = true) (tail : List Char) : Ends gap (chain ++ tail) := by
  obtain ⟨c, rest, rfl⟩ := List.exists_cons_of_ne_nil hne
  exact ends_cons.mpr (gap_of_nameChar (nameChar_of_isUpper (hupper c List.mem_cons_self)))

/-! ## The expressions on a listed rule -/

section Line

variable {letter : Char} {chain tail : List Char}

theorem cmdAt_line (hletter : letter.isUpper = true) (hne : chain ≠ [])
    (hupper : ∀ c ∈ chain, c.isUpper = true) (htail : Ends Char.isUpper tail) :
    cmdAt ('-' :: letter :: ' ' :: (chain ++ tail)) = some (['-', letter], chain) := by
  have hcmd : (letter :: ' ' :: (chain ++ tail)).takeWhile Char.isUpper = [letter] :=
    @takeWhile_run _ _ [letter] _ (by simpa using hletter) (by simp)
  have hrest : (letter :: ' ' :: (chain ++ tail)).dropWhile Char.isUpper =
      ' ' :: (chain ++ tail) :=
    @dropWhile_run _ _ [letter] _ (by simpa using hletter) (by simp)
  have hstart := ends_gap_chain hne hupper tail
  have hgap : (' ' :: (chain ++ tail)).dropWhile gap = chain ++ tail :=
    @dropWhile_run _ _ [' '] _ (List.forall_mem_singleton.mpr (by decide)) hstart
  rw [cmdAt]
  simp only [hcmd, hrest, hgap, takeWhile_run hupper htail]
  rw [if_pos ⟨by simp, by simp [List.takeWhile_cons_of_pos (show gap ' ' = true by decide)], hne⟩]

end Line

theorem cmdAt_spec {text cmd chain : List Char} (hmatch : cmdAt text = some (cmd, chain)) :
    ∃ name, cmd = '-' :: name ∧ name ≠ [] ∧ (∀ c ∈ name, c.isUpper = true) ∧ chain ≠ [] ∧
      ∀ c ∈ chain, c.isUpper = true := by
  unfold cmdAt at hmatch
  split at hmatch
  next rest =>
    simp only [Option.ite_none_right_eq_some, Option.some.injEq, Prod.mk.injEq] at hmatch
    obtain ⟨⟨hname, _, hchain⟩, rfl, rfl⟩ := hmatch
    exact ⟨_, rfl, hname, fun c hc => List.mem_takeWhile_imp hc, hchain,
      fun c hc => List.mem_takeWhile_imp hc⟩
  next => cases hmatch

theorem dropWord_run {word after : List Char} (hne : word ≠ [])
    (hupper : ∀ c ∈ word, c.isUpper = true) :
    dropWord (word ++ ' ' :: after) = some (after.dropWhile gap) := by
  have htake : (word ++ ' ' :: after).takeWhile Char.isUpper = word :=
    takeWhile_run hupper (by simp)
  have hdrop : (word ++ ' ' :: after).dropWhile Char.isUpper = ' ' :: after :=
    dropWhile_run hupper (by simp)
  rw [dropWord]
  simp only [htake, hdrop]
  rw [if_pos ⟨hne, by simp [List.takeWhile_cons_of_pos (show gap ' ' = true by decide)]⟩,
    List.dropWhile_cons_of_pos (by decide)]

theorem dropWord_eq_none {chain : List Char} (hupper : ∀ c ∈ chain, c.isUpper = true) :
    dropWord chain = none := by
  have hdrop : chain.dropWhile Char.isUpper = [] := List.dropWhile_eq_nil_iff.mpr hupper
  simp [dropWord, hdrop]

theorem length_of_dropWord {text rest : List Char} (hdrop : dropWord text = some rest) :
    rest.length < text.length := by
  unfold dropWord at hdrop
  simp only [Option.ite_none_right_eq_some, Option.some.injEq] at hdrop
  obtain ⟨⟨hword, _⟩, rfl⟩ := hdrop
  have hsplit := congrArg List.length
    (List.takeWhile_append_dropWhile (p := Char.isUpper) (l := text))
  have hshort := (List.dropWhile_sublist gap (l := text.dropWhile Char.isUpper)).length_le
  have hlong := List.length_pos_of_ne_nil hword
  rw [List.length_append] at hsplit
  omega

theorem suffix_of_dropWord {text rest : List Char} (hdrop : dropWord text = some rest) :
    rest <:+ text := by
  unfold dropWord at hdrop
  simp only [Option.ite_none_right_eq_some, Option.some.injEq] at hdrop
  obtain ⟨_, rfl⟩ := hdrop
  exact (List.dropWhile_suffix _).trans (List.dropWhile_suffix _)

theorem dropWords_suffix (fuel : ℕ) (text : List Char) : (dropWords fuel text).2 <:+ text := by
  induction fuel generalizing text with
  | zero => exact List.suffix_rfl
  | succ fuel ih =>
      rw [dropWords]
      split
      next rest hdrop => exact (ih rest).trans (suffix_of_dropWord hdrop)
      next => exact List.suffix_rfl

theorem dropWords_of_none (fuel : ℕ) {text : List Char} (hnone : dropWord text = none) :
    dropWords fuel text = (0, text) := by
  cases fuel with
  | zero => rfl
  | succ fuel => rw [dropWords, hnone]

theorem dropWords_of_some (fuel : ℕ) {text rest : List Char} (hsome : dropWord text = some rest) :
    dropWords (fuel + 1) text = ((dropWords fuel rest).1 + 1, (dropWords fuel rest).2) := by
  rw [dropWords, hsome]

/-- Everything is left exactly if the text does not start with a word. -/
theorem dropWords_eq_self_iff {fuel : ℕ} {text : List Char} :
    (dropWords (fuel + 1) text).2 = text ↔ dropWord text = none := by
  constructor
  · intro heq
    cases hdrop : dropWord text with
    | none => rfl
    | some rest =>
        have hshort := length_of_dropWord hdrop
        have hsuffix := (dropWords_suffix fuel rest).length_le
        rw [dropWords_of_some fuel hdrop] at heq
        have hlength : (dropWords fuel rest).2.length = text.length := congrArg List.length heq
        omega
  · intro hnone
    rw [dropWords_of_none _ hnone]

theorem optsAt_eq_none {c : Char} {rest : List Char} (hc : c ≠ '-') :
    optsAt (c :: rest) = none := by
  unfold optsAt
  split
  next after heq => exact absurd (List.cons.inj heq).1 hc
  next => rfl

section Options

variable {letter : Char} {chain : List Char}

theorem dropWord_letter (hletter : letter.isUpper = true) (hne : chain ≠ [])
    (hupper : ∀ c ∈ chain, c.isUpper = true) (tail : List Char) :
    dropWord (letter :: ' ' :: (chain ++ tail)) = some (chain ++ tail) := by
  have hstart := ends_gap_chain hne hupper tail
  have hdrop := @dropWord_run [letter] (chain ++ tail) (by simp) (by simpa using hletter)
  rw [dropWhile_of_ends hstart] at hdrop
  exact hdrop

theorem optsAt_newChain (hletter : letter.isUpper = true) (hne : chain ≠ [])
    (hupper : ∀ c ∈ chain, c.isUpper = true) :
    leftmost optsAt ('-' :: letter :: ' ' :: chain) = none := by
  have hword := dropWord_letter hletter hne hupper []
  rw [List.append_nil] at hword
  have hfirst : optsAt ('-' :: letter :: ' ' :: chain) = none := by
    rw [optsAt]
    simp only [List.length_cons, dropWords_of_some _ hword,
      dropWords_of_none _ (dropWord_eq_none hupper)]
    rfl
  have hdash : ∀ c ∈ letter :: ' ' :: chain, c ≠ '-' := by
    rintro c hc rfl
    rcases List.mem_cons.mp hc with rfl | hc
    · revert hletter
      decide
    · rcases List.mem_cons.mp hc with heq | hc
      · revert heq
        decide
      · exact absurd (hupper _ hc) (by decide)
  apply leftmost_eq_none
  intro c rest hsuffix
  rcases List.suffix_cons_iff.mp hsuffix with heq | hlater
  · rw [heq, hfirst]
  · exact optsAt_eq_none (hdash c (hlater.mem List.mem_cons_self))

theorem optsAt_options (hletter : letter.isUpper = true) (hne : chain ≠ [])
    (hupper : ∀ c ∈ chain, c.isUpper = true) (options : List Char) :
    ∃ fuel, leftmost optsAt ('-' :: letter :: ' ' :: (chain ++ ' ' :: options)) =
      some ((dropWords (fuel + 1) (options.dropWhile gap)).2.takeWhile (· ≠ '\n')) := by
  refine ⟨(chain ++ options).length, leftmost_of_matchAt ?_⟩
  have hlength : (letter :: ' ' :: (chain ++ ' ' :: options)).length =
      (chain ++ options).length + 1 + 1 + 1 := by
    simp
    omega
  rw [optsAt]
  simp only [hlength, dropWords_of_some _ (dropWord_letter hletter hne hupper (' ' :: options)),
    dropWords_of_some _ (dropWord_run hne hupper)]
  rw [if_pos (by omega)]

end Options

/-! ## What is left of the options -/

theorem startsWithWord_iff (text : String) :
    Listed.StartsWithWord text ↔ dropWord text.toList ≠ none := by
  constructor
  · rintro ⟨word, c, rest, htext, hne, hupper, hsolid⟩
    have hgap : gap c = true := by simp [gap, hsolid]
    have hends : Ends Char.isUpper (c :: rest) := ends_cons.mpr (isUpper_of_gap hgap)
    rw [dropWord, htext, takeWhile_run hupper hends, dropWhile_run hupper hends,
      List.takeWhile_cons_of_pos hgap, if_pos ⟨hne, by simp⟩]
    simp
  · intro hsome
    rw [dropWord] at hsome
    simp only [ne_eq, ite_eq_right_iff, reduceCtorEq, imp_false, not_not] at hsome
    obtain ⟨hword, hblank⟩ := hsome
    cases hrest : text.toList.dropWhile Char.isUpper with
    | nil => simp [hrest] at hblank
    | cons c rest =>
        have hgap : gap c = true := by
          by_contra hgap
          rw [hrest, List.takeWhile_cons_of_neg hgap] at hblank
          exact hblank rfl
        refine ⟨text.toList.takeWhile Char.isUpper, c, rest, ?_, hword,
          fun d hd => List.mem_takeWhile_imp hd, by simpa [gap] using hgap⟩
        rw [← hrest, List.takeWhile_append_dropWhile]

theorem ends_gap_of_ends_isSpace {text : List Char} (hends : Ends isSpace text) :
    Ends gap text := by
  intro c hc
  by_contra hgap
  rw [Bool.not_eq_false] at hgap
  have hspace := hends c hc
  rw [isSpace_of_gap hgap] at hspace
  contradiction

theorem options_kept_iff {fuel : ℕ} {options left : List Char}
    (hleft : left = (dropWords (fuel + 1) (options.dropWhile gap)).2) :
    options.rdropWhile isSpace = trim isSpace left ↔
      (∀ c ∈ options, isSpace c = true) ∨ Ends isSpace options ∧ dropWord options = none := by
  have hsuffix : left <:+ options :=
    hleft ▸ (dropWords_suffix _ _).trans (List.dropWhile_suffix _)
  obtain ⟨gone, rfl⟩ := hsuffix
  rw [rdropWhile_eq_trim_iff]
  refine or_congr_right ⟨?_, ?_⟩
  · rintro ⟨rfl, hends⟩
    rw [List.nil_append] at hleft ⊢
    rw [dropWhile_of_ends (ends_gap_of_ends_isSpace hends), eq_comm] at hleft
    exact ⟨hends, dropWords_eq_self_iff.mp hleft⟩
  · rintro ⟨hends, hnone⟩
    rw [dropWhile_of_ends (ends_gap_of_ends_isSpace hends), dropWords_of_none _ hnone] at hleft
    have hgone : gone = [] := List.append_left_eq_self.mp hleft.symm
    subst hgone
    exact ⟨rfl, hends⟩

/-! ## Rendered rules -/

theorem words_eq {first second rest first' second' rest' : List Char} (hfirst : ' ' ∉ first)
    (hfirst' : ' ' ∉ first') (hsecond : ' ' ∉ second) (hsecond' : ' ' ∉ second')
    (hrest : Ends (· ≠ ' ') rest) (hrest' : Ends (· ≠ ' ') rest')
    (heq : first ++ ' ' :: (second ++ rest) = first' ++ ' ' :: (second' ++ rest')) :
    first = first' ∧ second = second' ∧ rest = rest' := by
  have hclean : ∀ {word : List Char}, ' ' ∉ word → ∀ c ∈ word, decide (c ≠ ' ') = true := by
    intro word hword c hc
    exact decide_eq_true fun hblank => hword (hblank ▸ hc)
  have hone : first = first' := by
    have htake := congrArg (List.takeWhile (· ≠ ' ')) heq
    rwa [takeWhile_run (hclean hfirst) (by simp), takeWhile_run (hclean hfirst') (by simp)] at htake
  subst hone
  have htail : second ++ rest = second' ++ rest' := by simpa using heq
  have htwo : second = second' := by
    have htake := congrArg (List.takeWhile (· ≠ ' ')) htail
    rwa [takeWhile_run (hclean hsecond) hrest, takeWhile_run (hclean hsecond') hrest'] at htake
  subst htwo
  exact ⟨rfl, rfl, List.append_cancel_left htail⟩

theorem rdropWhile_blank (text : List Char) :
    (' ' :: text).rdropWhile isSpace =
      if text.rdropWhile isSpace = [] then [] else ' ' :: text.rdropWhile isSpace :=
  rdropWhile_append isSpace [' '] text

theorem rdropWhile_blank_inj {left right : List Char} :
    (' ' :: left).rdropWhile isSpace = (' ' :: right).rdropWhile isSpace ↔
      left.rdropWhile isSpace = right.rdropWhile isSpace := by
  rw [rdropWhile_blank, rdropWhile_blank]
  by_cases hleft : left.rdropWhile isSpace = []
  · by_cases hright : right.rdropWhile isSpace = []
    · rw [if_pos hleft, if_pos hright, hleft, hright]
    · rw [if_pos hleft, if_neg hright, hleft]
      exact iff_of_false (by simp) fun hnil => hright hnil.symm
  · by_cases hright : right.rdropWhile isSpace = []
    · rw [if_neg hleft, if_pos hright, hright]
      exact iff_of_false (by simp) hleft
    · rw [if_neg hleft, if_neg hright, List.cons.injEq]
      exact and_iff_right rfl

theorem ends_rdropWhile_blank (text : List Char) :
    Ends (· ≠ ' ') ((' ' :: text).rdropWhile isSpace) := by
  rw [rdropWhile_blank]
  split <;> simp

/-- A command and a chain are the beginning of a trimmed line. -/
theorem trim_rule {cmd chain : List Char} (hcmd : Ends isSpace cmd) (hcmd_ne : cmd ≠ [])
    (hchain : ∀ c ∈ chain, isSpace c = false) (hne : chain ≠ []) (tail : List Char) :
    trim isSpace (cmd ++ ' ' :: (chain ++ tail)) =
      cmd ++ ' ' :: (chain ++ tail.rdropWhile isSpace) := by
  have hcore : cmd ++ ' ' :: chain ≠ [] := by simp
  have hlast : isSpace ((cmd ++ ' ' :: chain).getLast hcore) = false := by
    rw [List.getLast_append_of_ne_nil _ (List.cons_ne_nil _ _), List.getLast_cons hne]
    exact hchain _ (List.getLast_mem hne)
  have hstart : Ends isSpace (cmd ++ ' ' :: chain) := by
    obtain ⟨c, rest, rfl⟩ := List.exists_cons_of_ne_nil hcmd_ne
    exact hcmd
  have htrim := @trim_append _ isSpace _ tail hstart hcore hlast
  simpa using htrim

theorem toList_trimSpace (text : String) : (trimSpace text).toList = trim isSpace text.toList :=
  String.toList_ofList

theorem trimSpace_ofList {text : List Char} (htext : ∀ c ∈ text, isSpace c = false) :
    trimSpace (String.ofList text) = String.ofList text := by
  rw [trimSpace, String.toList_ofList, trim_eq_self htext]

/-- What `makeIPRule` returns consists of words of upper-case letters and the options. -/
theorem makeIPRule_words {line : String} {rule : IPRule} (hrule : makeIPRule line = .ok rule) :
    ∃ name, rule.cmd.toList = '-' :: name ∧ (∀ c ∈ name, c.isUpper = true) ∧
      rule.chain.toList ≠ [] ∧ ∀ c ∈ rule.chain.toList, c.isUpper = true := by
  unfold makeIPRule at hrule
  split at hrule
  next => cases hrule
  next cmd chain hmatch =>
    obtain ⟨c, rest, hfound⟩ := exists_of_leftmost hmatch
    obtain ⟨name, rfl, _, hname, hne, hchain⟩ := cmdAt_spec hfound
    have hcmd : ∀ c ∈ '-' :: name, isSpace c = false := by
      rw [List.forall_mem_cons]
      exact ⟨by decide, fun c hc => isSpace_of_nameChar (nameChar_of_isUpper (hname c hc))⟩
    have hwords : ∀ c ∈ chain, isSpace c = false :=
      fun c hc => isSpace_of_nameChar (nameChar_of_isUpper (hchain c hc))
    obtain rfl := Except.ok.inj hrule
    refine ⟨name, ?_, hname, ?_, ?_⟩
    · rw [trimSpace_ofList hcmd, String.toList_ofList]
    · rw [trimSpace_ofList hwords, String.toList_ofList]
      exact hne
    · rw [trimSpace_ofList hwords, String.toList_ofList]
      exact hchain

namespace Listed

def tail (listed : Listed) : List Char :=
  match listed.rest with
  | some rest => ' ' :: rest.toList
  | none => []

variable {listed : Listed} {rule : IPRule}

theorem toList_text (listed : Listed) :
    listed.text.toList = '-' :: listed.letter :: ' ' :: (listed.chain.toList ++ listed.tail) := by
  unfold text tail
  cases listed.rest <;> simp [String.toList_append]

theorem letter_isUpper (listed : Listed) : listed.letter.isUpper = true := by
  cases listed <;> rfl

theorem ends_tail (listed : Listed) {p : Char → Bool} (hblank : p ' ' = false) :
    Ends p listed.tail := by
  unfold tail
  cases listed.rest with
  | none => exact ends_nil
  | some rest => exact ends_cons.mpr hblank

theorem ends_rdropWhile_tail (listed : Listed) :
    Ends (· ≠ ' ') (listed.tail.rdropWhile isSpace) := by
  unfold tail
  cases listed.rest with
  | none => simp
  | some rest => exact ends_rdropWhile_blank _

/-- A rule is rendered as the line exactly if it has its command, chain and rest. -/
theorem rendered_iff (hwell : listed.WellFormed) {name : List Char}
    (hcmd : rule.cmd.toList = '-' :: name) (hname : ∀ c ∈ name, c.isUpper = true)
    (hne : rule.chain.toList ≠ []) (hchain : ∀ c ∈ rule.chain.toList, c.isUpper = true) :
    trimSpace (rule.cmd ++ " " ++ rule.chain ++ " " ++ rule.opts) = trimSpace listed.text ↔
      name = [listed.letter] ∧ rule.chain = listed.chain ∧
        listed.tail.rdropWhile isSpace = (' ' :: rule.opts.toList).rdropWhile isSpace := by
  have hupper : ∀ {word : List Char}, (∀ c ∈ word, c.isUpper = true) → ' ' ∉ word :=
    fun hword hblank => absurd (hword _ hblank) (by decide)
  have hlistedName : ∀ c ∈ listed.chain.toList, nameChar c = true := by
    intro c hc
    simpa [nameChar, or_assoc] using hwell.name c hc
  have hlistedBlank : ' ' ∉ listed.chain.toList :=
    fun hblank => absurd (hlistedName _ hblank) (by decide)
  have hrendered : trim isSpace (rule.cmd ++ " " ++ rule.chain ++ " " ++ rule.opts).toList =
      ('-' :: name) ++ ' ' ::
        (rule.chain.toList ++ (' ' :: rule.opts.toList).rdropWhile isSpace) := by
    rw [← trim_rule (ends_cons.mpr (by decide)) (List.cons_ne_nil _ _)
      (fun c hc => isSpace_of_nameChar (nameChar_of_isUpper (hchain c hc))) hne, ← hcmd]
    simp [String.toList_append]
  have hlisted : trim isSpace listed.text.toList =
      ['-', listed.letter] ++ ' ' ::
        (listed.chain.toList ++ listed.tail.rdropWhile isSpace) := by
    rw [← trim_rule (ends_cons.mpr (by decide)) (List.cons_ne_nil _ _)
      (fun c hc => isSpace_of_nameChar (hlistedName c hc)) hwell.named, listed.toList_text]
    rfl
  have hletter : ' ' ∉ ['-', listed.letter] :=
    List.not_mem_cons_of_ne_of_not_mem (by decide) (hupper (by simpa using listed.letter_isUpper))
  rw [← String.toList_inj, toList_trimSpace, toList_trimSpace, hrendered, hlisted]
  constructor
  · intro heq
    obtain ⟨hfirst, hsecond, hrest⟩ := words_eq
      (List.not_mem_cons_of_ne_of_not_mem (by decide) (hupper hname)) hletter (hupper hchain)
      hlistedBlank (ends_rdropWhile_blank _) listed.ends_rdropWhile_tail heq
    exact ⟨(List.cons.inj hfirst).2, String.toList_inj.mp hsecond, hrest.symm⟩
  · rintro ⟨hfirst, hsecond, hrest⟩
    rw [hfirst, hsecond, hrest]

/-- Neither words nor margins are taken from the rest of the line. -/
def Kept (listed : Listed) : Prop :=
  ∀ rest ∈ listed.rest, (∀ c ∈ rest.toList, isSpace c = true) ∨
    Ends isSpace rest.toList ∧ dropWord rest.toList = none

/-- The options that are read from a line whose chain is a word of upper-case letters. -/
theorem makeIPRule_upper (hwell : listed.WellFormed)
    (hupper : ∀ c ∈ listed.chain.toList, c.isUpper = true) :
    ∃ opts, makeIPRule listed.text =
        .ok ⟨String.ofList ['-', listed.letter], listed.chain, opts⟩ ∧
      (listed.tail.rdropWhile isSpace = (' ' :: opts.toList).rdropWhile isSpace ↔ listed.Kept) ∧
      (listed.Kept → opts = trimSpace (listed.rest.getD "")) := by
  have hcmd : leftmost cmdAt listed.text.toList =
      some (['-', listed.letter], listed.chain.toList) := by
    rw [listed.toList_text]
    exact leftmost_of_matchAt
      (cmdAt_line listed.letter_isUpper hwell.named hupper (listed.ends_tail (by decide)))
  have hletter : trimSpace (String.ofList ['-', listed.letter]) =
      String.ofList ['-', listed.letter] := by
    apply trimSpace_ofList
    rw [List.forall_mem_cons, List.forall_mem_singleton]
    exact ⟨by decide, isSpace_of_nameChar (nameChar_of_isUpper listed.letter_isUpper)⟩
  have hchain : trimSpace (String.ofList listed.chain.toList) = listed.chain := by
    rw [trimSpace_ofList fun c hc => isSpace_of_nameChar (nameChar_of_isUpper (hupper c hc)),
      String.ofList_toList]
  cases hrest : listed.rest with
  | none =>
      have htail : listed.tail = [] := by rw [tail, hrest]
      have hopts : leftmost optsAt listed.text.toList = none := by
        rw [listed.toList_text, htail, List.append_nil]
        exact optsAt_newChain listed.letter_isUpper hwell.named hupper
      refine ⟨"", ?_, ?_, ?_⟩
      · simp only [makeIPRule, hcmd, hopts, hletter, hchain]
      · rw [htail]
        exact iff_of_true (by decide) (by simp [Kept, hrest])
      · intro _
        decide
  | some rest =>
      have htail : listed.tail = ' ' :: rest.toList := by rw [tail, hrest]
      obtain ⟨fuel, hopts⟩ :=
        optsAt_options listed.letter_isUpper hwell.named hupper rest.toList
      rw [← htail, ← listed.toList_text] at hopts
      obtain ⟨left, hleft⟩ : ∃ left, left = (dropWords (fuel + 1) (rest.toList.dropWhile gap)).2 :=
        ⟨_, rfl⟩
      have hline : left.takeWhile (· ≠ '\n') = left := by
        rw [List.takeWhile_eq_self_iff]
        intro c hc
        have hmem : c ∈ rest.toList :=
          ((hleft ▸ dropWords_suffix _ _ : left <:+ _).trans (List.dropWhile_suffix _)).mem hc
        exact decide_eq_true fun hnewline => hwell.line rest hrest (hnewline ▸ hmem)
      rw [← hleft, hline] at hopts
      have hkept := options_kept_iff hleft
      have hdef : listed.Kept ↔ (∀ c ∈ rest.toList, isSpace c = true) ∨
          Ends isSpace rest.toList ∧ dropWord rest.toList = none := by
        simp [Kept, hrest]
      refine ⟨trimSpace (String.ofList left), ?_, ?_, ?_⟩
      · simp only [makeIPRule, hcmd, hopts, hletter, hchain]
      · rw [htail, rdropWhile_blank_inj, toList_trimSpace, String.toList_ofList, rdropWhile_trim,
          hkept, hdef]
      · intro hok
        have hcut := hkept.mpr (hdef.mp hok)
        rw [← String.toList_inj, toList_trimSpace, toList_trimSpace, String.toList_ofList, ← hcut,
          Option.getD_some]
        rcases hdef.mp hok with hblank | ⟨hends, _⟩
        · rw [List.rdropWhile_eq_nil_iff.mpr hblank, trim_eq_nil_iff.mpr hblank]
        · rw [trim_of_ends hends]

end Listed

/-! ## Commands -/

theorem words_injective {left right : String} (heq : words left = words right) : left = right := by
  have hsplit : left.toList.splitOn ' ' = right.toList.splitOn ' ' :=
    List.map_injective_iff.mpr (fun _ _ h => String.ofList_injective h) heq
  rw [← String.toList_inj]
  calc
    left.toList = [' '].intercalate (left.toList.splitOn ' ') :=
      (List.intercalate_splitOn ' ').symm
    _ = [' '].intercalate (right.toList.splitOn ' ') := by rw [hsplit]
    _ = right.toList := List.intercalate_splitOn ' '

theorem shVerbose_eq_words_iff (fmt : Sprintf) (command : String) :
    shVerbose fmt command = words command ↔ '%' ∉ command.toList := by
  constructor
  · intro heq hmem
    exact fmt.changed command hmem (words_injective heq)
  · intro hplain
    rw [shVerbose, fmt.plain command hplain]

theorem percent_mem_iff {start chain rest : String} (hstart : '%' ∉ start.toList)
    (hupper : ∀ c ∈ chain.toList, c.isUpper = true) :
    '%' ∈ (start ++ chain ++ " " ++ trimSpace rest).toList ↔ '%' ∈ rest.toList := by
  have hchain : '%' ∉ chain.toList := fun hmem => absurd (hupper _ hmem) (by decide)
  have htrim : '%' ∈ (trimSpace rest).toList ↔ '%' ∈ rest.toList := by
    rw [toList_trimSpace]
    exact mem_trim_iff (by decide)
  simp only [String.toList_append, List.mem_append, hstart, hchain, htrim, false_or]
  exact or_iff_right (by decide)

/-- The commands name the listed rule exactly if its rest has no directive. -/
theorem Listed.commands_iff (fmt : Sprintf) {listed : Listed}
    (hupper : ∀ c ∈ listed.chain.toList, c.isUpper = true) {rule : IPRule}
    (hcmd : rule.cmd = String.ofList ['-', listed.letter]) (hchain : rule.chain = listed.chain)
    (hopts : rule.opts = trimSpace (listed.rest.getD "")) :
    (addNatRule fmt rule = words ("iptables -t nat -A " ++ listed.chain ++ " " ++
        trimSpace (listed.rest.getD "")) ∧
      (listed.letter = 'A' → deleteNatRule fmt rule = words ("iptables -t nat -D " ++
        listed.chain ++ " " ++ trimSpace (listed.rest.getD ""))) ∧
      (listed.letter = 'N' → deleteNatRule fmt rule = words ("iptables -t nat -X " ++
        listed.chain))) ↔
      '%' ∉ (listed.rest.getD "").toList := by
  have hassoc : ∀ start : String,
      start ++ (listed.chain ++ " " ++ trimSpace (listed.rest.getD "")) =
      start ++ listed.chain ++ " " ++ trimSpace (listed.rest.getD "") := by
    intro start
    simp only [String.append_assoc]
  have hadd : '%' ∉ "iptables -t nat -A ".toList := by decide
  have hdelete : '%' ∉ "iptables -t nat -D ".toList := by decide
  constructor
  · rintro ⟨hadded, _⟩
    rw [addNatRule, hchain, hopts, hassoc, shVerbose_eq_words_iff,
      percent_mem_iff hadd hupper] at hadded
    exact hadded
  · intro hplain
    refine ⟨?_, ?_, ?_⟩
    · rw [addNatRule, hchain, hopts, hassoc, shVerbose_eq_words_iff, percent_mem_iff hadd hupper]
      exact hplain
    · intro hletter
      have hA : rule.cmd = "-A" := by rw [hcmd, hletter]
      rw [deleteNatRule, hchain, hopts, if_pos hA, hassoc, shVerbose_eq_words_iff,
        percent_mem_iff hdelete hupper]
      exact hplain
    · intro hletter
      have hN : rule.cmd = "-N" := by rw [hcmd, hletter]
      have hchain_clean : '%' ∉ ("iptables -t nat -X " ++ listed.chain).toList := by
        rw [String.toList_append, List.mem_append, not_or]
        exact ⟨by decide, fun hmem => absurd (hupper _ hmem) (by decide)⟩
      rw [deleteNatRule, hchain, if_neg (by rw [hN]; decide), if_pos hN, shVerbose_eq_words_iff]
      exact hchain_clean

theorem Listed.readAs_iff (fmt : Sprintf) {listed : Listed} (hwell : listed.WellFormed) :
    (∃ rule, makeIPRule listed.text = .ok rule ∧ listed.ReadAs fmt rule) ↔
      (∀ c ∈ listed.chain.toList, c.isUpper = true) ∧ listed.Kept ∧
        '%' ∉ (listed.rest.getD "").toList := by
  constructor
  · rintro ⟨rule, hrule, hread⟩
    obtain ⟨name, hcmd, hname, hne, hwords⟩ := makeIPRule_words hrule
    obtain ⟨rfl, hchain, htail⟩ := (rendered_iff hwell hcmd hname hne hwords).mp hread.rendered
    have hupper : ∀ c ∈ listed.chain.toList, c.isUpper = true := hchain ▸ hwords
    obtain ⟨opts, hmake, hkept, hopts⟩ := makeIPRule_upper hwell hupper
    rw [hmake] at hrule
    obtain rfl := Except.ok.inj hrule
    have hok := hkept.mp htail
    refine ⟨hupper, hok, ?_⟩
    exact (commands_iff fmt hupper rfl rfl (hopts hok)).mp
      ⟨hread.added, hread.deletedRule, hread.deletedChain⟩
  · rintro ⟨hupper, hok, hplain⟩
    obtain ⟨opts, hmake, hkept, hopts⟩ := makeIPRule_upper hwell hupper
    obtain ⟨name, hcmd, hname, hne, hwords⟩ := makeIPRule_words hmake
    have hletter : name = [listed.letter] := by simpa using hcmd.symm
    obtain ⟨hadded, hrule, hchain⟩ := (@commands_iff fmt listed hupper
      ⟨String.ofList ['-', listed.letter], listed.chain, opts⟩ rfl rfl (hopts hok)).mpr hplain
    exact ⟨_, hmake, (rendered_iff hwell hcmd hname hne hwords).mpr
      ⟨hletter, rfl, hkept.mpr hok⟩, hadded, hrule, hchain⟩

theorem wellFormed_append {chain options : String} (hnamed : chain.toList ≠ [])
    (hname : chain.toList.all nameChar = true) (hline : '\n' ∉ options.toList) :
    (Listed.append chain options).WellFormed where
  named := hnamed
  name := by
    intro c hc
    simpa [nameChar, or_assoc] using List.all_eq_true.mp hname c hc
  line := by
    rintro _ ⟨⟩
    exact hline
  target := by
    rintro _ _ ⟨⟩

/-- A formatter that marks every directive. -/
def marking : Sprintf where
  format text := String.ofList (text.toList.flatMap fun c => if c = '%' then ['%', '!'] else [c])
  plain := by
    intro text hplain
    have hsame : (text.toList.flatMap fun c => if c = '%' then ['%', '!'] else [c]) =
        text.toList.flatMap fun c => [c] := by
      apply List.flatMap_congr
      intro c hc
      rw [if_neg]
      rintro rfl
      exact hplain hc
    rw [hsame, List.flatMap_singleton', String.ofList_toList]
  changed := by
    intro text hmem heq
    have hlength : ∀ chars : List Char,
        (chars.flatMap fun c => if c = '%' then ['%', '!'] else [c]).length =
          chars.length + chars.count '%' := by
      intro chars
      induction chars with
      | nil => rfl
      | cons c rest ih =>
          rw [List.flatMap_cons, List.length_append, ih, List.length_cons, List.count_cons]
          by_cases hc : c = '%'
          · simp only [hc, if_true, beq_self_eq_true, List.length_cons, List.length_nil]
            omega
          · simp only [hc, if_false, beq_iff_eq, List.length_cons, List.length_nil]
            omega
    have hchars := congrArg String.toList heq
    rw [String.toList_ofList] at hchars
    have hcount := hlength text.toList
    rw [hchars] at hcount
    have hpos := List.count_pos_iff.mpr hmem
    omega

end IpTables
end Di
