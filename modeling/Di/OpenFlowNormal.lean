import Di.OpenFlowText

/-!
# The normal form keeps fields and actions

Actions are words, or calls with arguments in parentheses.  Cutting the calls out of a
line of joined actions leaves pieces that start or end with a comma; trimming and splitting
these gives back the words between the calls, in their order.  So the normal form of a line
consists of exactly its fields and actions, and rendering it gives a line with the same
normal form.
-/

namespace Di
namespace OpenFlow

open Lang (intText not_mem_intText)
open TextRuns

/-! ## Actions -/

/-- An action without arguments. -/
structure IsPlainAction (text : List Char) : Prop where
  ne_nil : text ≠ []
  clean : ∀ c ∈ text, c ≠ ',' ∧ solid c = true ∧ c ≠ '(' ∧ c ≠ ')'

/-- An action with arguments. -/
structure IsCall (text name args : List Char) : Prop where
  text_eq : text = name ++ '(' :: args ++ [')']
  name_ne_nil : name ≠ []
  name_chars : ∀ c ∈ name, wordChar c = true
  args_ne_nil : args ≠ []
  args_chars : ∀ c ∈ args, c ≠ '(' ∧ c ≠ ')' ∧ solid c = true

def IsAction (text : List Char) : Prop :=
  IsPlainAction text ∨ ∃ name args, IsCall text name args

def isCall (text : List Char) : Bool := '(' ∈ text

theorem IsPlainAction.isCall_eq {text : List Char} (hplain : IsPlainAction text) :
    isCall text = false :=
  decide_eq_false fun hmem => (hplain.clean _ hmem).2.2.1 rfl

theorem IsCall.isCall_eq {text name args : List Char} (hcall : IsCall text name args) :
    isCall text = true :=
  decide_eq_true (by simp [hcall.text_eq])

theorem solid_of_wordChar {c : Char} (hword : wordChar c = true) : solid c = true := by
  by_contra hblank
  simp only [solid, decide_eq_true_eq, not_and_or, not_not] at hblank
  rcases hblank with rfl | rfl | rfl | rfl | rfl <;> revert hword <;> decide

theorem IsAction.solid {text : List Char} (haction : IsAction text) :
    ∀ c ∈ text, solid c = true := by
  intro c hmem
  rcases haction with hplain | ⟨name, args, hcall⟩
  · exact (hplain.clean c hmem).2.1
  · rw [hcall.text_eq] at hmem
    simp only [List.append_assoc, List.cons_append, List.mem_append, List.mem_cons,
      List.not_mem_nil, or_false] at hmem
    rcases hmem with hname | rfl | hargs | rfl
    · exact solid_of_wordChar (hcall.name_chars c hname)
    · decide
    · exact (hcall.args_chars c hargs).2.2
    · decide

theorem IsAction.ne_nil {text : List Char} (haction : IsAction text) : text ≠ [] := by
  rcases haction with hplain | ⟨name, args, hcall⟩
  · exact hplain.ne_nil
  · simp [hcall.text_eq]

/-! ## Cutting out calls -/

theorem splitFuncs_skip (skipped rest : List Char) :
    splitFuncs (skipped ++ rest) skipped.length = splitFuncs rest 0 := by
  induction skipped with
  | nil => rfl
  | cons c skipped ih => exact ih

theorem matchFunc_comma {word : List Char} (hplain : '(' ∉ word) (rest : List Char) :
    matchFunc (word ++ ',' :: rest) = none := by
  have hdrop : ∀ after, (word ++ ',' :: rest).dropWhile wordChar ≠ '(' :: after := by
    intro after heq
    rw [List.dropWhile_append] at heq
    cases hword : word.dropWhile wordChar with
    | nil =>
        rw [hword, List.isEmpty_nil, if_pos rfl, List.dropWhile_cons_of_neg (by decide)] at heq
        cases heq
    | cons c tail =>
        rw [hword, List.isEmpty_cons, if_neg Bool.false_ne_true, List.cons_append] at heq
        have hmem : c ∈ word := (List.dropWhile_sublist _).mem (hword ▸ List.mem_cons_self)
        exact hplain ((List.cons.inj heq).1 ▸ hmem)
  unfold matchFunc
  split
  next after heq => exact absurd heq (hdrop after)
  next => rfl

theorem splitFuncs_comma {word : List Char} (hplain : '(' ∉ word) (rest : List Char) :
    splitFuncs (word ++ ',' :: rest) 0 =
      ((splitFuncs rest 0).1.modifyHead (word ++ ',' :: ·), (splitFuncs rest 0).2) := by
  induction word with
  | nil =>
      have hnone := matchFunc_comma List.not_mem_nil rest
      rw [List.nil_append] at hnone ⊢
      rw [splitFuncs, hnone]
      rfl
  | cons c word ih =>
      have hword := List.not_mem_of_not_mem_cons hplain
      have hnone := matchFunc_comma hplain rest
      rw [List.cons_append] at hnone ⊢
      rw [splitFuncs, hnone]
      simp only [ih hword, List.modifyHead_modifyHead]
      rfl

theorem IsCall.matchFunc {text name args : List Char} (hcall : IsCall text name args)
    (rest : List Char) : matchFunc (text ++ rest) = some text := by
  have hline : text ++ rest = name ++ '(' :: (args ++ ')' :: rest) := by
    simp [hcall.text_eq]
  have hname : (text ++ rest).takeWhile wordChar = name := by
    rw [hline, takeWhile_run hcall.name_chars (ends_cons.mpr (by decide))]
  have hdrop : (text ++ rest).dropWhile wordChar = '(' :: (args ++ ')' :: rest) := by
    rw [hline, dropWhile_run hcall.name_chars (ends_cons.mpr (by decide))]
  have hargs : (args ++ ')' :: rest).takeWhile (· ≠ ')') = args :=
    takeWhile_run (fun c hmem => decide_eq_true (hcall.args_chars c hmem).2.1) (by simp)
  unfold OpenFlow.matchFunc
  rw [hname, hdrop]
  simp only [hargs]
  rw [if_pos ⟨hcall.name_ne_nil, hcall.args_ne_nil, by simp⟩, hcall.text_eq]

theorem IsCall.splitFuncs {text name args : List Char} (hcall : IsCall text name args)
    (rest : List Char) :
    splitFuncs (text ++ rest) 0 =
      ([] :: (splitFuncs rest 0).1, text :: (splitFuncs rest 0).2) := by
  have hmatch := hcall.matchFunc rest
  rcases List.exists_cons_of_ne_nil (IsAction.ne_nil (.inr ⟨name, args, hcall⟩)) with
    ⟨c, tail, rfl⟩
  rw [List.cons_append] at hmatch ⊢
  rw [OpenFlow.splitFuncs, hmatch]
  simp only [List.length_cons, Nat.add_sub_cancel, splitFuncs_skip]

/-! ## Splitting the pieces -/

theorem argMatches_cons (piece : List Char) (pieces : List (List Char)) :
    argMatches (piece :: pieces) = argMatches [piece] ++ argMatches pieces := by
  simp [argMatches]

theorem argMatches_trimmed (piece : List Char) :
    argMatches [piece] =
      if trimCommas piece = [] then [] else ((trimCommas piece).splitOn ',').map String.ofList := by
  simp [argMatches, splitCommas]

theorem argMatches_comma (piece : List Char) : argMatches [',' :: piece] = argMatches [piece] := by
  have htrim : trimCommas (',' :: piece) = trimCommas piece := by
    rw [trimCommas, List.dropWhile_cons_of_pos (by decide), trimCommas]
  rw [argMatches_trimmed, htrim, ← argMatches_trimmed]

theorem IsPlainAction.paren_not_mem {word : List Char} (hplain : IsPlainAction word) :
    '(' ∉ word := fun hmem => (hplain.clean _ hmem).2.2.1 rfl

theorem IsPlainAction.head?_ne {word : List Char} (hplain : IsPlainAction word) :
    word.head? ≠ some ',' := by
  intro hhead
  exact (hplain.clean _ (List.mem_of_mem_head? hhead)).1 rfl

theorem IsPlainAction.comma_not_mem {word : List Char} (hplain : IsPlainAction word) :
    ',' ∉ word := fun hmem => (hplain.clean _ hmem).1 rfl

theorem IsPlainAction.trimCommas {word : List Char} (hplain : IsPlainAction word)
    (piece : List Char) : trimCommas (word ++ piece) = word ++ piece.rdropWhile (· = ',') := by
  have hnot : ∀ c ∈ word, decide (c = ',') = false :=
    fun c hmem => decide_eq_false (hplain.clean c hmem).1
  exact trim_append (fun c hc => hnot c (List.mem_of_mem_head? hc)) hplain.ne_nil
    (hnot _ (List.getLast_mem _))

theorem IsPlainAction.argMatches_word {word : List Char} (hplain : IsPlainAction word) :
    argMatches [word] = [String.ofList word] := by
  have htrim := hplain.trimCommas []
  rw [List.append_nil, List.rdropWhile_nil, List.append_nil] at htrim
  rw [argMatches_trimmed, htrim, if_neg hplain.ne_nil,
    List.splitOn_eq_singleton hplain.comma_not_mem]
  rfl

theorem IsPlainAction.argMatches_comma {word : List Char} (hplain : IsPlainAction word)
    {piece : List Char} (hpiece : piece.head? ≠ some ',') :
    argMatches [word ++ ',' :: piece] = String.ofList word :: argMatches [piece] := by
  have hcomma : (',' :: piece).rdropWhile (· = ',') =
      if piece.rdropWhile (· = ',') = [] then [] else ',' :: piece.rdropWhile (· = ',') := by
    exact rdropWhile_append _ [','] piece
  have hpart : OpenFlow.trimCommas piece = piece.rdropWhile (· = ',') :=
    trim_of_ends fun c hc => decide_eq_false fun heq => hpiece (heq ▸ hc)
  rw [argMatches_trimmed, argMatches_trimmed, hplain.trimCommas, hpart, hcomma]
  by_cases hnil : piece.rdropWhile (· = ',') = []
  · rw [if_pos hnil, if_pos hnil, List.append_nil, if_neg hplain.ne_nil,
      List.splitOn_eq_singleton hplain.comma_not_mem]
    rfl
  · rw [if_neg hnil, if_neg hnil, if_neg (by simp),
      List.splitOn_append_cons_self_of_not_mem hplain.comma_not_mem]
    rfl

/-! ## Joined actions -/

theorem intercalate_cons {a : List Char} {acts : List (List Char)} (hne : acts ≠ []) :
    [','].intercalate (a :: acts) = a ++ ',' :: [','].intercalate acts := by
  rcases List.exists_cons_of_ne_nil hne with ⟨b, rest, rfl⟩
  simp [List.intercalate]

/-- The pieces between the calls hold the words, and no piece that a word could be put in
front of starts with a comma. -/
theorem splitFuncs_join {acts : List (List Char)} (hne : acts ≠ [])
    (hacts : ∀ a ∈ acts, IsAction a) :
    ∃ piece pieces,
      splitFuncs ([','].intercalate acts) 0 = (piece :: pieces, acts.filter isCall) ∧
      piece.head? ≠ some ',' ∧
      argMatches (piece :: pieces) = (acts.filter (!isCall ·)).map String.ofList := by
  induction acts with
  | nil => exact absurd rfl hne
  | cons a acts ih =>
      rw [List.forall_mem_cons] at hacts
      obtain ⟨ha, hacts⟩ := hacts
      by_cases hnil : acts = []
      · subst hnil
        rw [List.intercalate_singleton]
        rcases ha with hplain | ⟨name, args, hcall⟩
        · refine ⟨a, [], ?_, hplain.head?_ne, ?_⟩
          · rw [splitFuncs_plain hplain.paren_not_mem,
              List.filter_cons_of_neg (by simp [hplain.isCall_eq])]
            rfl
          · rw [hplain.argMatches_word, List.filter_cons_of_pos (by simp [hplain.isCall_eq])]
            rfl
        · refine ⟨[], [[]], ?_, by simp, ?_⟩
          · have hsplit := hcall.splitFuncs []
            rw [List.append_nil] at hsplit
            rw [hsplit, List.filter_cons_of_pos hcall.isCall_eq]
            rfl
          · rw [List.filter_cons_of_neg (by simp [hcall.isCall_eq])]
            rfl
      · obtain ⟨piece, pieces, hsplit, hhead, hwords⟩ := ih hnil hacts
        rw [intercalate_cons hnil]
        rcases ha with hplain | ⟨name, args, hcall⟩
        · refine ⟨a ++ ',' :: piece, pieces, ?_, ?_, ?_⟩
          · rw [splitFuncs_comma hplain.paren_not_mem, hsplit,
              List.filter_cons_of_neg (by simp [hplain.isCall_eq])]
            rfl
          · rw [List.head?_append_of_ne_nil _ hplain.ne_nil]
            exact hplain.head?_ne
          · rw [argMatches_cons, hplain.argMatches_comma hhead, List.cons_append,
              ← argMatches_cons, hwords, List.filter_cons_of_pos (by simp [hplain.isCall_eq])]
            rfl
        · refine ⟨[], (',' :: piece) :: pieces, ?_, by simp, ?_⟩
          · have hcomma := splitFuncs_comma List.not_mem_nil ([','].intercalate acts)
            rw [List.nil_append, hsplit] at hcomma
            rw [hcall.splitFuncs, hcomma, List.filter_cons_of_pos hcall.isCall_eq]
            rfl
          · rw [argMatches_cons, argMatches_cons (',' :: piece), argMatches_comma,
              ← argMatches_cons, hwords, List.filter_cons_of_neg (by simp [hcall.isCall_eq])]
            rfl

/-- The actions of a line are those that were joined. -/
theorem allMatches_join {actions : List String} (hne : actions ≠ [])
    (hactions : ∀ action ∈ actions, IsAction action.toList) :
    (allMatches (",".intercalate actions).toList).Perm actions := by
  have hchars : (",".intercalate actions).toList = [','].intercalate (actions.map String.toList) :=
    String.toList_intercalate
  obtain ⟨piece, pieces, hsplit, _, hwords⟩ := @splitFuncs_join (actions.map String.toList)
    (by simpa using hne) (by simpa using hactions)
  have hback : (actions.map String.toList).map String.ofList = actions := by simp
  have hmatches : allMatches (",".intercalate actions).toList =
      ((actions.map String.toList).filter (!isCall ·) ++
        (actions.map String.toList).filter isCall).map String.ofList := by
    rw [allMatches, hchars, hsplit, List.map_append]
    exact congrArg (· ++ _) hwords
  have hperm := (List.perm_append_comm.trans
    (List.filter_append_perm isCall (actions.map String.toList))).map String.ofList
  rw [hmatches]
  rwa [hback] at hperm

theorem joinSorted_eq_of_perm {left right : List String} (hperm : left.Perm right) :
    joinSorted left = joinSorted right :=
  congrArg (",".intercalate ·) (sortStrings_eq_of_perm hperm)

theorem takeWhile_solid_join {actions : List String}
    (hactions : ∀ action ∈ actions, IsAction action.toList) :
    (",".intercalate actions).toList.takeWhile solid = (",".intercalate actions).toList := by
  rw [List.takeWhile_eq_self_iff]
  intro c hmem
  rcases mem_intercalate hmem with hcomma | ⟨action, haction, hc⟩
  · rw [List.mem_singleton.mp hcomma]
    decide
  · exact (hactions action haction).solid c hc

theorem join_ne_nil {actions : List String} (hne : actions ≠ [])
    (hactions : ∀ action ∈ actions, IsAction action.toList) :
    (",".intercalate actions).toList ≠ [] := by
  rcases List.exists_cons_of_ne_nil hne with ⟨action, rest, rfl⟩
  have hfirst := (hactions action List.mem_cons_self).ne_nil
  cases rest with
  | nil => simpa using hfirst
  | cons next rest =>
      rw [String.intercalate_cons_cons, String.toList_append, String.toList_append]
      simp [hfirst]

/-! ## The actions of flows -/

theorem forall_chars_append {P : Char → Prop} {left right : String}
    (hleft : ∀ c ∈ left.toList, P c) (hright : ∀ c ∈ right.toList, P c) :
    ∀ c ∈ (left ++ right).toList, P c := by
  rw [String.toList_append]
  exact List.forall_mem_append.mpr ⟨hleft, hright⟩

/-- Neither separates words, fields or actions nor calls a function. -/
def IsAddress (text : String) : Prop :=
  ∀ c ∈ text.toList, c ≠ ',' ∧ solid c = true ∧ c ≠ '(' ∧ c ≠ ')'

instance (text : String) : Decidable (IsAddress text) :=
  decidable_of_iff
    (text.toList.all (fun c => c ≠ ',' ∧ solid c = true ∧ c ≠ '(' ∧ c ≠ ')') = true)
    (by simp [IsAddress])

theorem IsAddress.isWord {text : String} (haddress : IsAddress text) : IsWord text :=
  ⟨fun hmem => absurd (haddress _ hmem).2.1 (by decide), fun hmem => (haddress _ hmem).1 rfl⟩

theorem isAddress_intText (x : ℤ) : IsAddress (intText x) := by
  intro c hmem
  refine ⟨?_, solid_of_mem_intText hmem, ?_, ?_⟩
  · rintro rfl
    exact not_mem_intText x (by decide) (by decide) hmem
  · rintro rfl
    exact not_mem_intText x (by decide) (by decide) hmem
  · rintro rfl
    exact not_mem_intText x (by decide) (by decide) hmem

theorem isAction_prefixed {name argument : String} (hne : name.toList ≠ [])
    (hname : IsAddress name) (hargument : IsAddress argument) :
    IsAction (name ++ argument).toList :=
  .inl ⟨by simp [String.toList_append, hne], forall_chars_append hname hargument⟩

theorem isAction_output (number : ℤ) : IsAction (Action.output number).text.toList :=
  isAction_prefixed (by decide) (by decide) (isAddress_intText number)

theorem isAction_modDlDst {mac : String} (hmac : IsAddress mac) :
    IsAction (Action.modDlDst mac).text.toList :=
  isAction_prefixed (by decide) (by decide) hmac

def IsArgs (text : String) : Prop := ∀ c ∈ text.toList, c ≠ '(' ∧ c ≠ ')' ∧ solid c = true

instance (text : String) : Decidable (IsArgs text) :=
  decidable_of_iff (text.toList.all (fun c => c ≠ '(' ∧ c ≠ ')' ∧ solid c = true) = true)
    (by simp [IsArgs])

theorem IsArgs.append {left right : String} (hleft : IsArgs left) (hright : IsArgs right) :
    IsArgs (left ++ right) :=
  forall_chars_append hleft hright

theorem isArgs_intText (x : ℤ) : IsArgs (intText x) := by
  intro c hmem
  obtain ⟨_, hsolid, hopen, hclose⟩ := isAddress_intText x c hmem
  exact ⟨hopen, hclose, hsolid⟩

theorem isArgs_nxmRange (n : ℕ) : IsArgs (nxmRange n) := by
  simp only [nxmRange, registerSlice]
  split
  next => decide
  next => exact IsArgs.append (by decide) (isArgs_intText _)

theorem isAction_call {name args : String} (hname : name.toList ≠ [])
    (hchars : name.toList.all wordChar = true) (hne : args.toList ≠ []) (hargs : IsArgs args) :
    IsAction (name ++ "(" ++ args ++ ")").toList :=
  .inr ⟨name.toList, args.toList, by simp [String.toList_append], hname,
    by simpa using hchars, hne, hargs⟩

theorem isAction_resubmit (table : ℕ) : IsAction (Action.resubmit table).text.toList := by
  have htext : (Action.resubmit table).text =
      "resubmit" ++ "(" ++ ("," ++ intText table) ++ ")" := by
    change "resubmit(," ++ intText table ++ ")" = _
    simp only [← String.append_assoc]
    rfl
  rw [htext]
  refine isAction_call (by decide) (by decide) (by simp [String.toList_append]) ?_
  exact IsArgs.append (by decide) (isArgs_intText _)

theorem isAction_multipath (n : ℕ) : IsAction (Action.multipath n).text.toList := by
  have htext : (Action.multipath n).text =
      "multipath" ++ "(" ++ ("symmetric_l3l4,0,modulo_n," ++ (intText n ++
        (",0,NXM_NX_REG0[" ++ (nxmRange n ++ "]")))) ++ ")" := by
    have hhead : "multipath(symmetric_l3l4,0,modulo_n," =
        "multipath" ++ "(" ++ "symmetric_l3l4,0,modulo_n," := by decide
    have htail : "])" = "]" ++ ")" := by decide
    change "multipath(symmetric_l3l4,0,modulo_n," ++ intText n ++ ",0,NXM_NX_REG0[" ++
      nxmRange n ++ "])" = _
    rw [hhead, htail]
    simp only [String.append_assoc]
  rw [htext]
  refine isAction_call (by decide) (by decide) (by simp [String.toList_append]) ?_
  exact IsArgs.append (by decide) ((isArgs_intText _).append
    (IsArgs.append (by decide) ((isArgs_nxmRange n).append (by decide))))

/-- The actions of a rule are those of its flow. -/
theorem Flow.rule_actions {flow : Flow} (hne : flow.actions ≠ [])
    (hactions : ∀ action ∈ flow.actions, IsAction action.text.toList) :
    flow.rule.actions = joinSorted (flow.actions.map Action.text) := by
  have htexts : ∀ text ∈ flow.actions.map Action.text, IsAction text.toList := by
    simpa using hactions
  rw [Flow.rule, Flow.actionsText, takeWhile_solid_join htexts]
  exact joinSorted_eq_of_perm (allMatches_join (by simpa using hne) htexts)

theorem Flow.rule_action {flow : Flow} {action : Action} (hactions : flow.actions = [action])
    (haction : IsAction action.text.toList) : flow.rule.actions = action.text := by
  rw [Flow.rule_actions (by simp [hactions]) (by simpa [hactions] using haction), hactions]
  exact joinSorted_singleton _

/-! ## Lines -/

/-- The first occurrence of `table=` before a digit names the table. -/
structure NamesTable (line table : String) : Prop where
  ne_empty : table.toList ≠ []
  digits : ∀ c ∈ table.toList, c.isDigit = true
  first : ∃ before after, line.toList = before ++ ("table=".toList ++ (table.toList ++ after)) ∧
    (∀ c ∈ after.head?, c.isDigit = false) ∧
    ∀ earlier c rest, line.toList = earlier ++ ("table=".toList ++ c :: rest) →
      c.isDigit = true → before.length ≤ earlier.length

/-- The last two words of a line are its fields and its actions. -/
def EndsIn (line : String) (fields actions : List String) : Prop :=
  line = ",".intercalate fields ++ " actions=" ++ ",".intercalate actions ∨
    ∃ front, line = front ++ " " ++ ",".intercalate fields ++ " actions=" ++
      ",".intercalate actions

theorem findAfter_first {key before run after : List Char} {p : Char → Bool} (hkey : key ≠ [])
    (hrun : run ≠ []) (hchars : ∀ c ∈ run, p c = true) (hend : ∀ c ∈ after.head?, p c = false)
    (hfirst : ∀ earlier c rest, before ++ (key ++ (run ++ after)) = earlier ++ (key ++ c :: rest) →
      p c = true → before.length ≤ earlier.length) :
    findAfter key p (before ++ (key ++ (run ++ after))) = some run := by
  have htake := takeWhile_run hchars hend
  induction before with
  | nil => rw [List.nil_append, findAfter_key hkey (by rwa [htake]), htake]
  | cons b before ih =>
      have hlater := ih (by
        intro earlier c rest heq hc
        have hle := hfirst (b :: earlier) c rest (congrArg (b :: ·) heq) hc
        simpa using hle)
      rw [List.cons_append, findAfter]
      split
      next rest hprefix =>
        -- an occurrence this early has no run behind it
        have hline := List.isPrefixOf?_eq_some_iff_append_eq.mp hprefix
        split
        next => exact hlater
        next found hfound =>
          cases rest with
          | nil => simp at hfound
          | cons c rest =>
              by_cases hc : p c = true
              · have hle := hfirst [] c rest hline.symm hc
                simp at hle
              · rw [List.takeWhile_cons_of_neg hc] at hfound
                exact absurd rfl hfound
      next => exact hlater

theorem NamesTable.findAfter {line table : String} (htable : NamesTable line table) :
    findAfter "table=".toList Char.isDigit line.toList = some table.toList := by
  obtain ⟨before, after, hline, hend, hfirst⟩ := htable.first
  rw [hline] at hfirst ⊢
  exact findAfter_first (by decide) htable.ne_empty htable.digits hend hfirst

def OFRule.line (rule : OFRule) : String :=
  rule.table ++ " " ++ rule.matchText ++ " actions=" ++ rule.actions

section Canonical

variable {line table : String} {fields actions : List String}

theorem blank_not_mem_actions (hactions : ∀ action ∈ actions, IsAction action.toList) :
    ' ' ∉ ("actions=" ++ ",".intercalate actions).toList := by
  apply blank_not_mem_append (by decide)
  apply blank_not_mem_join
  intro action haction hmem
  exact absurd ((hactions action haction).solid _ hmem) (by decide)

theorem EndsIn.splitOn (hends : EndsIn line fields actions)
    (hfields : ∀ field ∈ fields, IsWord field)
    (hactions : ∀ action ∈ actions, IsAction action.toList) :
    ∃ front, line.toList.splitOn ' ' = front ++ [(",".intercalate fields).toList,
      ("actions=" ++ ",".intercalate actions).toList] := by
  have hmatch : ' ' ∉ (",".intercalate fields).toList :=
    blank_not_mem_join fun field hfield => (hfields field hfield).1
  have hlast := blank_not_mem_actions hactions
  have htwo : ((",".intercalate fields).toList ++ ' ' ::
      ("actions=" ++ ",".intercalate actions).toList).splitOn ' ' =
        [(",".intercalate fields).toList, ("actions=" ++ ",".intercalate actions).toList] := by
    rw [List.splitOn_append_cons_self_of_not_mem hmatch, List.splitOn_eq_singleton hlast]
  rcases hends with rfl | ⟨front, rfl⟩
  · refine ⟨[], ?_⟩
    rw [List.nil_append, ← htwo]
    simp [String.toList_append]
  · refine ⟨front.toList.splitOn ' ', ?_⟩
    rw [← htwo, ← List.splitOn_append_cons_self]
    simp [String.toList_append]

/-- The normal form of a line. -/
theorem makeOFRule_eq (htable : NamesTable line table) (hends : EndsIn line fields actions)
    (hfields_ne : fields ≠ []) (hfields : ∀ field ∈ fields, IsWord field)
    (hactions_ne : actions ≠ []) (hactions : ∀ action ∈ actions, IsAction action.toList) :
    makeOFRule line = .ok {
      table := "table=" ++ table
      matchText := joinSorted fields
      actions := joinSorted actions } := by
  obtain ⟨front, hsplit⟩ := hends.splitOn hfields hactions
  have hjoined := takeWhile_solid_join hactions
  have hfound : findAfter "actions=".toList solid
      ("actions=" ++ ",".intercalate actions).toList =
        some (",".intercalate actions).toList := by
    rw [String.toList_append, findAfter_key (by decide), hjoined]
    rw [hjoined]
    exact join_ne_nil hactions_ne hactions
  have hsorted := joinSorted_eq_of_perm (allMatches_join hactions_ne hactions)
  rw [makeOFRule, htable.findAfter, hsplit]
  simp only [List.reverse_append, List.reverse_cons, List.reverse_nil, List.nil_append,
    List.cons_append, hfound, String.ofList_toList, hsorted]
  rw [splitCommas_join hfields_ne fun field hfield => (hfields field hfield).2]

theorem namesTable_line (hne : table.toList ≠ []) (hdigits : ∀ c ∈ table.toList, c.isDigit = true)
    (rest : String) : NamesTable ("table=" ++ table ++ " " ++ rest) table where
  ne_empty := hne
  digits := hdigits
  first := by
    refine ⟨[], ' ' :: rest.toList, by simp [String.toList_append], ?_, ?_⟩
    · rintro c ⟨⟩
      decide
    · intro earlier c after _ _
      exact Nat.zero_le _

theorem sortStrings_ne_nil {texts : List String} (hne : texts ≠ []) : sortStrings texts ≠ [] := by
  intro hnil
  have hperm := sortStrings_perm texts
  rw [hnil] at hperm
  exact hne hperm.symm.eq_nil

theorem forall_mem_sortStrings {texts : List String} {P : String → Prop}
    (hall : ∀ text ∈ texts, P text) : ∀ text ∈ sortStrings texts, P text := by
  intro text hmem
  exact hall text ((sortStrings_perm texts).mem_iff.mp hmem)

/-- The normal form of a line holds exactly its fields and actions, in sorted order; neither
reordering nor rendering changes it. -/
theorem makeOFRule_canonical (htable : NamesTable line table)
    (hends : EndsIn line fields actions) (hfields_ne : fields ≠ [])
    (hfields : ∀ field ∈ fields, IsWord field) (hactions_ne : actions ≠ [])
    (hactions : ∀ action ∈ actions, IsAction action.toList) :
    ∃ rule, makeOFRule line = .ok rule ∧ rule.table = "table=" ++ table ∧
      rule.matchText = ",".intercalate (sortStrings fields) ∧
      rule.actions = ",".intercalate (sortStrings actions) ∧
      (∀ line' fields' actions', NamesTable line' table → EndsIn line' fields' actions' →
        fields'.Perm fields → actions'.Perm actions → makeOFRule line' = .ok rule) ∧
      makeOFRule rule.line = .ok rule := by
  refine ⟨_, makeOFRule_eq htable hends hfields_ne hfields hactions_ne hactions, rfl, rfl, rfl,
    ?_, ?_⟩
  · intro line' fields' actions' htable' hends' hfields' hactions'
    have hfields_ne' : fields' ≠ [] := fun hnil => hfields_ne (hnil ▸ hfields').symm.eq_nil
    have hactions_ne' : actions' ≠ [] := fun hnil => hactions_ne (hnil ▸ hactions').symm.eq_nil
    rw [makeOFRule_eq htable' hends' hfields_ne'
      (fun field hfield => hfields field (hfields'.mem_iff.mp hfield)) hactions_ne'
      (fun action haction => hactions action (hactions'.mem_iff.mp haction)),
      joinSorted_eq_of_perm hfields', joinSorted_eq_of_perm hactions']
  · have hrendered := namesTable_line htable.ne_empty htable.digits
      (joinSorted fields ++ " actions=" ++ joinSorted actions)
    have hparts : EndsIn ("table=" ++ table ++ " " ++ (joinSorted fields ++ " actions=" ++
        joinSorted actions)) (sortStrings fields) (sortStrings actions) :=
      .inr ⟨"table=" ++ table, by simp [joinSorted, String.append_assoc]⟩
    have hagain := makeOFRule_eq hrendered hparts (sortStrings_ne_nil hfields_ne)
      (forall_mem_sortStrings hfields) (sortStrings_ne_nil hactions_ne)
      (forall_mem_sortStrings hactions)
    rw [joinSorted_eq_of_perm (sortStrings_perm fields),
      joinSorted_eq_of_perm (sortStrings_perm actions)] at hagain
    rw [← hagain]
    simp only [OFRule.line, String.append_assoc]

end Canonical

theorem makeOFRule_canonical_resubmit :
    ∃ rule, makeOFRule "table=0 priority=5000,in_port=3 actions=resubmit(,1),output:7" = .ok rule ∧
      rule.matchText = ",".intercalate (sortStrings ["priority=5000", "in_port=3"]) ∧
      rule.actions = ",".intercalate (sortStrings ["resubmit(,1)", "output:7"]) ∧
      makeOFRule rule.line = .ok rule := by
  have htable : NamesTable ("table=" ++ "0" ++ " " ++
      "priority=5000,in_port=3 actions=resubmit(,1),output:7") "0" :=
    namesTable_line (by decide) (by simp) _
  obtain ⟨rule, hrule, _, hmatch, hactions, _, hline⟩ :=
    @makeOFRule_canonical _ _ ["priority=5000", "in_port=3"] ["resubmit(,1)", "output:7"] htable
      (.inr ⟨"table=0", by decide⟩) (by simp)
      (by simpa using ⟨by decide, by decide⟩) (by simp)
      (by simpa using ⟨isAction_resubmit 1, isAction_output 7⟩)
  exact ⟨rule, hrule, hmatch, hactions, hline⟩

end OpenFlow
end Di
