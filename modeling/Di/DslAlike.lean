import Di.DslEval
import Di.NumberText

/-!
# Programs that differ only in what their text does not show

Two trees are alike if the second one has the numbers that are read from the text of
the first, and its S-expressions stand at corresponding positions.  The operations on
values that never look at positions, and never tell a number from the integer with the
same text, send alike arguments to alike results.
-/

namespace Di
namespace Lang

open List (Forall₂)

/-- Which positions of two programs correspond; an S-expression that the evaluator makes has no
position. -/
class Placing where
  corresponds : Position → Position → Prop
  nowhere : corresponds {} {}

/-- Corresponding positions are equal in one program if they are equal in the other. -/
def Placing.Exact [Placing] : Prop :=
  ∀ p q p' q', corresponds p p' → corresponds q q' → (p = q ↔ p' = q')

inductive Scalar.Alike : Scalar → Scalar → Prop
  | same (value : Scalar) (hsettled : value.settled = true) : Scalar.Alike value value
  | whole {x : GoFloat} {n : ℕ} (htext : x.formatG = natChars n)
      (hvalue : GoFloat.ofInt n = x) : Scalar.Alike (.float x) (.int n)

/-- Entries of two maps. -/
inductive EntryAlike {κ : Type} (same : κ → κ → Prop) (alike : Ast → Ast → Prop) :
    κ × Ast → κ × Ast → Prop
  | mk {k l : κ} {a b : Ast} (hkeys : same k l) (hvalues : alike a b) :
      EntryAlike same alike (k, a) (l, b)

section Relations

variable [Placing]

inductive Alike : Ast → Ast → Prop
  | list {isNil : Bool} {as bs : List Ast} (helems : Forall₂ Alike as bs) :
      Alike (.list isNil as) (.list isNil bs)
  | hmap {es fs : List (Scalar × Ast)} (hentries : Forall₂ (EntryAlike Scalar.Alike Alike) es fs) :
      Alike (.hmap es) (.hmap fs)
  | sexp {as bs : List Ast} {p q : Position} (helems : Forall₂ Alike as bs)
      (hplaces : Placing.corresponds p q) : Alike (.sexp as p) (.sexp bs q)
  | lambda {names : List String} {as bs : List Ast} {c d : Ctx} (hbody : Forall₂ Alike as bs)
      (hctx : Forall₂ (Forall₂ (EntryAlike Eq Alike)) c d) :
      Alike (.lambda names as c) (.lambda names bs d)
  | moduleNode {name : String} {as bs : List Ast} (hbody : Forall₂ Alike as bs) :
      Alike (.moduleNode name as) (.moduleNode name bs)
  | label (l : AstLabel) : Alike (.label l) (.label l)
  | scalar {v w : Scalar} (hvalue : v.Alike w) : Alike (.scalar v) (.scalar w)

abbrev AllAlike : List Ast → List Ast → Prop := Forall₂ Alike

abbrev EntriesAlike : List (Scalar × Ast) → List (Scalar × Ast) → Prop :=
  Forall₂ (EntryAlike Scalar.Alike Alike)

abbrev BindsAlike : Binds → Binds → Prop := Forall₂ (EntryAlike Eq Alike)

abbrev CtxAlike : Ctx → Ctx → Prop := Forall₂ BindsAlike

end Relations

/-! ## Numbers with the text of an integer -/

namespace Scalar.Alike

variable {v w : Scalar}

theorem shown_of_settled (hsettled : v.settled = true) : v.shown = v := by
  cases v with
  | float x => simp [Scalar.shown, hsettled]
  | _ => rfl

theorem eq_shown (halike : v.Alike w) : w = v.shown := by
  cases halike with
  | same _ hsettled => rw [shown_of_settled hsettled]
  | @whole x n htext _ =>
      have hunsettled : Scalar.settled (.float x) = false := by
        rw [Scalar.settled, htext, Bool.or_eq_false_iff, decide_eq_false_iff_not,
          decide_eq_false_iff_not]
        constructor
        · exact fun hpoint => absurd (isDigit_of_mem_natChars hpoint) (by decide)
        · exact fun hexponent => absurd (isDigit_of_mem_natChars hexponent) (by decide)
      simp [Scalar.shown, hunsettled, htext, digitsValue_natChars]

theorem eq_of_settled (halike : v.Alike w) (hsettled : v.settled = true) : v = w := by
  rw [halike.eq_shown, shown_of_settled hsettled]

theorem shown_alike (halike : v.Alike w) : v.shown.Alike w := by
  rw [halike.eq_shown]
  apply Alike.same
  cases v with
  | float x =>
      change (if Scalar.settled (.float x) then Scalar.float x else _).settled = true
      split_ifs with hsettled
      · exact hsettled
      · rfl
  | _ => rfl

theorem text_eq (halike : v.Alike w) (store : Store) : v.text store = w.text store := by
  cases halike with
  | same => rfl
  | whole htext _ => simp [Scalar.text, floatText, intText_natCast, htext]

theorem toBool_eq (halike : v.Alike w) (hdecisive : decisive (.scalar v) = true) :
    toBool (.scalar v) = toBool (.scalar w) := by
  cases halike with
  | same => rfl
  | @whole x n _ hvalue =>
      have hne : n ≠ 0 := by
        rintro rfl
        subst hvalue
        exact absurd hdecisive (by decide +kernel)
      simp [toBool, hne]

theorem toFloat_eq (halike : v.Alike w) : toFloat (.scalar v) = toFloat (.scalar w) := by
  cases halike with
  | same => rfl
  | whole _ hvalue => simp [toFloat, hvalue]

end Scalar.Alike

/-! ## Related lists and keys -/

theorem rel_cases {α β : Type} {rel : α → β → Prop} {x : Option α} {y : Option β}
    (hrel : Option.Rel rel x y) :
    x = none ∧ y = none ∨ ∃ a b, x = some a ∧ y = some b ∧ rel a b := by
  cases hrel with
  | none => exact .inl ⟨rfl, rfl⟩
  | some hab => exact .inr ⟨_, _, rfl, rfl, hab⟩

theorem rel_getElem? {α β : Type} {rel : α → β → Prop} {as : List α} {bs : List β}
    (helems : Forall₂ rel as bs) (i : ℕ) : Option.Rel rel as[i]? bs[i]? := by
  induction helems generalizing i with
  | nil => exact .none
  | cons hhead htail ih =>
      cases i with
      | zero => exact .some hhead
      | succ i => exact ih i

theorem rel_filterMap_getElem? {α β : Type} {rel : α → β → Prop} {as : List α} {bs : List β}
    (helems : Forall₂ rel as bs) (indices : List ℕ) :
    Forall₂ rel (indices.filterMap (as[·]?)) (indices.filterMap (bs[·]?)) := by
  induction indices with
  | nil => exact .nil
  | cons i indices ih =>
      rcases rel_cases (rel_getElem? helems i) with ⟨ha, hb⟩ | ⟨a, b, ha, hb, hvalue⟩
      · rwa [List.filterMap_cons_none ha, List.filterMap_cons_none hb]
      · rw [List.filterMap_cons_some ha, List.filterMap_cons_some hb]
        exact .cons hvalue ih

/-- A key is in one map where the other key is in an alike map. -/
def SameKey {κ : Type} (same : κ → κ → Prop) (es : List (κ × Ast)) (k l : κ) : Prop :=
  ∀ entry ∈ es, ∀ other, same entry.1 other → (entry.1 = k ↔ other = l)

theorem sameKey_eq {κ : Type} (es : List (κ × Ast)) (k : κ) : SameKey Eq es k k := by
  rintro entry _ other rfl
  rfl

theorem sameKey_scalar {es : List (Scalar × Ast)} {k l : Scalar} (hkey : k.Alike l)
    (hshown : (es.all fun entry => entry.1.shown ≠ k.shown || entry.1 = k) = true) :
    SameKey Scalar.Alike es k l := by
  intro entry hmem other hother
  have hentry := List.all_eq_true.mp hshown entry hmem
  rw [Bool.or_eq_true, decide_eq_true_eq, decide_eq_true_eq] at hentry
  rw [hother.eq_shown, hkey.eq_shown]
  constructor
  · exact fun h => by rw [h]
  · exact fun h => hentry.resolve_left (not_not_intro h)

section Alike

variable [Placing]

/-! ## Texts and plain values -/

mutual

theorem text_eq_of_alike (store : Store) : ∀ a b : Ast, Alike a b → a.text store = b.text store
  | .list _ as, _, .list helems => by
      rw [Ast.text, Ast.text, texts_eq_of_alike store as _ helems]
  | .hmap es, _, .hmap hentries => by
      rw [Ast.text, Ast.text, entryTexts_eq_of_alike store es _ hentries]
  | .sexp as _, _, .sexp helems _ => by
      rw [Ast.text, Ast.text, texts_eq_of_alike store as _ helems]
  | .lambda _ as _, _, .lambda hbody _ => by
      rw [Ast.text, Ast.text, texts_eq_of_alike store as _ hbody]
  | .moduleNode _ as, _, .moduleNode hbody => by
      rw [Ast.text, Ast.text, texts_eq_of_alike store as _ hbody]
  | .label _, _, .label _ => rfl
  | .scalar _, _, .scalar hvalue => by
      rw [Ast.text, Ast.text, hvalue.text_eq store]

theorem texts_eq_of_alike (store : Store) :
    ∀ as bs : List Ast, AllAlike as bs → Ast.texts store as = Ast.texts store bs
  | [], _, .nil => rfl
  | a :: as, _, .cons hhead htail => by
      rw [Ast.texts, Ast.texts, text_eq_of_alike store a _ hhead,
        texts_eq_of_alike store as _ htail]

theorem entryTexts_eq_of_alike (store : Store) :
    ∀ es fs : List (Scalar × Ast), EntriesAlike es fs →
      Ast.entryTexts store es = Ast.entryTexts store fs
  | [], _, .nil => rfl
  | (_, a) :: es, _, .cons (.mk hkeys hvalues) htail => by
      rw [Ast.entryTexts, Ast.entryTexts, hkeys.text_eq store, text_eq_of_alike store a _ hvalues,
        entryTexts_eq_of_alike store es _ htail]

end

mutual

theorem eq_of_alike : ∀ a b : Ast, a.plain = true → Alike a b → a = b
  | .list _ as, _, hplain, .list helems => by rw [eqs_of_alike as _ hplain helems]
  | .hmap es, _, hplain, .hmap hentries => by rw [entries_eq_of_alike es _ hplain hentries]
  | .label _, _, _, .label _ => rfl
  | .scalar _, _, hplain, .scalar hvalue => by rw [hvalue.eq_of_settled hplain]

theorem eqs_of_alike : ∀ as bs : List Ast, Ast.plains as = true → AllAlike as bs → as = bs
  | [], _, _, .nil => rfl
  | a :: as, _, hplain, .cons hhead htail => by
      have hboth := Bool.and_eq_true_iff.mp hplain
      rw [eq_of_alike a _ hboth.1 hhead, eqs_of_alike as _ hboth.2 htail]

theorem entries_eq_of_alike : ∀ es fs : List (Scalar × Ast), Ast.plainEntries es = true →
    EntriesAlike es fs → es = fs
  | [], _, _, .nil => rfl
  | (_, a) :: es, _, hplain, .cons (.mk hkeys hvalues) htail => by
      rw [Ast.plainEntries, Bool.and_eq_true, Bool.and_eq_true] at hplain
      rw [hkeys.eq_of_settled hplain.1.1, eq_of_alike a _ hplain.1.2 hvalues,
        entries_eq_of_alike es _ hplain.2 htail]

end

/-! ## Lists -/

theorem alike_emptyList : Alike emptyList emptyList := .list .nil

theorem alike_appended {as bs : List Ast} (helems : AllAlike as bs) :
    Alike (appended as) (appended bs) := by
  have hempty : as.isEmpty = bs.isEmpty := by cases helems <;> rfl
  unfold appended
  rw [hempty]
  exact .list helems

mutual

theorem alike_flattenOne : ∀ a b : Ast, Alike a b → AllAlike (flattenOne a) (flattenOne b)
  | .list _ as, _, .list helems => by
      rw [flattenOne, flattenOne]
      exact alike_flatten as _ helems
  | .hmap _, _, .hmap hentries => .cons (.hmap hentries) .nil
  | .sexp _ _, _, .sexp helems hplaces => .cons (.sexp helems hplaces) .nil
  | .lambda _ _ _, _, .lambda hbody hctx => .cons (.lambda hbody hctx) .nil
  | .moduleNode _ _, _, .moduleNode hbody => .cons (.moduleNode hbody) .nil
  | .label l, _, .label _ => .cons (.label l) .nil
  | .scalar _, _, .scalar hvalue => .cons (.scalar hvalue) .nil

theorem alike_flatten : ∀ as bs : List Ast, AllAlike as bs → AllAlike (flatten as) (flatten bs)
  | [], _, .nil => .nil
  | a :: as, _, .cons hhead htail => by
      rw [flatten, flatten]
      exact List.rel_append (alike_flattenOne a _ hhead) (alike_flatten as _ htail)

end

theorem alike_getLast? {as bs : List Ast} (helems : AllAlike as bs) :
    Option.Rel Alike as.getLast? bs.getLast? := by
  induction helems with
  | nil => exact .none
  | cons hhead htail ih =>
      cases htail with
      | nil => exact .some hhead
      | cons hnext hmore => simpa [List.getLast?_cons_cons] using ih

theorem alike_getD {as bs : List Ast} (helems : AllAlike as bs) (i : ℕ) :
    Alike (as.getD i emptyList) (bs.getD i emptyList) := by
  rw [List.getD_eq_getElem?_getD, List.getD_eq_getElem?_getD]
  rcases rel_cases (rel_getElem? helems i) with ⟨ha, hb⟩ | ⟨a, b, ha, hb, hvalue⟩
  · rw [ha, hb]
    exact alike_emptyList
  · rw [ha, hb]
    exact hvalue

/-! ## Maps and contexts -/

section Entries

variable {κ : Type} [DecidableEq κ] {same : κ → κ → Prop} {es fs : List (κ × Ast)} {k l : κ}

theorem alike_lookup (hentries : Forall₂ (EntryAlike same Alike) es fs)
    (hkey : SameKey same es k l) : Option.Rel Alike (es.lookup k) (fs.lookup l) := by
  induction hentries with
  | nil => exact .none
  | cons hhead _ ih =>
      cases hhead with
      | @mk k' l' a b hkeys hvalues =>
          rw [SameKey, List.forall_mem_cons] at hkey
          have hiff : k' = k ↔ l' = l := hkey.1 l' hkeys
          rw [List.lookup_cons, List.lookup_cons]
          by_cases hsame : k' = k
          · simpa [hsame, hiff.mp hsame] using Option.Rel.some hvalues
          · have hother : l' ≠ l := fun h => hsame (hiff.mpr h)
            simpa [beq_false_of_ne (Ne.symm hsame), beq_false_of_ne hother.symm] using ih hkey.2

theorem isSome_lookup_eq (hentries : Forall₂ (EntryAlike same Alike) es fs)
    (hkey : SameKey same es k l) : (es.lookup k).isSome = (fs.lookup l).isSome := by
  rcases rel_cases (alike_lookup hentries hkey) with ⟨ha, hb⟩ | ⟨a, b, ha, hb, _⟩
  · rw [ha, hb]
  · rw [ha, hb]
    rfl

theorem alike_assign (hentries : Forall₂ (EntryAlike same Alike) es fs)
    (hkey : SameKey same es k l) (hsame : same k l) {a b : Ast} (hvalue : Alike a b) :
    Forall₂ (EntryAlike same Alike) (assign es k a) (assign fs l b) := by
  have hmap : Forall₂ (EntryAlike same Alike)
      (es.map fun entry => if entry.1 = k then (k, a) else entry)
      (fs.map fun entry => if entry.1 = l then (l, b) else entry) := by
    induction hentries with
    | nil => exact .nil
    | cons hhead _ ih =>
        rw [SameKey, List.forall_mem_cons] at hkey
        refine .cons ?_ (ih hkey.2)
        cases hhead with
        | @mk k' l' _ _ hkeys hvalues =>
            have hiff : k' = k ↔ l' = l := hkey.1 l' hkeys
            simp only [hiff]
            split
            · exact .mk hsame hvalue
            · exact .mk hkeys hvalues
  unfold assign
  rw [isSome_lookup_eq hentries hkey]
  split
  · exact hmap
  · exact List.rel_append hentries (.cons (.mk hsame hvalue) .nil)

end Entries

theorem alike_find {c d : Ctx} (hctx : CtxAlike c d) (name : String) :
    Option.Rel Alike (c.find name) (d.find name) := by
  induction hctx with
  | nil => exact .none
  | cons hframe _ ih =>
      unfold Ctx.find
      rcases rel_cases (alike_lookup hframe (sameKey_eq _ name)) with
        ⟨ha, hb⟩ | ⟨a, b, ha, hb, hvalue⟩
      · rw [ha, hb]
        exact ih
      · rw [ha, hb]
        exact .some hvalue

theorem alike_bind {c d : Ctx} (hctx : CtxAlike c d) (name : String) {a b : Ast}
    (hvalue : Alike a b) : CtxAlike (c.bind name a) (d.bind name b) := by
  cases hctx with
  | nil => exact .nil
  | cons hframe houter => exact .cons (alike_assign hframe (sameKey_eq _ name) rfl hvalue) houter

theorem alike_headD {c d : Ctx} (hctx : CtxAlike c d) : BindsAlike (c.headD []) (d.headD []) := by
  cases hctx with
  | nil => exact .nil
  | cons hframe _ => exact hframe

theorem alike_bindArgs (names : List String) {as bs : List Ast} {es fs : Binds}
    (hvalues : AllAlike as bs) (hbinds : BindsAlike es fs) :
    BindsAlike (bindArgs names as es) (bindArgs names bs fs) := by
  induction names generalizing as bs es fs with
  | nil =>
      unfold bindArgs
      exact hbinds
  | cons name names ih =>
      cases hvalues with
      | nil =>
          unfold bindArgs
          exact hbinds
      | cons hvalue hrest =>
          unfold bindArgs
          exact ih hrest (alike_assign hbinds (sameKey_eq _ name) rfl hvalue)

theorem alike_filter {es fs : Binds} (hbinds : BindsAlike es fs) (keep : String → Bool) :
    BindsAlike (es.filter fun entry => keep entry.1) (fs.filter fun entry => keep entry.1) := by
  induction hbinds with
  | nil => exact .nil
  | cons hhead _ ih =>
      cases hhead with
      | @mk name _ a b hname hvalues =>
          subst hname
          rw [List.filter_cons, List.filter_cons]
          by_cases hkeep : keep name = true
          · simpa [hkeep] using Forall₂.cons (EntryAlike.mk rfl hvalues) ih
          · simpa [hkeep] using ih

/-! ## Labels, machines and formats -/

theorem resolveLabel_eq {a b : Ast} (halike : Alike a b) (store : Store) :
    store.resolveLabel a = store.resolveLabel b := by
  cases halike with
  | scalar hvalue =>
      cases hvalue with
      | same => rfl
      | whole _ _ => rfl
  | list _ => rfl
  | hmap _ => rfl
  | sexp _ _ => rfl
  | lambda _ _ => rfl
  | moduleNode _ => rfl
  | label _ => rfl

theorem setMachineAttributes_eq {as bs : List Ast} (hattributes : AllAlike as bs)
    (machine : AstMachine) (hknown : (setMachineAttributes machine as).2 = none) :
    setMachineAttributes machine as = setMachineAttributes machine bs := by
  induction hattributes generalizing machine with
  | nil => rfl
  | @cons a b as bs hhead _ ih =>
      cases hhead with
      | @scalar v w hvalue =>
          cases hvalue with
          | same =>
              cases v with
              | provider text => exact ih _ hknown
              | region text => exact ih _ hknown
              | size text => exact ih _ hknown
              | diskSize x => exact ih _ hknown
              | role text => exact ih _ hknown
              | key k => exact ih _ hknown
              | range r =>
                  unfold setMachineAttributes at hknown ⊢
                  split
                  next hram =>
                    rw [if_pos hram] at hknown
                    exact ih _ hknown
                  next hram =>
                    rw [if_neg hram] at hknown
                    split
                    next hcpu =>
                      rw [if_pos hcpu] at hknown
                      exact ih _ hknown
                    next hcpu => rw [if_neg hcpu] at hknown
              | atom ref => cases hknown
              | ident name => cases hknown
              | str text => cases hknown
              | float x => cases hknown
              | int x => cases hknown
              | bool b => cases hknown
          | whole _ _ => cases hknown
      | list _ => cases hknown
      | hmap _ => cases hknown
      | sexp _ _ => cases hknown
      | lambda _ _ => cases hknown
      | moduleNode _ => cases hknown
      | label _ => cases hknown

theorem directive_eq {a b : Ast} (halike : Alike a b) (store : Store) {verb : Char}
    (hsettled : verb ≠ 's' ∨ a.settled = true) {text : String}
    (htext : directive store verb a = some text) : directive store verb b = some text := by
  have htexts := text_eq_of_alike store a b halike
  cases halike with
  | scalar hvalue =>
      rcases hsettled with hverb | hv
      · cases hvalue with
        | same => exact htext
        | whole hprinted _ =>
            simp only [directive, hverb, false_or] at htext ⊢
            split at htext
            next hv =>
              injection htext with htext
              simp [hv, ← htext, Ast.text, Scalar.text, floatText, intText_natCast, hprinted]
            · cases htext
      · rw [← hvalue.eq_of_settled hv]
        exact htext
  | list _ => simpa [directive, htexts] using htext
  | hmap _ => simpa [directive, htexts] using htext
  | sexp _ _ => simpa [directive, htexts] using htext
  | lambda _ _ => simpa [directive, htexts] using htext
  | moduleNode _ => simpa [directive, htexts] using htext
  | label _ => exact htext

theorem sprintfPlain_eq (store : Store) (format : List Char) {as bs : List Ast}
    (halike : AllAlike as bs) (hsettled : sprintfSettled format as = true) {text : List Char}
    (htext : sprintfPlain store format as = some text) :
    sprintfPlain store format bs = some text := by
  fun_induction sprintfPlain store format as generalizing bs text with
  | case1 =>
      cases halike
      exact htext
  | case2 => cases htext
  | case3 rest args ih =>
      rcases Option.map_eq_some_iff.mp htext with ⟨more, hmore, rfl⟩
      rw [sprintfPlain, ih halike (by simpa [sprintfSettled] using hsettled) hmore]
      rfl
  | case4 verb rest arg args hverb printed hprinted ih =>
      rcases Option.map_eq_some_iff.mp htext with ⟨more, hmore, rfl⟩
      rw [sprintfSettled, Bool.and_eq_true, Bool.or_eq_true, decide_eq_true_eq] at hsettled
      · cases halike with
        | cons hhead hrest =>
            have hdirective := directive_eq hhead store hsettled.1 hprinted
            rw [sprintfPlain, hdirective]
            · simp [ih hrest hsettled.2 hmore]
            · exact hverb
      · exact hverb
  | case5 => cases htext
  | case6 => cases htext
  | case7 c rest args _ _ hplain ih =>
      have hc : c ≠ '%' := hplain
      rcases Option.map_eq_some_iff.mp htext with ⟨more, hmore, rfl⟩
      have hrest : sprintfSettled rest args = true := by
        simpa [sprintfSettled, hc] using hsettled
      rw [sprintfPlain, ih halike hrest hmore]
      · rfl
      all_goals simp [hc]

end Alike

end Lang
end Di
