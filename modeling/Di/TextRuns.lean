import Mathlib.Data.List.DropRight
import Mathlib.Tactic

/-!
# Runs of characters

Regular expressions over disjoint classes of characters read a text run by run: a run ends
where the next character is of another class.  `takeWhile_run` and `dropWhile_run` split a
text at the end of a run, `trim` removes a class of characters from both ends.
-/

namespace Di
namespace TextRuns

variable {α β : Type*} {p : α → Bool}

/-- The text does not start with a character of the class. -/
def Ends (p : α → Bool) (text : List α) : Prop := ∀ c ∈ text.head?, p c = false

@[simp] theorem ends_nil : Ends p [] := by
  intro c hc
  cases hc

@[simp] theorem ends_cons {c : α} {text : List α} : Ends p (c :: text) ↔ p c = false := by
  simp [Ends]

theorem takeWhile_run {run rest : List α} (hrun : ∀ c ∈ run, p c = true) (hrest : Ends p rest) :
    (run ++ rest).takeWhile p = run := by
  rw [List.takeWhile_append_of_pos hrun]
  cases rest with
  | nil => simp
  | cons c rest => rw [List.takeWhile_cons_of_neg (by simp [ends_cons.mp hrest]), List.append_nil]

theorem dropWhile_run {run rest : List α} (hrun : ∀ c ∈ run, p c = true) (hrest : Ends p rest) :
    (run ++ rest).dropWhile p = rest := by
  rw [List.dropWhile_append_of_pos hrun]
  cases rest with
  | nil => rfl
  | cons c rest => rw [List.dropWhile_cons_of_neg (by simp [ends_cons.mp hrest])]

theorem dropWhile_of_ends {text : List α} (htext : Ends p text) : text.dropWhile p = text :=
  @dropWhile_run _ _ [] _ (by simp) htext

theorem ends_dropWhile (text : List α) : Ends p (text.dropWhile p) := by
  intro c hc
  have hhead := List.head?_dropWhile_not p text
  rw [Option.mem_def.mp hc] at hhead
  simpa using hhead

/-! ## Both ends -/

theorem rdropWhile_append (p : α → Bool) (left right : List α) :
    (left ++ right).rdropWhile p =
      if right.rdropWhile p = [] then left.rdropWhile p else left ++ right.rdropWhile p := by
  unfold List.rdropWhile
  rw [List.reverse_append, List.dropWhile_append]
  cases hright : right.reverse.dropWhile p with
  | nil => simp
  | cons c tail => simp

def trim (p : α → Bool) (text : List α) : List α := (text.dropWhile p).rdropWhile p

theorem trim_of_ends {text : List α} (htext : Ends p text) : trim p text = text.rdropWhile p := by
  rw [trim, dropWhile_of_ends htext]

/-- The right margin of a text whose beginning has no margin itself. -/
theorem trim_append {core rest : List α} (hfirst : Ends p core) (hne : core ≠ [])
    (hlast : p (core.getLast hne) = false) :
    trim p (core ++ rest) = core ++ rest.rdropWhile p := by
  have hends : Ends p (core ++ rest) := by
    obtain ⟨c, tail, rfl⟩ := List.exists_cons_of_ne_nil hne
    exact hfirst
  have hcore : core.rdropWhile p = core :=
    List.rdropWhile_eq_self_iff.mpr fun _ => by simp [hlast]
  rw [trim_of_ends hends, rdropWhile_append, hcore]
  split
  next hnil => rw [hnil, List.append_nil]
  next => rfl

theorem trim_eq_self {text : List α} (htext : ∀ c ∈ text, p c = false) : trim p text = text := by
  rw [trim_of_ends fun c hc => htext c (List.mem_of_mem_head? hc), List.rdropWhile_eq_self_iff]
  intro hne
  simp [htext _ (List.getLast_mem hne)]

theorem trim_eq_nil_iff {text : List α} : trim p text = [] ↔ ∀ c ∈ text, p c = true := by
  rw [trim, List.rdropWhile_eq_nil_iff]
  constructor
  · intro hall
    rw [← List.dropWhile_eq_nil_iff]
    by_contra hne
    obtain ⟨c, rest, hrest⟩ := List.exists_cons_of_ne_nil hne
    have hnot := ends_dropWhile (p := p) text
    rw [hrest, ends_cons] at hnot
    rw [hall c (by simp [hrest])] at hnot
    contradiction
  · intro hall c hc
    exact hall c ((List.dropWhile_sublist p).mem hc)

theorem mem_dropWhile_iff {text : List α} {c : α} (hc : p c = false) :
    c ∈ text.dropWhile p ↔ c ∈ text := by
  refine ⟨fun hmem => (List.dropWhile_sublist p).mem hmem, fun hmem => ?_⟩
  rw [← List.takeWhile_append_dropWhile (p := p) (l := text), List.mem_append] at hmem
  refine hmem.resolve_left fun htake => ?_
  rw [List.mem_takeWhile_imp htake] at hc
  contradiction

theorem mem_trim_iff {text : List α} {c : α} (hc : p c = false) : c ∈ trim p text ↔ c ∈ text := by
  rw [trim, List.rdropWhile, List.mem_reverse, mem_dropWhile_iff hc, List.mem_reverse,
    mem_dropWhile_iff hc]

theorem rdropWhile_trim (text : List α) : (trim p text).rdropWhile p = trim p text :=
  List.rdropWhile_idempotent _ _

/-- Trimming what is left of a text gives the text without its right margin exactly if
nothing is missing and there is no left margin, or if all is margin. -/
theorem rdropWhile_eq_trim_iff {gone text : List α} :
    (gone ++ text).rdropWhile p = trim p text ↔
      (∀ c ∈ gone ++ text, p c = true) ∨ gone = [] ∧ Ends p text := by
  constructor
  · intro heq
    by_cases hblank : ∀ c ∈ text, p c = true
    · rw [trim_eq_nil_iff.mpr hblank, List.rdropWhile_eq_nil_iff] at heq
      exact .inl heq
    · right
      have hcore : (text.dropWhile p).rdropWhile p ≠ [] := by
        rwa [ne_eq, ← trim, trim_eq_nil_iff]
      have htext : text.rdropWhile p = text.takeWhile p ++ trim p text := by
        conv_lhs => rw [← List.takeWhile_append_dropWhile (p := p) (l := text)]
        rw [rdropWhile_append, if_neg hcore, trim]
      have hne : text.rdropWhile p ≠ [] := by
        rw [ne_eq, List.rdropWhile_eq_nil_iff]
        exact hblank
      rw [rdropWhile_append, if_neg hne, htext, ← List.append_assoc] at heq
      have hmargin : gone ++ text.takeWhile p = [] := List.append_left_eq_self.mp heq
      obtain ⟨hgone, htake⟩ := List.append_eq_nil_iff.mp hmargin
      refine ⟨hgone, ?_⟩
      cases text with
      | nil => exact ends_nil
      | cons c rest =>
          rw [ends_cons]
          by_contra hc
          rw [Bool.not_eq_false] at hc
          simp [List.takeWhile_cons_of_pos hc] at htake
  · rintro (hblank | ⟨rfl, hends⟩)
    · rw [List.rdropWhile_eq_nil_iff.mpr hblank, eq_comm, trim_eq_nil_iff]
      exact fun c hc => hblank c (List.mem_append_right _ hc)
    · rw [List.nil_append, trim_of_ends hends]

/-! ## Searching -/

/-- The leftmost match, if no match is empty. -/
def leftmost (matchAt : List α → Option β) : List α → Option β
  | [] => none
  | c :: rest =>
      match matchAt (c :: rest) with
      | some found => some found
      | none => leftmost matchAt rest

theorem leftmost_of_matchAt {matchAt : List α → Option β} {c : α} {rest : List α} {found : β}
    (hfound : matchAt (c :: rest) = some found) : leftmost matchAt (c :: rest) = some found := by
  rw [leftmost, hfound]

theorem leftmost_eq_none {matchAt : List α → Option β} {text : List α}
    (hnone : ∀ c rest, c :: rest <:+ text → matchAt (c :: rest) = none) :
    leftmost matchAt text = none := by
  induction text with
  | nil => rfl
  | cons c rest ih =>
      rw [leftmost, hnone c rest List.suffix_rfl]
      exact ih fun d tail htail => hnone d tail (htail.trans (List.suffix_cons c rest))

theorem exists_of_leftmost {matchAt : List α → Option β} {text : List α} {found : β}
    (hfound : leftmost matchAt text = some found) :
    ∃ c rest, matchAt (c :: rest) = some found := by
  induction text with
  | nil => cases hfound
  | cons c rest ih =>
      rw [leftmost] at hfound
      split at hfound
      next other hother =>
        cases hfound
        exact ⟨c, rest, hother⟩
      next => exact ih hfound

end TextRuns
end Di
