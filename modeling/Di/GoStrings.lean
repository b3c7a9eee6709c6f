import Mathlib.Tactic

/-!
# String functions of the Go standard library

Only what the program uses.  Strings compare by code points, which for
well-formed text is the byte order of Go.  The Unicode tables are a parameter;
what is known of them is their restriction to ASCII, and that the byte order mark
is no letter.
-/

namespace Di

/-- `unicode.IsLetter`, `unicode.IsDigit` and `unicode.IsUpper`. -/
structure Unicode where
  letter : Char → Bool
  digit : Char → Bool
  upper : Char → Bool
  letter_ascii : ∀ c : Char, c.toNat < 128 → letter c = c.isAlpha
  digit_ascii : ∀ c : Char, c.toNat < 128 → digit c = c.isDigit
  upper_ascii : ∀ c : Char, c.toNat < 128 → upper c = c.isUpper
  letter_byteOrderMark : letter '\uFEFF' = false

/-- The tables without any letter outside of ASCII. -/
def Unicode.ascii : Unicode where
  letter := Char.isAlpha
  digit := Char.isDigit
  upper := Char.isUpper
  letter_ascii := fun _ _ => rfl
  digit_ascii := fun _ _ => rfl
  upper_ascii := fun _ _ => rfl
  letter_byteOrderMark := rfl

/-- `sort.Strings`, and `sort.Sort` of a `sort.StringSlice`. -/
def sortStrings (texts : List String) : List String :=
  texts.insertionSort (· ≤ ·)

theorem sortStrings_perm (texts : List String) : (sortStrings texts).Perm texts :=
  List.perm_insertionSort (· ≤ ·) texts

theorem sortStrings_eq_of_perm {left right : List String}
    (hperm : left.Perm right) : sortStrings left = sortStrings right := by
  apply List.Perm.eq_of_pairwise'
    (List.pairwise_insertionSort (· ≤ ·) left)
    (List.pairwise_insertionSort (· ≤ ·) right)
  exact (sortStrings_perm left).trans (hperm.trans (sortStrings_perm right).symm)

/-- `bufio.ScanLines` drops one carriage return at the end of a line. -/
def dropCR (line : List Char) : List Char :=
  if line.getLast? = some '\r' then line.dropLast else line

/-- The tokens of a `bufio.Scanner`; after the last newline there is no empty line. -/
def scanLines (text : String) : List String :=
  let pieces := text.toList.splitOn '\n'
  let lines := if pieces.getLast? = some [] then pieces.dropLast else pieces
  lines.map fun line => String.ofList (dropCR line)

/-- One line of a text. -/
structure IsLine (line : String) : Prop where
  unbroken : '\n' ∉ line.toList
  plain : line.toList.getLast? ≠ some '\r'

instance (line : String) : Decidable (IsLine line) :=
  decidable_of_iff ('\n' ∉ line.toList ∧ line.toList.getLast? ≠ some '\r')
    ⟨fun ⟨hunbroken, hplain⟩ => ⟨hunbroken, hplain⟩, fun hline => ⟨hline.1, hline.2⟩⟩

/-- Each line of a text ends in a newline. -/
def unlines (lines : List String) : String :=
  String.ofList (lines.flatMap fun line => line.toList ++ ['\n'])

theorem splitOn_unlines {lines : List String} (hlines : ∀ line ∈ lines, IsLine line) :
    (unlines lines).toList.splitOn '\n' = lines.map String.toList ++ [[]] := by
  rw [unlines, String.toList_ofList]
  induction lines with
  | nil => simp
  | cons line rest ih =>
      rw [List.forall_mem_cons] at hlines
      rw [List.flatMap_cons, List.append_assoc, List.singleton_append,
        List.splitOn_append_cons_self_of_not_mem hlines.1.unbroken, ih hlines.2]
      rfl

/-- The lines of a text are read back. -/
theorem scanLines_unlines {lines : List String} (hlines : ∀ line ∈ lines, IsLine line) :
    scanLines (unlines lines) = lines := by
  simp only [scanLines, splitOn_unlines hlines, List.getLast?_concat, if_true,
    List.dropLast_concat, List.map_map]
  rw [List.map_congr_left (g := id), List.map_id]
  intro line hline
  simp [dropCR, (hlines line hline).plain]

end Di
