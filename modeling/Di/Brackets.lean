import Mathlib.Data.List.Basic

/-!
# Sequences with brackets

A sequence of brackets and leaves is balanced if none of its beginnings closes more
brackets than it opens, and the whole sequence closes as many as it opens.  A counter
for the level of nesting decides this in one pass: it fails where a bracket closes
nothing, and is back at zero at the end.
-/

namespace Di
namespace Brackets

inductive Item (α : Type)
  | opening
  | closing
  | leaf (a : α)
  deriving DecidableEq, Repr

variable {α β : Type}

def Item.map (f : α → β) : Item α → Item β
  | .opening => .opening
  | .closing => .closing
  | .leaf a => .leaf (f a)

def Item.isOpening : Item α → Bool
  | .opening => true
  | _ => false

def Item.isClosing : Item α → Bool
  | .closing => true
  | _ => false

def Balanced (items : List (Item α)) : Prop :=
  (∀ front, front <+: items → front.countP Item.isClosing ≤ front.countP Item.isOpening) ∧
    items.countP Item.isOpening = items.countP Item.isClosing

/-- The level behind the items, if every bracket on the way closes another one. -/
def level : ℕ → List (Item α) → Option ℕ
  | depth, [] => some depth
  | depth, .leaf _ :: rest => level depth rest
  | depth, .opening :: rest => level (depth + 1) rest
  | 0, .closing :: _ => none
  | depth + 1, .closing :: rest => level depth rest

theorem level_append (depth : ℕ) (front back : List (Item α)) :
    level depth (front ++ back) = (level depth front).bind fun depth => level depth back := by
  induction front generalizing depth with
  | nil => rfl
  | cons item rest ih =>
      cases item with
      | opening => exact ih (depth + 1)
      | leaf a => exact ih depth
      | closing =>
          cases depth with
          | zero => rfl
          | succ depth => exact ih depth

theorem level_map (f : α → β) (depth : ℕ) (items : List (Item α)) :
    level depth (items.map (Item.map f)) = level depth items := by
  induction items generalizing depth with
  | nil => rfl
  | cons item rest ih =>
      cases item with
      | opening => exact ih (depth + 1)
      | leaf a => exact ih depth
      | closing =>
          cases depth with
          | zero => rfl
          | succ depth => exact ih depth

theorem level_shift {depth final : ℕ} {items : List (Item α)}
    (hlevel : level depth items = some final) : level (depth + 1) items = some (final + 1) := by
  induction items generalizing depth with
  | nil =>
      rw [level, Option.some.injEq] at hlevel
      rw [level, hlevel]
  | cons item rest ih =>
      cases item with
      | opening => exact ih hlevel
      | leaf a => exact ih hlevel
      | closing =>
          cases depth with
          | zero => cases hlevel
          | succ depth => exact ih hlevel

/-- The counter does not fail exactly if no beginning closes more than is open. -/
theorem level_isSome_iff (depth : ℕ) (items : List (Item α)) :
    (level depth items).isSome ↔
      ∀ front, front <+: items →
        front.countP Item.isClosing ≤ depth + front.countP Item.isOpening := by
  induction items generalizing depth with
  | nil => simp [level]
  | cons item rest ih =>
      have hsplit : ∀ P : List (Item α) → Prop,
          (∀ front, front <+: item :: rest → P front) ↔
            P [] ∧ ∀ front, front <+: rest → P (item :: front) := by
        intro P
        simp only [List.prefix_cons_iff]
        constructor
        · intro hall
          exact ⟨hall [] (.inl rfl), fun front hfront => hall _ (.inr ⟨front, rfl, hfront⟩)⟩
        · rintro ⟨hnil, hcons⟩ front (rfl | ⟨tail, rfl, htail⟩)
          · exact hnil
          · exact hcons tail htail
      rw [hsplit]
      cases item with
      | opening =>
          rw [level, ih]
          simp [List.countP_cons, Item.isOpening, Item.isClosing, Nat.add_assoc, Nat.add_comm]
      | leaf a =>
          rw [level, ih]
          simp [Item.isOpening, Item.isClosing]
      | closing =>
          cases depth with
          | zero =>
              simp only [level, Option.isSome_none, Bool.false_eq_true, false_iff, not_and]
              intro _ hall
              simpa [Item.isOpening, Item.isClosing] using hall [] List.nil_prefix
          | succ depth =>
              rw [level, ih]
              simp only [List.countP_nil, Nat.zero_le, true_and]
              apply forall₂_congr
              intro front _
              simp only [List.countP_cons, Item.isOpening, Item.isClosing]
              simp only [if_true, Bool.false_eq_true, if_false]
              omega

theorem level_count {depth final : ℕ} {items : List (Item α)}
    (hlevel : level depth items = some final) :
    final + items.countP Item.isClosing = depth + items.countP Item.isOpening := by
  induction items generalizing depth with
  | nil =>
      rw [level, Option.some.injEq] at hlevel
      simp [hlevel]
  | cons item rest ih =>
      cases item with
      | opening =>
          have hrest := ih hlevel
          simp only [List.countP_cons, Item.isOpening, Item.isClosing, if_true,
            Bool.false_eq_true, if_false]
          omega
      | leaf a => simpa [List.countP_cons, Item.isOpening, Item.isClosing] using ih hlevel
      | closing =>
          cases depth with
          | zero => cases hlevel
          | succ depth =>
              have hrest := ih hlevel
              simp only [List.countP_cons, Item.isOpening, Item.isClosing, if_true,
                Bool.false_eq_true, if_false]
              omega

theorem balanced_iff_level (items : List (Item α)) :
    Balanced items ↔ level 0 items = some 0 := by
  have hsome := level_isSome_iff 0 items
  simp only [Nat.zero_add] at hsome
  unfold Balanced
  rw [← hsome]
  constructor
  · rintro ⟨hlevel, hequal⟩
    rcases Option.isSome_iff_exists.mp hlevel with ⟨final, hfinal⟩
    have hcount := level_count hfinal
    have hzero : final = 0 := by omega
    rw [hfinal, hzero]
  · intro hlevel
    have hcount := level_count hlevel
    refine ⟨by rw [hlevel]; rfl, by omega⟩

instance (items : List (Item α)) : Decidable (Balanced items) :=
  decidable_of_iff _ (balanced_iff_level items).symm

end Brackets
end Di
