import Di.DslInvariant

/-!
# Defining a label

A new label is added to the label map and to every atom it is given to.  The
source guards against labelling an atom twice by looking at the label it was
given last; as the label is new, that is enough.  Defining a label keeps the
store consistent.
-/

namespace Di
namespace Lang

open Procedure

/-- What tagging atoms leaves unchanged. -/
structure Store.Tagged (store store' : Store) : Prop where
  labels : store'.labels = store.labels
  connections : store'.connections = store.connections
  has : ∀ a, store'.Has a ↔ store.Has a
  exclusive : ∀ (i : ℕ) (c : AstContainer), store.containers[i]? = some c →
    ∃ c' : AstContainer, store'.containers[i]? = some c' ∧ c.exclusive ⊆ c'.exclusive

theorem Store.Tagged.refl (store : Store) : store.Tagged store where
  labels := rfl
  connections := rfl
  has := fun _ => Iff.rfl
  exclusive := fun _ c hc => ⟨c, hc, subset_rfl⟩

theorem Store.Tagged.trans {store store' store'' : Store} (h : store.Tagged store')
    (h' : store'.Tagged store'') : store.Tagged store'' where
  labels := h'.labels.trans h.labels
  connections := h'.connections.trans h.connections
  has := fun a => (h'.has a).trans (h.has a)
  exclusive := by
    intro i c hc
    rcases h.exclusive i c hc with ⟨c', hc', hsub⟩
    rcases h'.exclusive i c' hc' with ⟨c'', hc'', hsub'⟩
    exact ⟨c'', hc'', hsub.trans hsub'⟩

theorem Store.tagged_setLabels (store : Store) (labels : List String) (a : Atom) :
    store.Tagged (store.setLabels labels a) where
  labels := by cases a <;> rfl
  connections := by cases a <;> rfl
  has := by
    intro b
    cases a <;> cases b <;> simp [Store.setLabels, Store.Has]
  exclusive := by
    intro i c hc
    cases a with
    | machine j => exact ⟨c, hc, subset_rfl⟩
    | container j =>
        by_cases hij : j = i
        · exact ⟨{ c with labels := labels }, by simp [Store.setLabels, hij, hc], subset_rfl⟩
        · exact ⟨c, by simp [Store.setLabels, hij, hc], subset_rfl⟩

theorem Store.tagged_tag (label : String) (store : Store) (a : Atom) :
    store.Tagged (store.tag label a) := by
  unfold Store.tag
  by_cases hlast : (store.labelsOf a).getLast? = some label
  · rw [if_pos hlast]
    exact Store.Tagged.refl store
  · rw [if_neg hlast]
    exact store.tagged_setLabels _ a

theorem Store.tagged_foldl (label : String) (atoms : List Atom) (store : Store) :
    store.Tagged (atoms.foldl (Store.tag label) store) := by
  induction atoms generalizing store with
  | nil => exact Store.Tagged.refl store
  | cons a rest ih => exact (store.tagged_tag label a).trans (ih (store.tag label a))

theorem Store.labelsOf_setLabels {store : Store} {a : Atom} (hhas : store.Has a)
    (labels : List String) (b : Atom) :
    (store.setLabels labels a).labelsOf b = if b = a then labels else store.labelsOf b := by
  cases a with
  | machine i =>
      have hlt : i < store.machines.length := hhas
      cases b with
      | container j => simp [Store.setLabels, Store.labelsOf]
      | machine j =>
          by_cases hij : i = j
          · subst hij
            simp [Store.setLabels, Store.labelsOf, hlt]
          · simp [Store.setLabels, Store.labelsOf, hij, Ne.symm hij]
  | container i =>
      have hlt : i < store.containers.length := hhas
      cases b with
      | machine j => simp [Store.setLabels, Store.labelsOf]
      | container j =>
          by_cases hij : i = j
          · subst hij
            simp [Store.setLabels, Store.labelsOf, hlt]
          · simp [Store.setLabels, Store.labelsOf, hij, Ne.symm hij]

/-- The label is new, so the label added last is the new one exactly when the atom has been
tagged already, however often it occurs. -/
theorem Store.labelsOf_foldl_tag {label : String} {store : Store}
    (hnew : ∀ b, label ∉ store.labelsOf b) (atoms : List Atom)
    (hatoms : ∀ a ∈ atoms, store.Has a) (b : Atom) :
    (atoms.foldl (Store.tag label) store).labelsOf b =
      if b ∈ atoms then store.labelsOf b ++ [label] else store.labelsOf b := by
  induction atoms using List.reverseRecOn generalizing b with
  | nil => simp
  | append_singleton rest a ih =>
      have hprev := ih fun a' hmem => hatoms a' (List.mem_append_left [a] hmem)
      have hhas : (rest.foldl (Store.tag label) store).Has a :=
        ((store.tagged_foldl label rest).has a).mpr (hatoms a (by simp))
      rw [List.foldl_append, List.foldl_cons, List.foldl_nil, Store.tag]
      by_cases hdone : a ∈ rest
      · have hlast : ((rest.foldl (Store.tag label) store).labelsOf a).getLast? = some label := by
          rw [hprev a, if_pos hdone]
          simp
        rw [if_pos hlast, hprev b]
        by_cases hb : b = a
        · simp [hb, hdone]
        · simp [hb]
      · have hlast : ((rest.foldl (Store.tag label) store).labelsOf a).getLast? ≠ some label := by
          rw [hprev a, if_neg hdone]
          intro hsome
          exact hnew a (List.mem_of_getLast? hsome)
        rw [if_neg hlast, Store.labelsOf_setLabels hhas, hprev a, if_neg hdone, hprev b]
        by_cases hb : b = a
        · simp [hb]
        · simp [hb]

section WithLabel

variable {store : Store} {label : String} {atoms : List Atom}

theorem Store.withLabel_lookup (name : String) :
    (store.withLabel label atoms).labels.lookup name =
      if name = label then some ⟨label, atoms⟩ else store.labels.lookup name := by
  simp only [Store.withLabel, (store.tagged_foldl label atoms).labels]
  by_cases hname : name = label
  · rw [if_pos hname, hname, Finmap.lookup_insert]
  · rw [if_neg hname, Finmap.lookup_insert_of_ne _ hname]

theorem Store.Consistent.label_new (hconsistent : store.Consistent)
    (hundefined : store.labels.lookup label = none) (b : Atom) :
    label ∉ store.labelsOf b := by
  intro hmem
  have hdefined := hconsistent.defined b label hmem
  rw [Store.Defines, hundefined] at hdefined
  exact absurd hdefined (by simp)

theorem Store.withLabel_labelsOf (hconsistent : store.Consistent)
    (hundefined : store.labels.lookup label = none) (hatoms : ∀ a ∈ atoms, store.Has a)
    (b : Atom) :
    (store.withLabel label atoms).labelsOf b =
      if b ∈ atoms then store.labelsOf b ++ [label] else store.labelsOf b := by
  rw [← Store.labelsOf_foldl_tag (hconsistent.label_new hundefined) atoms hatoms b]
  cases b <;> rfl

theorem Store.mem_withLabel_labelsOf (hconsistent : store.Consistent)
    (hundefined : store.labels.lookup label = none) (hatoms : ∀ a ∈ atoms, store.Has a)
    (b : Atom) (name : String) :
    name ∈ (store.withLabel label atoms).labelsOf b ↔
      name ∈ store.labelsOf b ∨ name = label ∧ b ∈ atoms := by
  rw [Store.withLabel_labelsOf hconsistent hundefined hatoms]
  by_cases hb : b ∈ atoms
  · simp [hb]
  · simp [hb]

theorem Store.le_withLabel (hconsistent : store.Consistent)
    (hundefined : store.labels.lookup label = none) (hatoms : ∀ a ∈ atoms, store.Has a)
    (hpublic : label ≠ publicInternetLabel) :
    store.Le (store.withLabel label atoms) where
  labels := by
    intro name l hl
    rw [Store.withLabel_lookup, if_neg, hl]
    rintro rfl
    rw [hundefined] at hl
    exact absurd hl (by simp)
  has := by
    intro a hhas
    have htagged := ((store.tagged_foldl label atoms).has a).mpr hhas
    cases a <;> exact htagged
  settled := by
    intro name hname a hmem
    rw [Store.mem_withLabel_labelsOf hconsistent hundefined hatoms] at hmem
    rcases hmem with hold | ⟨rfl, _⟩
    · exact hold
    · rcases hname with hname | hname
      · exact absurd hname hpublic
      · rw [Store.Defines, hundefined] at hname
        exact absurd hname (by simp)
  exclusive := (store.tagged_foldl label atoms).exclusive

theorem Store.Consistent.withLabel (hconsistent : store.Consistent)
    (hundefined : store.labels.lookup label = none) (hatoms : ∀ a ∈ atoms, store.Has a)
    (hpublic : label ≠ publicInternetLabel) :
    (store.withLabel label atoms).Consistent where
  named := by
    intro name l hl
    rw [Store.withLabel_lookup] at hl
    by_cases hname : name = label
    · rw [if_pos hname] at hl
      injection hl with hl
      rw [← hl]
      exact ⟨hname.symm, hname ▸ hpublic⟩
    · rw [if_neg hname] at hl
      exact hconsistent.named name l hl
  members := by
    intro name l hl a
    rw [Store.mem_withLabel_labelsOf hconsistent hundefined hatoms]
    rw [Store.withLabel_lookup] at hl
    by_cases hname : name = label
    · rw [if_pos hname] at hl
      injection hl with hl
      have hnone : name ∉ store.labelsOf a := hname ▸ hconsistent.label_new hundefined a
      rw [← hl]
      simp [hname ▸ hnone, hname]
    · rw [if_neg hname] at hl
      simpa [hname] using hconsistent.members name l hl a
  defined := by
    intro a name hmem
    rw [Store.mem_withLabel_labelsOf hconsistent hundefined hatoms] at hmem
    rw [Store.Defines, Store.withLabel_lookup]
    by_cases hname : name = label
    · simp [hname]
    · rw [if_neg hname]
      rcases hmem with hold | ⟨hlabel, _⟩
      · exact hconsistent.defined a name hold
      · exact absurd hlabel hname
  nodup := by
    intro a
    rw [Store.withLabel_labelsOf hconsistent hundefined hatoms]
    by_cases ha : a ∈ atoms
    · rw [if_pos ha]
      have hnew := hconsistent.label_new hundefined a
      rw [List.nodup_append]
      simp only [List.nodup_cons, List.not_mem_nil, not_false_eq_true, List.nodup_nil,
        and_self, List.mem_singleton, true_and]
      constructor
      · exact hconsistent.nodup a
      · rintro name hmem other rfl rfl
        exact hnew hmem
    · rw [if_neg ha]
      exact hconsistent.nodup a
  connections := by
    intro c hmem
    have hsame : (store.withLabel label atoms).connections = store.connections :=
      (store.tagged_foldl label atoms).connections
    rw [hsame] at hmem
    exact (hconsistent.connections c hmem).mono
      (Store.le_withLabel hconsistent hundefined hatoms hpublic)

end WithLabel

end Lang
end Di
