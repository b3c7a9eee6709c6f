import Mathlib.Tactic

/-!
# Procedures with state, failure and a trace

A procedure reads and changes a state, records events in a trace, and ends
with a value, with an error, in a crash, or without an answer because its fuel
ran out.  The state and the trace survive a failure, so that what holds "at
every point of every run" can be said of runs that fail as well.

Two rules carry the proofs about interpreters written in this monad: `Sound`,
for an invariant that every step keeps while the state only grows in some
order, and `Follows`, for a second procedure that matches the first one as
long as the first one records no event of some kind.  `Returns` is for total
correctness: from states with a property a procedure returns, and leaves one
with another property.
-/

namespace Di

inductive Outcome (ε α : Type)
  | ok (value : α)
  | error (err : ε)
  | panic
  | timeout

namespace Outcome

variable {ε α β : Type}

protected def bind : Outcome ε α → (α → Outcome ε β) → Outcome ε β
  | .ok a, f => f a
  | .error err, _ => .error err
  | .panic, _ => .panic
  | .timeout, _ => .timeout

instance : Monad (Outcome ε) where
  pure := .ok
  bind := Outcome.bind

def value? : Outcome ε α → Option α
  | .ok a => some a
  | _ => none

theorem exists_ok {m : Outcome ε α} (hvalue : m.value?.isSome) : ∃ a, m = .ok a := by
  cases m with
  | ok a => exact ⟨a, rfl⟩
  | error err => cases hvalue
  | panic => cases hvalue
  | timeout => cases hvalue

theorem bind_eq_ok {m : Outcome ε α} {f : α → Outcome ε β} {b : β} :
    (m >>= f) = .ok b ↔ ∃ a, m = .ok a ∧ f a = .ok b := by
  change Outcome.bind m f = .ok b ↔ _
  cases m with
  | ok a => simp [Outcome.bind]
  | error err => simp [Outcome.bind]
  | panic => simp [Outcome.bind]
  | timeout => simp [Outcome.bind]

theorem bind_eq_panic {m : Outcome ε α} {f : α → Outcome ε β} :
    (m >>= f) = .panic ↔ m = .panic ∨ ∃ a, m = .ok a ∧ f a = .panic := by
  change Outcome.bind m f = .panic ↔ _
  cases m with
  | ok a => simp [Outcome.bind]
  | error err => simp [Outcome.bind]
  | panic => simp [Outcome.bind]
  | timeout => simp [Outcome.bind]

/-- The results of all elements, or the failure of the first one that fails. -/
def collect (f : α → Outcome ε β) : List α → Outcome ε (List β)
  | [] => pure []
  | a :: rest => do
      let b ← f a
      let bs ← collect f rest
      pure (b :: bs)

theorem collect_cons_eq_ok {f : α → Outcome ε β} {a : α} {rest : List α} {bs : List β} :
    collect f (a :: rest) = .ok bs ↔
      ∃ b bs', f a = .ok b ∧ collect f rest = .ok bs' ∧ bs = b :: bs' := by
  rw [collect, bind_eq_ok]
  constructor
  · rintro ⟨b, hb, hrest⟩
    rcases bind_eq_ok.mp hrest with ⟨bs', hbs, ⟨⟩⟩
    exact ⟨b, bs', hb, hbs, rfl⟩
  · rintro ⟨b, bs', hb, hbs, rfl⟩
    exact ⟨b, hb, bind_eq_ok.mpr ⟨bs', hbs, rfl⟩⟩

theorem collect_append_eq_ok {f : α → Outcome ε β} {left right : List α} {bs : List β} :
    collect f (left ++ right) = .ok bs ↔
      ∃ bs' bs'', collect f left = .ok bs' ∧ collect f right = .ok bs'' ∧ bs = bs' ++ bs'' := by
  induction left generalizing bs with
  | nil =>
      constructor
      · intro hright
        exact ⟨[], bs, rfl, hright, rfl⟩
      · rintro ⟨_, bs'', ⟨⟩, hright, rfl⟩
        exact hright
  | cons a rest ih =>
      rw [List.cons_append, collect_cons_eq_ok]
      constructor
      · rintro ⟨b, tail, hb, htail, rfl⟩
        rcases ih.mp htail with ⟨bs', bs'', hrest, hright, rfl⟩
        exact ⟨b :: bs', bs'', collect_cons_eq_ok.mpr ⟨b, bs', hb, hrest, rfl⟩, hright, rfl⟩
      · rintro ⟨_, bs'', hleft, hright, rfl⟩
        rcases collect_cons_eq_ok.mp hleft with ⟨b, bs', hb, hrest, rfl⟩
        exact ⟨b, bs' ++ bs'', hb, ih.mpr ⟨bs', bs'', hrest, hright, rfl⟩, rfl⟩

theorem collect_eq_map {f : α → Outcome ε β} {g : α → β} {list : List α}
    (hg : ∀ a ∈ list, f a = .ok (g a)) : collect f list = .ok (list.map g) := by
  induction list with
  | nil => rfl
  | cons a rest ih =>
      rw [List.forall_mem_cons] at hg
      exact collect_cons_eq_ok.mpr ⟨g a, rest.map g, hg.1, ih hg.2, rfl⟩

theorem exists_collect {f : α → Outcome ε β} {list : List α} (hf : ∀ a ∈ list, ∃ b, f a = .ok b) :
    ∃ bs, collect f list = .ok bs := by
  induction list with
  | nil => exact ⟨[], rfl⟩
  | cons a rest ih =>
      rw [List.forall_mem_cons] at hf
      rcases hf.1 with ⟨b, hb⟩
      rcases ih hf.2 with ⟨bs, hbs⟩
      exact ⟨b :: bs, collect_cons_eq_ok.mpr ⟨b, bs, hb, hbs, rfl⟩⟩

/-- The collected results are those of the elements. -/
theorem mem_collect {f : α → Outcome ε β} {list : List α} {bs : List β}
    (hok : collect f list = .ok bs) :
    (∀ b, b ∈ bs ↔ ∃ a ∈ list, f a = .ok b) ∧ ∀ a ∈ list, ∃ b, f a = .ok b := by
  induction list generalizing bs with
  | nil =>
      cases hok
      simp
  | cons a rest ih =>
      rcases collect_cons_eq_ok.mp hok with ⟨b, bs', hb, hbs, rfl⟩
      rcases ih hbs with ⟨hmem, hall⟩
      constructor
      · intro b'
        rw [List.mem_cons, List.exists_mem_cons_iff, hmem, hb, Outcome.ok.injEq, eq_comm]
      · exact List.forall_mem_cons.mpr ⟨⟨b, hb⟩, hall⟩

theorem pairwise_collect {f : α → Outcome ε β} {R : α → α → Prop} {S : β → β → Prop}
    {list : List α} {bs : List β} (hlist : list.Pairwise R) (hcollect : collect f list = .ok bs)
    (hS : ∀ a ∈ list, ∀ a' ∈ list, ∀ b b', R a a' → f a = .ok b → f a' = .ok b' → S b b') :
    bs.Pairwise S := by
  induction list generalizing bs with
  | nil =>
      cases hcollect
      exact .nil
  | cons a rest ih =>
      rw [List.pairwise_cons] at hlist
      obtain ⟨b, bs', hb, hrest, rfl⟩ := collect_cons_eq_ok.mp hcollect
      refine .cons (fun b' hb' => ?_) (ih hlist.2 hrest fun x hx y hy =>
        hS x (List.mem_cons_of_mem a hx) y (List.mem_cons_of_mem a hy))
      obtain ⟨a', ha', hfa'⟩ := ((mem_collect hrest).1 b').mp hb'
      exact hS a List.mem_cons_self a' (List.mem_cons_of_mem a ha') b b' (hlist.1 a' ha') hb hfa'

def crashed : Outcome ε α → Bool
  | .panic => true
  | _ => false

theorem crashed_iff {m : Outcome ε α} : m.crashed = true ↔ m = .panic := by
  cases m <;> simp [crashed]

end Outcome

structure Ran (σ ε ω α : Type) where
  outcome : Outcome ε α
  final : σ
  trace : List ω

def Procedure (σ ε ω α : Type) : Type := σ → Ran σ ε ω α

namespace Procedure

variable {σ τ ε ω α β γ δ : Type}

/-- The state is matched once, so that a run is evaluated without recomputation. -/
protected def bind (m : Procedure σ ε ω α) (f : α → Procedure σ ε ω β) :
    Procedure σ ε ω β := fun s =>
  match m s with
  | ⟨.ok a, s', trace⟩ =>
      match f a s' with
      | ⟨outcome, s'', trace'⟩ => ⟨outcome, s'', trace ++ trace'⟩
  | ⟨.error err, s', trace⟩ => ⟨.error err, s', trace⟩
  | ⟨.panic, s', trace⟩ => ⟨.panic, s', trace⟩
  | ⟨.timeout, s', trace⟩ => ⟨.timeout, s', trace⟩

instance : Monad (Procedure σ ε ω) where
  pure a := fun s => ⟨.ok a, s, []⟩
  bind := Procedure.bind

def throw (err : ε) : Procedure σ ε ω α := fun s => ⟨.error err, s, []⟩

def crash : Procedure σ ε ω α := fun s => ⟨.panic, s, []⟩

def outOfFuel : Procedure σ ε ω α := fun s => ⟨.timeout, s, []⟩

def get : Procedure σ ε ω σ := fun s => ⟨.ok s, s, []⟩

def modify (f : σ → σ) : Procedure σ ε ω Unit := fun s => ⟨.ok (), f s, []⟩

def emit (event : ω) : Procedure σ ε ω Unit := fun s => ⟨.ok (), s, [event]⟩

def mapError (f : ε → ε) (m : Procedure σ ε ω α) : Procedure σ ε ω α := fun s =>
  match m s with
  | ⟨.error err, s', trace⟩ => ⟨.error (f err), s', trace⟩
  | ran => ran

/-- Runs a procedure from another state and combines what it leaves with the state it was called
in. -/
def within (enter : σ → σ) (leave : σ → σ → σ) (m : Procedure σ ε ω α) :
    Procedure σ ε ω α := fun s =>
  match m (enter s) with
  | ⟨outcome, s', trace⟩ => ⟨outcome, leave s s', trace⟩

def collect (f : α → Procedure σ ε ω β) : List α → Procedure σ ε ω (List β)
  | [] => pure []
  | a :: rest => do
      let b ← f a
      let bs ← collect f rest
      pure (b :: bs)

def forEach (f : α → Procedure σ ε ω Unit) : List α → Procedure σ ε ω Unit
  | [] => pure ()
  | a :: rest => do
      f a
      forEach f rest

theorem bind_ok {m : Procedure σ ε ω α} {f : α → Procedure σ ε ω β} {s : σ} {a : α}
    (hm : (m s).outcome = .ok a) :
    (m >>= f) s =
      ⟨(f a (m s).final).outcome, (f a (m s).final).final,
        (m s).trace ++ (f a (m s).final).trace⟩ := by
  change Procedure.bind m f s = _
  unfold Procedure.bind
  rcases hran : m s with ⟨outcome, s', trace⟩
  rw [hran] at hm
  simp only at hm
  subst hm
  rfl

theorem bind_not_ok {m : Procedure σ ε ω α} {f : α → Procedure σ ε ω β} {s : σ}
    (hm : ∀ a, (m s).outcome ≠ .ok a) :
    (((m >>= f) s).final = (m s).final ∧ ((m >>= f) s).trace = (m s).trace ∧
        ∀ b, ((m >>= f) s).outcome ≠ .ok b) ∧
      (((m >>= f) s).outcome = .panic ↔ (m s).outcome = .panic) ∧
      (((m >>= f) s).outcome = .timeout ↔ (m s).outcome = .timeout) := by
  have hbind : (m >>= f) s = Procedure.bind m f s := rfl
  rw [hbind]
  unfold Procedure.bind
  rcases hran : m s with ⟨outcome, s', trace⟩
  rw [hran] at hm
  cases outcome with
  | ok a => exact absurd rfl (hm a)
  | error err => simp
  | panic => simp
  | timeout => simp

theorem bind_failed {m : Procedure σ ε ω α} {f : α → Procedure σ ε ω β} {s : σ}
    (hm : ∀ a, (m s).outcome ≠ .ok a) :
    ((m >>= f) s).final = (m s).final ∧ ((m >>= f) s).trace = (m s).trace ∧
      ∀ b, ((m >>= f) s).outcome ≠ .ok b :=
  (bind_not_ok hm).1

theorem bind_ends {m : Procedure σ ε ω α} {f : α → Procedure σ ε ω β} {s : σ}
    (hm : ∀ a, (m s).outcome ≠ .ok a) :
    (((m >>= f) s).outcome = .panic ↔ (m s).outcome = .panic) ∧
      (((m >>= f) s).outcome = .timeout ↔ (m s).outcome = .timeout) :=
  (bind_not_ok hm).2

theorem bind_error {m : Procedure σ ε ω α} {f : α → Procedure σ ε ω β} {s : σ} {err : ε}
    (hm : (m s).outcome = .error err) : ((m >>= f) s).outcome = .error err := by
  change (Procedure.bind m f s).outcome = _
  unfold Procedure.bind
  rcases hran : m s with ⟨outcome, s', trace⟩
  rw [hran] at hm
  simp only at hm
  subst hm
  rfl

theorem bind_timeout {m : Procedure σ ε ω α} {f : α → Procedure σ ε ω β} {s : σ}
    (hm : (m s).outcome = .timeout) : ((m >>= f) s).outcome = .timeout :=
  (bind_ends fun a => by simp [hm]).2.mpr hm

theorem bind_timeout_later {m : Procedure σ ε ω α} {f : α → Procedure σ ε ω β} {s s' : σ} {a : α}
    {trace : List ω} (hm : m s = ⟨.ok a, s', trace⟩) (hf : (f a s').outcome = .timeout) :
    ((m >>= f) s).outcome = .timeout := by
  have ha : (m s).outcome = .ok a := by rw [hm]
  rw [bind_ok ha, hm]
  exact hf

theorem bind_failed_eq {m n : Procedure σ ε ω α} {f g : α → Procedure σ ε ω β} {s : σ}
    (hsame : n s = m s) (hm : ∀ a, (m s).outcome ≠ .ok a) : (n >>= g) s = (m >>= f) s := by
  change Procedure.bind n g s = Procedure.bind m f s
  unfold Procedure.bind
  rw [hsame]
  rcases hran : m s with ⟨outcome, s', trace⟩
  rw [hran] at hm
  cases outcome with
  | ok a => exact absurd rfl (hm a)
  | error err => rfl
  | panic => rfl
  | timeout => rfl

theorem trace_isPrefix_bind (m : Procedure σ ε ω α) (f : α → Procedure σ ε ω β) (s : σ) :
    (m s).trace <+: ((m >>= f) s).trace := by
  by_cases hvalue : ∃ a, (m s).outcome = .ok a
  · rcases hvalue with ⟨a, ha⟩
    rw [bind_ok ha]
    exact List.prefix_append _ _
  · rw [(bind_failed fun a ha => hvalue ⟨a, ha⟩).2.1]

theorem bind_eq_ok {m : Procedure σ ε ω α} {f : α → Procedure σ ε ω β} {s : σ} {b : β}
    (hok : ((m >>= f) s).outcome = .ok b) :
    ∃ a, (m s).outcome = .ok a ∧ (f a (m s).final).outcome = .ok b := by
  rcases hm : (m s).outcome with a | err | _ | _
  · rw [bind_ok hm] at hok
    exact ⟨a, rfl, hok⟩
  all_goals
    have hfailed := (bind_failed (s := s) (f := f) fun a => by rw [hm]; simp).2.2 b
    exact absurd hok hfailed

theorem collect_singleton {f : α → Procedure σ ε ω β} {a : α} {b : β} {s s' : σ} {trace : List ω}
    (hf : f a s = ⟨.ok b, s', trace⟩) : collect f [a] s = ⟨.ok [b], s', trace⟩ := by
  have hok : (f a s).outcome = .ok b := by rw [hf]
  change (f a >>= fun b => Procedure.collect f [] >>= fun bs => Pure.pure (b :: bs)) s = _
  rw [bind_ok hok, hf]
  exact congrArg (Ran.mk _ _) (List.append_nil trace)

theorem forall₂_of_collect {f : α → Procedure σ ε ω β} (list : List α) {bs : List β} {s : σ}
    (hok : (collect f list s).outcome = .ok bs) :
    List.Forall₂ (fun a b => ∃ s', (f a s').outcome = .ok b) list bs := by
  induction list generalizing s bs with
  | nil =>
      cases hok
      exact .nil
  | cons a rest ih =>
      rcases bind_eq_ok hok with ⟨b, hb, hok⟩
      rcases bind_eq_ok hok with ⟨more, hmore, hok⟩
      cases hok
      exact .cons ⟨s, hb⟩ (ih hmore)

theorem mem_of_collect {f : α → Procedure σ ε ω β} {list : List α} {bs : List β} {s : σ}
    (hok : (collect f list s).outcome = .ok bs) {b : β} (hmem : b ∈ bs) :
    ∃ a ∈ list, ∃ s', (f a s').outcome = .ok b := by
  have hrel := forall₂_of_collect list hok
  clear hok
  induction hrel with
  | nil => simp at hmem
  | cons hhead _ ih =>
      rcases List.mem_cons.mp hmem with rfl | hrest
      · exact ⟨_, List.mem_cons_self, hhead⟩
      · rcases ih hrest with ⟨a, ha, hb⟩
        exact ⟨a, List.mem_cons_of_mem _ ha, hb⟩

theorem pure_bind (a : α) (f : α → Procedure σ ε ω β) : (Pure.pure a >>= f) = f a := by
  funext s
  change Procedure.bind (Pure.pure a) f s = f a s
  unfold Procedure.bind
  change (match f a s with
    | ⟨outcome, s'', trace'⟩ => (⟨outcome, s'', [] ++ trace'⟩ : Ran σ ε ω β)) = f a s
  rcases f a s with ⟨outcome, s', trace⟩
  rfl

theorem mapError_pure (f : ε → ε) (a : α) :
    mapError f (Pure.pure a : Procedure σ ε ω α) = Pure.pure a := rfl

@[simp] theorem mapError_final (f : ε → ε) (m : Procedure σ ε ω α) (s : σ) :
    (mapError f m s).final = (m s).final := by
  unfold mapError
  rcases m s with ⟨_ | _ | _ | _, _, _⟩ <;> rfl

@[simp] theorem mapError_trace (f : ε → ε) (m : Procedure σ ε ω α) (s : σ) :
    (mapError f m s).trace = (m s).trace := by
  unfold mapError
  rcases m s with ⟨_ | _ | _ | _, _, _⟩ <;> rfl

@[simp] theorem mapError_ok_iff (f : ε → ε) (m : Procedure σ ε ω α) (s : σ) (a : α) :
    (mapError f m s).outcome = .ok a ↔ (m s).outcome = .ok a := by
  unfold mapError
  rcases m s with ⟨_ | _ | _ | _, _, _⟩ <;> simp

theorem mapError_error {f : ε → ε} {m : Procedure σ ε ω α} {s : σ} {err : ε}
    (hm : (m s).outcome = .error err) : (mapError f m s).outcome = .error (f err) := by
  unfold mapError
  rcases hran : m s with ⟨outcome, s', trace⟩
  rw [hran] at hm
  simp only at hm
  subst hm
  rfl

@[simp] theorem mapError_panic_iff (f : ε → ε) (m : Procedure σ ε ω α) (s : σ) :
    (mapError f m s).outcome = .panic ↔ (m s).outcome = .panic := by
  unfold mapError
  rcases m s with ⟨_ | _ | _ | _, _, _⟩ <;> simp

@[simp] theorem mapError_timeout_iff (f : ε → ε) (m : Procedure σ ε ω α) (s : σ) :
    (mapError f m s).outcome = .timeout ↔ (m s).outcome = .timeout := by
  unfold mapError
  rcases m s with ⟨_ | _ | _ | _, _, _⟩ <;> simp

/-! ## Congruences -/

/-- A relation between procedures that is kept when they are composed. -/
structure Congruence
    (R : ∀ {α : Type}, Procedure σ ε ω α → Procedure σ ε ω α → Prop) : Prop where
  refl : ∀ {α : Type} (m : Procedure σ ε ω α), R m m
  bind : ∀ {α β : Type} {m n : Procedure σ ε ω α} {f g : α → Procedure σ ε ω β},
    R m n → (∀ a, R (f a) (g a)) → R (m >>= f) (n >>= g)
  mapError : ∀ {α : Type} {m n : Procedure σ ε ω α} (f : ε → ε),
    R m n → R (mapError f m) (mapError f n)
  within : ∀ {α : Type} {m n : Procedure σ ε ω α} {enter : σ → σ} {leave : σ → σ → σ},
    R m n → R (within enter leave m) (within enter leave n)

section Congruence

variable {R : ∀ {α : Type}, Procedure σ ε ω α → Procedure σ ε ω α → Prop}

theorem Congruence.collect (hR : Congruence R) {f g : α → Procedure σ ε ω β} (list : List α)
    (hf : ∀ a, R (f a) (g a)) : R (collect f list) (collect g list) := by
  induction list with
  | nil => exact hR.refl _
  | cons a rest ih => exact hR.bind (hf a) fun _ => hR.bind ih fun _ => hR.refl _

theorem Congruence.forEach (hR : Congruence R) {f g : α → Procedure σ ε ω Unit} (list : List α)
    (hf : ∀ a, R (f a) (g a)) : R (forEach f list) (forEach g list) := by
  induction list with
  | nil => exact hR.refl _
  | cons a rest ih => exact hR.bind (hf a) fun _ => ih

end Congruence

theorem congruence_eq : Congruence (fun {_} (m n : Procedure σ ε ω _) => m = n) where
  refl _ := rfl
  bind hm hf := by rw [hm, funext hf]
  mapError f hm := congrArg (mapError f) hm
  within hm := by rw [hm]

/-- The first procedure does the same as the second one, unless that one fails. -/
def SameUnlessError (m n : Procedure σ ε ω α) : Prop :=
  ∀ s, m s = n s ∨ ∃ err, (n s).outcome = .error err

theorem SameUnlessError.bind {m n : Procedure σ ε ω α} {f g : α → Procedure σ ε ω β}
    (hm : SameUnlessError m n) (hf : ∀ a, SameUnlessError (f a) (g a)) :
    SameUnlessError (m >>= f) (n >>= g) := by
  intro s
  rcases hm s with hsame | ⟨err, herr⟩
  · by_cases hvalue : ∃ a, (n s).outcome = .ok a
    · rcases hvalue with ⟨a, ha⟩
      rw [bind_ok ha, bind_ok (by rw [hsame, ha] : (m s).outcome = .ok a), hsame]
      rcases hf a (n s).final with hrest | herr
      · exact .inl (by rw [hrest])
      · exact .inr herr
    · exact .inl (bind_failed_eq hsame fun a ha => hvalue ⟨a, ha⟩)
  · exact .inr ⟨err, bind_error herr⟩

theorem SameUnlessError.mapError {m n : Procedure σ ε ω α} (f : ε → ε)
    (hm : SameUnlessError m n) : SameUnlessError (mapError f m) (mapError f n) := by
  intro s
  rcases hm s with hsame | ⟨err, herr⟩
  · exact .inl (by simp only [Procedure.mapError, hsame])
  · exact .inr ⟨f err, mapError_error herr⟩

theorem SameUnlessError.within {m n : Procedure σ ε ω α} {enter : σ → σ} {leave : σ → σ → σ}
    (hm : SameUnlessError m n) : SameUnlessError (within enter leave m) (within enter leave n) := by
  intro s
  rcases hm (enter s) with hsame | herr
  · exact .inl (by simp only [Procedure.within, hsame])
  · exact .inr herr

theorem congruence_sameUnlessError : Congruence (@SameUnlessError σ ε ω) where
  refl _ _ := .inl rfl
  bind := SameUnlessError.bind
  mapError := SameUnlessError.mapError
  within := SameUnlessError.within

/-! ## Procedures that never succeed -/

def Fails (m : Procedure σ ε ω α) : Prop := ∀ s a, (m s).outcome ≠ .ok a

theorem fails_throw (err : ε) : Fails (throw err : Procedure σ ε ω α) := by
  intro s a hok
  cases hok

theorem fails_outOfFuel : Fails (outOfFuel : Procedure σ ε ω α) := by
  intro s a hok
  cases hok

theorem Fails.within {m : Procedure σ ε ω α} (hm : Fails m) (enter : σ → σ)
    (leave : σ → σ → σ) : Fails (within enter leave m) := by
  intro s a hok
  exact hm (enter s) a hok

theorem Fails.bind {m : Procedure σ ε ω α} (hm : Fails m) (f : α → Procedure σ ε ω β) :
    Fails (m >>= f) := by
  intro s b hok
  rcases bind_eq_ok hok with ⟨a, ha, _⟩
  exact hm s a ha

theorem Fails.after {f : α → Procedure σ ε ω β} (hf : ∀ a, Fails (f a))
    (m : Procedure σ ε ω α) : Fails (m >>= f) := by
  intro s b hok
  rcases bind_eq_ok hok with ⟨a, _, hb⟩
  exact hf a _ b hb

/-! ## Procedures that only look -/

def ReadOnly (m : Procedure σ ε ω α) : Prop := ∀ s, (m s).final = s

theorem ReadOnly.bind {m : Procedure σ ε ω α} {f : α → Procedure σ ε ω β}
    (hm : ReadOnly m) (hf : ∀ a, ReadOnly (f a)) : ReadOnly (m >>= f) := by
  intro s
  by_cases hvalue : ∃ a, (m s).outcome = .ok a
  · rcases hvalue with ⟨a, ha⟩
    rw [bind_ok ha, hf a, hm]
  · rw [(bind_failed (s := s) (f := f) fun a ha => hvalue ⟨a, ha⟩).1, hm]

theorem ReadOnly.collect {f : α → Procedure σ ε ω β} (hf : ∀ a, ReadOnly (f a))
    (list : List α) : ReadOnly (collect f list) := by
  induction list with
  | nil => exact fun _ => rfl
  | cons a rest ih => exact (hf a).bind fun _ => ih.bind fun _ _ => rfl

/-! ## Invariants that hold at every point -/

/-- What the steps of a system preserve.  The state only grows along `le` and stays on its
level, and a recorded event keeps its meaning `holds` as the state grows.  A fatal event
announces a crash, an endless one a computation that no fuel suffices for.  Only a patient
discipline lets a run give up for want of fuel. -/
structure Discipline (σ ω : Type) where
  inv : σ → Prop
  le : σ → σ → Prop
  level : σ → ℕ
  holds : ω → σ → Prop
  fatal : ω → Prop
  endless : ω → Prop
  patient : Prop
  refl : ∀ s, le s s
  trans : ∀ s s' s'', le s s' → le s' s'' → le s s''
  holds_mono : ∀ event s s', le s s' → holds event s → holds event s'

/-- A run that started in the state `s` and kept to the discipline: it crashed
exactly if it recorded a fatal event. -/
structure Upheld (d : Discipline σ ω) (s : σ) (ran : Ran σ ε ω α) (post : α → σ → Prop) :
    Prop where
  inv : d.inv ran.final
  le : d.le s ran.final
  level : d.level ran.final = d.level s
  trace : ∀ event ∈ ran.trace, d.holds event ran.final
  panics : ran.outcome = .panic ↔ ∃ event ∈ ran.trace, d.fatal event
  hangs : (∃ event ∈ ran.trace, d.endless event) → ran.outcome = .timeout
  gaveUp : ran.outcome = .timeout → d.patient
  value : ∀ a, ran.outcome = .ok a → post a ran.final

section Sound

variable {d : Discipline σ ω} {s : σ}

/-- From a state that satisfies the invariant, the procedure keeps to the
discipline, whether it succeeds or fails, and a value it returns satisfies the
postcondition. -/
def Sound (d : Discipline σ ω) (s : σ) (m : Procedure σ ε ω α)
    (post : α → σ → Prop) : Prop :=
  d.inv s → Upheld d s (m s) post

theorem Sound.silent {m : Procedure σ ε ω α} {post : α → σ → Prop}
    (hstep : d.inv s → d.inv (m s).final ∧ d.le s (m s).final)
    (hlevel : d.level (m s).final = d.level s)
    (htrace : (m s).trace = []) (hpanic : (m s).outcome ≠ .panic)
    (htimeout : (m s).outcome = .timeout → d.patient)
    (hvalue : d.inv s → ∀ a, (m s).outcome = .ok a → post a (m s).final) :
    Sound d s m post := by
  intro hinv
  have hnone : ∀ event, event ∉ (m s).trace := by simp [htrace]
  constructor
  · exact (hstep hinv).1
  · exact (hstep hinv).2
  · exact hlevel
  · exact fun event hmem => absurd hmem (hnone event)
  · constructor
    · exact fun h => absurd h hpanic
    · rintro ⟨event, hmem, _⟩
      exact absurd hmem (hnone event)
  · rintro ⟨event, hmem, _⟩
    exact absurd hmem (hnone event)
  · exact htimeout
  · exact hvalue hinv

theorem Sound.pure {a : α} {post : α → σ → Prop} (hpost : d.inv s → post a s) :
    Sound d s (Pure.pure a : Procedure σ ε ω α) post := by
  apply Sound.silent (fun hinv => ⟨hinv, d.refl s⟩) rfl rfl
  · intro hpanic
    cases hpanic
  · intro htimeout
    cases htimeout
  · intro hinv b hok
    injection hok with hok
    exact hok ▸ hpost hinv

theorem Sound.throw {err : ε} {post : α → σ → Prop} :
    Sound d s (throw err : Procedure σ ε ω α) post := by
  apply Sound.silent (fun hinv => ⟨hinv, d.refl s⟩) rfl rfl
  · intro hpanic
    cases hpanic
  · intro htimeout
    cases htimeout
  · intro _ a hok
    cases hok

theorem Sound.outOfFuel {post : α → σ → Prop} (hpatient : d.patient) :
    Sound d s (outOfFuel : Procedure σ ε ω α) post := by
  apply Sound.silent (fun hinv => ⟨hinv, d.refl s⟩) rfl rfl
  · intro hpanic
    cases hpanic
  · exact fun _ => hpatient
  · intro _ a hok
    cases hok

theorem Sound.modify {f : σ → σ} {post : Unit → σ → Prop} (hlevel : d.level (f s) = d.level s)
    (hstep : d.inv s → d.inv (f s) ∧ d.le s (f s) ∧ post () (f s)) :
    Sound d s (modify f : Procedure σ ε ω Unit) post := by
  apply Sound.silent (fun hinv => ⟨(hstep hinv).1, (hstep hinv).2.1⟩) hlevel rfl
  · intro hpanic
    cases hpanic
  · intro htimeout
    cases htimeout
  · intro hinv _ _
    exact (hstep hinv).2.2

/-- One event and no change of the state. -/
theorem Upheld.single {event : ω} {outcome : Outcome ε α} {post : α → σ → Prop} (hinv : d.inv s)
    (hholds : d.holds event s) (hpanic : outcome = .panic ↔ d.fatal event)
    (hendless : d.endless event → outcome = .timeout) (htimeout : outcome = .timeout → d.patient)
    (hvalue : ∀ a, outcome = .ok a → post a s) : Upheld d s ⟨outcome, s, [event]⟩ post := by
  refine ⟨hinv, d.refl s, rfl, ?_, ?_, ?_, htimeout, hvalue⟩
  · intro other hmem
    rwa [List.mem_singleton.mp hmem]
  · simpa using hpanic
  · simpa using hendless

theorem Sound.emit {event : ω} (hfatal : ¬d.fatal event) (hendless : ¬d.endless event)
    (hholds : d.inv s → d.holds event s) :
    Sound d s (emit event : Procedure σ ε ω Unit) fun _ s' => s' = s := by
  intro hinv
  apply Upheld.single hinv (hholds hinv)
  · simpa using hfatal
  · exact fun h => absurd h hendless
  · intro htimeout
    cases htimeout
  · exact fun _ _ => rfl

theorem emit_bind {event : ω} {m : Procedure σ ε ω α} {outcome : Outcome ε α} {s : σ}
    (hm : m s = ⟨outcome, s, []⟩) :
    (Procedure.emit event >>= fun _ => m) s = ⟨outcome, s, [event]⟩ := by
  change Procedure.bind (Procedure.emit event) (fun _ => m) s = _
  simp only [Procedure.bind, Procedure.emit, hm]
  rfl

theorem Sound.fatal {event : ω} {m : Procedure σ ε ω α} {post : α → σ → Prop}
    (hfatal : d.fatal event) (hendless : ¬d.endless event)
    (hholds : d.inv s → d.holds event s) (hm : m s = ⟨.panic, s, []⟩) :
    Sound d s (Procedure.emit event >>= fun _ => m) post := by
  intro hinv
  rw [emit_bind hm]
  apply Upheld.single hinv (hholds hinv)
  · exact iff_of_true rfl hfatal
  · exact fun h => absurd h hendless
  · intro htimeout
    cases htimeout
  · intro a hok
    cases hok

theorem Sound.endless {event : ω} {m : Procedure σ ε ω α} {post : α → σ → Prop}
    (hfatal : ¬d.fatal event) (hpatient : d.patient)
    (hholds : d.inv s → d.holds event s) (hm : m s = ⟨.timeout, s, []⟩) :
    Sound d s (Procedure.emit event >>= fun _ => m) post := by
  intro hinv
  rw [emit_bind hm]
  apply Upheld.single hinv (hholds hinv)
  · simpa using hfatal
  · exact fun _ => rfl
  · exact fun _ => hpatient
  · intro a hok
    cases hok

theorem Sound.weaken {m : Procedure σ ε ω α} {post post' : α → σ → Prop}
    (hm : Sound d s m post)
    (hpost : ∀ a s', d.inv s' → d.le s s' → post a s' → post' a s') :
    Sound d s m post' := by
  intro hinv
  have hran := hm hinv
  exact { hran with value := fun a ha => hpost a _ hran.inv hran.le (hran.value a ha) }

theorem Sound.also {m : Procedure σ ε ω α} {post : α → σ → Prop} {fact : α → Prop}
    (hm : Sound d s m post) (hfact : ∀ a, (m s).outcome = .ok a → fact a) :
    Sound d s m fun a s' => fact a ∧ post a s' := by
  intro hinv
  have hran := hm hinv
  exact { hran with value := fun a ha => ⟨hfact a ha, hran.value a ha⟩ }

theorem Sound.bind {m : Procedure σ ε ω α} {f : α → Procedure σ ε ω β}
    {mid : α → σ → Prop} {post : β → σ → Prop}
    (hm : Sound d s m mid)
    (hf : ∀ a s', d.inv s' → d.le s s' → mid a s' → Sound d s' (f a) post) :
    Sound d s (m >>= f) post := by
  intro hinv
  have hran := hm hinv
  by_cases hvalue : ∃ a, (m s).outcome = .ok a
  · rcases hvalue with ⟨a, ha⟩
    have hnext := hf a _ hran.inv hran.le (hran.value a ha) hran.inv
    -- the first part succeeded, so it recorded no event that dooms a run
    have hharmless : ∀ event ∈ (m s).trace, ¬d.fatal event ∧ ¬d.endless event := by
      intro event hmem
      constructor
      · intro hfatal
        have hpanic := hran.panics.mpr ⟨event, hmem, hfatal⟩
        rw [ha] at hpanic
        cases hpanic
      · intro hendless
        have htimeout := hran.hangs ⟨event, hmem, hendless⟩
        rw [ha] at htimeout
        cases htimeout
    rw [bind_ok ha]
    constructor
    · exact hnext.inv
    · exact d.trans _ _ _ hran.le hnext.le
    · exact hnext.level.trans hran.level
    · intro event hmem
      rcases List.mem_append.mp hmem with hfirst | hsecond
      · exact d.holds_mono event _ _ hnext.le (hran.trace event hfirst)
      · exact hnext.trace event hsecond
    · rw [hnext.panics]
      constructor
      · rintro ⟨event, hmem, hfatal⟩
        exact ⟨event, List.mem_append_right _ hmem, hfatal⟩
      · rintro ⟨event, hmem, hfatal⟩
        rcases List.mem_append.mp hmem with hfirst | hsecond
        · exact absurd hfatal (hharmless event hfirst).1
        · exact ⟨event, hsecond, hfatal⟩
    · rintro ⟨event, hmem, hendless⟩
      rcases List.mem_append.mp hmem with hfirst | hsecond
      · exact absurd hendless (hharmless event hfirst).2
      · exact hnext.hangs ⟨event, hsecond, hendless⟩
    · exact hnext.gaveUp
    · exact hnext.value
  · have hfailed := bind_failed (s := s) (f := f) fun a ha => hvalue ⟨a, ha⟩
    have hends := bind_ends (s := s) (f := f) fun a ha => hvalue ⟨a, ha⟩
    constructor
    · rw [hfailed.1]
      exact hran.inv
    · rw [hfailed.1]
      exact hran.le
    · rw [hfailed.1]
      exact hran.level
    · rw [hfailed.1, hfailed.2.1]
      exact hran.trace
    · rw [hfailed.2.1, hends.1]
      exact hran.panics
    · rw [hfailed.2.1, hends.2]
      exact hran.hangs
    · rw [hends.2]
      exact hran.gaveUp
    · exact fun b hb => absurd hb (hfailed.2.2 b)

theorem Sound.bind_readOnly {m : Procedure σ ε ω α} {f : α → Procedure σ ε ω β}
    {mid : α → σ → Prop} {post : β → σ → Prop} (hlook : ReadOnly m)
    (hm : Sound d s m mid) (hf : ∀ a, mid a s → Sound d s (f a) post) :
    Sound d s (m >>= f) post := by
  have hstay : Sound d s m fun a s' => s' = s ∧ mid a s' := by
    intro hinv
    have hran := hm hinv
    exact { hran with value := fun a ha => ⟨hlook s, hran.value a ha⟩ }
  apply hstay.bind
  rintro a s' _ _ ⟨rfl, ha⟩
  exact hf a ha

theorem Sound.mapError {f : ε → ε} {m : Procedure σ ε ω α} {post : α → σ → Prop}
    (hm : Sound d s m post) : Sound d s (mapError f m) post := by
  intro hinv
  have hran := hm hinv
  constructor
  · simpa using hran.inv
  · simpa using hran.le
  · simpa using hran.level
  · simpa using hran.trace
  · simpa using hran.panics
  · simpa using hran.hangs
  · simpa using hran.gaveUp
  · simpa using hran.value

theorem Sound.within {enter : σ → σ} {leave : σ → σ → σ} {m : Procedure σ ε ω α}
    {mid post : α → σ → Prop}
    (henter : d.inv s → d.inv (enter s))
    (hlevel : ∀ s', d.level s' = d.level (enter s) → d.level (leave s s') = d.level s)
    (hm : Sound d (enter s) m mid)
    (hleave : ∀ s', d.inv s → d.inv s' → d.le (enter s) s' →
      d.inv (leave s s') ∧ d.le s (leave s s') ∧ d.le s' (leave s s') ∧
        ∀ a, mid a s' → post a (leave s s')) :
    Sound d s (within enter leave m) post := by
  intro hinv
  have hran := hm (henter hinv)
  rcases hleave _ hinv hran.inv hran.le with ⟨hkept, hgrown, hsame, hpost⟩
  constructor
  · exact hkept
  · exact hgrown
  · exact hlevel _ hran.level
  · exact fun event hmem => d.holds_mono event _ _ hsame (hran.trace event hmem)
  · exact hran.panics
  · exact hran.hangs
  · exact hran.gaveUp
  · exact fun a ha => hpost a (hran.value a ha)

theorem Sound.collect {f : α → Procedure σ ε ω β} {post : β → σ → Prop}
    (hmono : ∀ b s' s'', d.le s' s'' → post b s' → post b s'')
    (list : List α)
    (hf : ∀ a ∈ list, ∀ s', d.inv s' → d.le s s' → Sound d s' (f a) post) :
    Sound d s (collect f list) fun bs s' =>
      bs.length = list.length ∧ ∀ b ∈ bs, post b s' := by
  induction list generalizing s with
  | nil => exact Sound.pure fun _ => by simp
  | cons a rest ih =>
      have hhead : Sound d s (f a) post := fun hinv =>
        hf a List.mem_cons_self s hinv (d.refl s) hinv
      apply Sound.bind hhead
      intro b s' _ hle hb
      apply Sound.bind (ih fun a' hmem s'' hinv'' hle' =>
        hf a' (List.mem_cons_of_mem a hmem) s'' hinv'' (d.trans _ _ _ hle hle'))
      intro bs s'' _ hle' hbs
      apply Sound.pure
      intro _
      constructor
      · simp [hbs.1]
      · intro b' hmem
        rcases List.mem_cons.mp hmem with rfl | hrest
        · exact hmono _ _ _ hle' hb
        · exact hbs.2 b' hrest

theorem Sound.forEach {f : α → Procedure σ ε ω Unit} {post : α → σ → Prop}
    (hmono : ∀ a s' s'', d.le s' s'' → post a s' → post a s'')
    (list : List α)
    (hf : ∀ a ∈ list, ∀ s', d.inv s' → d.le s s' → Sound d s' (f a) fun _ => post a) :
    Sound d s (forEach f list) fun _ s' => ∀ a ∈ list, post a s' := by
  induction list generalizing s with
  | nil => exact Sound.pure fun _ => by simp
  | cons a rest ih =>
      have hhead : Sound d s (f a) fun _ => post a := fun hinv =>
        hf a List.mem_cons_self s hinv (d.refl s) hinv
      apply Sound.bind hhead
      intro _ s' _ hle ha
      apply Sound.weaken (ih fun a' hmem s'' hinv'' hle' =>
        hf a' (List.mem_cons_of_mem a hmem) s'' hinv'' (d.trans _ _ _ hle hle'))
      intro _ s'' _ hle' hrest a' hmem
      rcases List.mem_cons.mp hmem with rfl | hold
      · exact hmono _ _ _ hle' ha
      · exact hrest a' hold

end Sound

/-! ## One procedure following another -/

section Follows

variable {rel : σ → τ → Prop} {quiet : ω → Prop}

/-- From related states, whenever the first procedure succeeds and records
only quiet events, the second one succeeds with a related value. -/
def Follows (rel : σ → τ → Prop) (quiet : ω → Prop)
    (m : Procedure σ ε ω α) (n : Procedure τ ε ω β) (post : α → β → Prop) : Prop :=
  ∀ s t a, rel s t → (m s).outcome = .ok a → (∀ event ∈ (m s).trace, quiet event) →
    rel (m s).final (n t).final ∧ ∃ b, (n t).outcome = .ok b ∧ post a b

theorem Follows.pure {a : α} {b : β} {post : α → β → Prop} (hpost : post a b) :
    Follows rel quiet (Pure.pure a : Procedure σ ε ω α)
      (Pure.pure b : Procedure τ ε ω β) post := by
  intro s t value hrel hok _
  injection hok with hok
  exact ⟨hrel, b, rfl, hok ▸ hpost⟩

theorem Follows.failed {m : Procedure σ ε ω α} {n : Procedure τ ε ω β}
    {post : α → β → Prop} (hm : Fails m) : Follows rel quiet m n post := by
  intro s t a _ hok _
  exact absurd hok (hm s a)

theorem Follows.throw {err : ε} {n : Procedure τ ε ω β} {post : α → β → Prop} :
    Follows rel quiet (throw err : Procedure σ ε ω α) n post :=
  Follows.failed (fails_throw err)

theorem Follows.crash {n : Procedure τ ε ω β} {post : α → β → Prop} :
    Follows rel quiet (crash : Procedure σ ε ω α) n post :=
  Follows.failed (by simp [Fails, Procedure.crash])

theorem Follows.outOfFuel {n : Procedure τ ε ω β} {post : α → β → Prop} :
    Follows rel quiet (outOfFuel : Procedure σ ε ω α) n post :=
  Follows.failed fails_outOfFuel

theorem Follows.get :
    Follows rel quiet (get : Procedure σ ε ω σ) (get : Procedure τ ε ω τ) rel := by
  intro s t a hrel hok _
  injection hok with hok
  exact ⟨hrel, t, rfl, hok ▸ hrel⟩

theorem Follows.modify {f : σ → σ} {g : τ → τ}
    (hstep : ∀ s t, rel s t → rel (f s) (g t)) :
    Follows rel quiet (modify f : Procedure σ ε ω Unit)
      (modify g : Procedure τ ε ω Unit) fun _ _ => True := by
  intro s t _ hrel _ _
  exact ⟨hstep s t hrel, (), rfl, trivial⟩

theorem Follows.emit {event event' : ω} :
    Follows rel quiet (emit event : Procedure σ ε ω Unit)
      (emit event' : Procedure τ ε ω Unit) fun _ _ => quiet event := by
  intro s t _ hrel _ hquiet
  exact ⟨hrel, (), rfl, hquiet event (List.mem_singleton_self event)⟩

theorem Follows.weaken {m : Procedure σ ε ω α} {n : Procedure τ ε ω β}
    {post post' : α → β → Prop} (hm : Follows rel quiet m n post)
    (hpost : ∀ a b, post a b → post' a b) : Follows rel quiet m n post' := by
  intro s t a hrel hok hquiet
  rcases hm s t a hrel hok hquiet with ⟨hrel', b, hb, hab⟩
  exact ⟨hrel', b, hb, hpost a b hab⟩

theorem Follows.bind {m : Procedure σ ε ω α} {n : Procedure τ ε ω β}
    {f : α → Procedure σ ε ω γ} {g : β → Procedure τ ε ω δ}
    {mid : α → β → Prop} {post : γ → δ → Prop}
    (hm : Follows rel quiet m n mid)
    (hf : ∀ a b, mid a b → Follows rel quiet (f a) (g b) post) :
    Follows rel quiet (m >>= f) (n >>= g) post := by
  intro s t c hrel hok hquiet
  rcases bind_eq_ok hok with ⟨a, ha, hc⟩
  rw [bind_ok ha] at hquiet ⊢
  rcases hm s t a hrel ha fun event hmem =>
    hquiet event (List.mem_append_left _ hmem) with ⟨hrel', b, hb, hab⟩
  rw [bind_ok hb]
  exact hf a b hab _ _ c hrel' hc fun event hmem =>
    hquiet event (List.mem_append_right _ hmem)

theorem Follows.mapError {f g : ε → ε} {m : Procedure σ ε ω α} {n : Procedure τ ε ω β}
    {post : α → β → Prop} (hm : Follows rel quiet m n post) :
    Follows rel quiet (mapError f m) (mapError g n) post := by
  intro s t a hrel hok hquiet
  rw [mapError_ok_iff] at hok
  rw [mapError_trace] at hquiet
  simpa using hm s t a hrel hok hquiet

theorem Follows.within {enter : σ → σ} {leave : σ → σ → σ} {enter' : τ → τ}
    {leave' : τ → τ → τ} {m : Procedure σ ε ω α} {n : Procedure τ ε ω β}
    {post : α → β → Prop}
    (henter : ∀ s t, rel s t → rel (enter s) (enter' t))
    (hleave : ∀ s t s' t', rel s t → rel s' t' → rel (leave s s') (leave' t t'))
    (hm : Follows rel quiet m n post) :
    Follows rel quiet (within enter leave m) (within enter' leave' n) post := by
  intro s t a hrel hok hquiet
  rcases hm _ _ a (henter s t hrel) hok hquiet with ⟨hrel', b, hb, hab⟩
  exact ⟨hleave s t _ _ hrel hrel', b, hb, hab⟩

theorem Follows.collect {f : α → Procedure σ ε ω γ} {g : β → Procedure τ ε ω δ}
    {pre : α → β → Prop} {post : γ → δ → Prop}
    (hf : ∀ a b, pre a b → Follows rel quiet (f a) (g b) post)
    {list : List α} {list' : List β} (hlists : List.Forall₂ pre list list') :
    Follows rel quiet (collect f list) (collect g list') (List.Forall₂ post) := by
  induction hlists with
  | nil => exact Follows.pure .nil
  | cons hhead _ ih =>
      apply Follows.bind (hf _ _ hhead)
      intro c d hcd
      apply Follows.bind ih
      intro cs ds hcds
      exact Follows.pure (.cons hcd hcds)

theorem Follows.forEach {f : α → Procedure σ ε ω Unit} {g : β → Procedure τ ε ω Unit}
    {pre : α → β → Prop}
    (hf : ∀ a b, pre a b → Follows rel quiet (f a) (g b) fun _ _ => True)
    {list : List α} {list' : List β} (hlists : List.Forall₂ pre list list') :
    Follows rel quiet (forEach f list) (forEach g list') fun _ _ => True := by
  induction hlists with
  | nil => exact Follows.pure trivial
  | cons hhead _ ih => exact Follows.bind (hf _ _ hhead) fun _ _ _ => ih

end Follows

/-! ## Procedures that return -/

/-- From a state with the first property the procedure returns a value and ends with the second
property. -/
def Returns (P : σ → Prop) (m : Procedure σ ε ω α) (Q : α → σ → Prop) : Prop :=
  ∀ s, P s → ∃ a s' trace, m s = ⟨.ok a, s', trace⟩ ∧ Q a s'

/-- The procedure may fail as well, but it does not crash. -/
def Leaves (P : σ → Prop) (m : Procedure σ ε ω α) (R : σ → Prop) : Prop :=
  ∀ s, P s → ((∃ a, (m s).outcome = .ok a) ∨ ∃ err, (m s).outcome = .error err) ∧ R (m s).final

section Returns

variable {P : σ → Prop} {Q : α → σ → Prop} {m : Procedure σ ε ω α} {f : α → Procedure σ ε ω β}

theorem Returns.pure {a : α} (hQ : ∀ s, P s → Q a s) :
    Returns P (Pure.pure a : Procedure σ ε ω α) Q :=
  fun s hs => ⟨a, s, [], rfl, hQ s hs⟩

theorem Returns.bind {R : β → σ → Prop} (hm : Returns P m Q)
    (hf : ∀ a, Returns (Q a) (f a) R) : Returns P (m >>= f) R := by
  intro s hs
  obtain ⟨a, s', trace, hran, ha⟩ := hm s hs
  obtain ⟨b, s'', trace', hran', hb⟩ := hf a s' ha
  refine ⟨b, s'', trace ++ trace', ?_, hb⟩
  rw [bind_ok (by rw [hran]), hran, hran']

theorem Returns.imp {Q' : α → σ → Prop} (hm : Returns P m Q)
    (himp : ∀ a s, Q a s → Q' a s) : Returns P m Q' := by
  intro s hs
  obtain ⟨a, s', trace, hran, ha⟩ := hm s hs
  exact ⟨a, s', trace, hran, himp a s' ha⟩

theorem returns_of_and {p : Prop} (hm : p → Returns P m Q) : Returns (fun s => p ∧ P s) m Q :=
  fun s hs => hm hs.1 s hs.2

theorem leaves_of_and {p : Prop} {R : σ → Prop} (hm : p → Leaves P m R) :
    Leaves (fun s => p ∧ P s) m R :=
  fun s hs => hm hs.1 s hs.2

theorem Returns.mapError (g : ε → ε) (hm : Returns P m Q) : Returns P (mapError g m) Q := by
  intro s hs
  obtain ⟨a, s', trace, hran, ha⟩ := hm s hs
  refine ⟨a, s', trace, ?_, ha⟩
  rw [Procedure.mapError, hran]

theorem Returns.collect_map {g : β → α} {f : α → Procedure σ ε ω γ} {R : β → γ → Prop}
    {list : List β} (hf : ∀ b ∈ list, Returns P (f (g b)) fun c s => R b c ∧ P s) :
    Returns P (collect f (list.map g)) fun cs s => List.Forall₂ R list cs ∧ P s := by
  induction list with
  | nil => exact .pure fun s hs => ⟨.nil, hs⟩
  | cons b rest ih =>
      rw [List.forall_mem_cons] at hf
      refine hf.1.bind fun c => ?_
      rintro s ⟨hc, hs⟩
      exact (ih hf.2).bind (fun cs => .pure fun s hcs => ⟨.cons hc hcs.1, hcs.2⟩) s hs

/-- Procedures that simulate the steps of a fold, where the relation knows which of them remain. -/
theorem Returns.leaves {R : σ → Prop} (hm : Returns P m fun _ => R) : Leaves P m R := by
  intro s hs
  obtain ⟨a, s', trace, hran, ha⟩ := hm s hs
  rw [hran]
  exact ⟨.inl ⟨a, rfl⟩, ha⟩

theorem Leaves.throw {err : ε} {R : σ → Prop} (hR : ∀ s, P s → R s) :
    Leaves P (throw err : Procedure σ ε ω α) R :=
  fun s hs => ⟨.inr ⟨err, rfl⟩, hR s hs⟩

theorem Returns.bind_leaves {R : σ → Prop} (hm : Returns P m Q)
    (hf : ∀ a, Leaves (Q a) (f a) R) : Leaves P (m >>= f) R := by
  intro s hs
  obtain ⟨a, s', trace, hran, ha⟩ := hm s hs
  rw [bind_ok (by rw [hran]), hran]
  exact hf a s' ha

end Returns

end Procedure
end Di
