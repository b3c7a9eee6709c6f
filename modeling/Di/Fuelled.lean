import Di.Procedure

/-!
# Procedures that are given fuel

A family of procedures, one for each amount of fuel, settles on a run if every
large enough amount of fuel gives that run, and it halts if it settles on a run
that did not give up.  `Yields` follows families that succeed.  `Ends` is for
families that halt as long as the events they record are tame, whatever the
fuel.  `Extends` compares two amounts of fuel: a run that did not give up is the
same with more fuel, and any other run goes on from where it was.
-/

namespace Di
namespace Procedure

open Filter

variable {σ ε ω α β : Type} {s : σ}

/-- With enough fuel the run from `s` is always the same. -/
def Settles (m : ℕ → Procedure σ ε ω α) (s : σ) (ran : Ran σ ε ω α) : Prop :=
  ∀ᶠ fuel in atTop, m fuel s = ran

theorem Settles.const (m : Procedure σ ε ω α) (s : σ) : Settles (fun _ => m) s (m s) :=
  Eventually.of_forall fun _ => rfl

theorem eventually_succ {p : ℕ → Prop} :
    (∀ᶠ fuel in atTop, p (fuel + 1)) ↔ ∀ᶠ fuel in atTop, p fuel := by
  rw [← eventually_map (P := p), map_add_atTop_eq_nat]

theorem Settles.bind {m : ℕ → Procedure σ ε ω α} {f : ℕ → α → Procedure σ ε ω β}
    {ran : Ran σ ε ω α} {ran' : Ran σ ε ω β} {a : α} (hm : Settles m s ran)
    (ha : ran.outcome = .ok a) (hf : Settles (fun fuel => f fuel a) ran.final ran') :
    Settles (fun fuel => m fuel >>= f fuel) s
      ⟨ran'.outcome, ran'.final, ran.trace ++ ran'.trace⟩ := by
  filter_upwards [hm, hf] with fuel hfirst hsecond
  have hok : (m fuel s).outcome = .ok a := by rw [hfirst, ha]
  rw [bind_ok hok, hfirst, hsecond]

/-! ## Families that succeed -/

/-- With enough fuel the family returns `a` and leaves the state `s'`. -/
def Yields (m : ℕ → Procedure σ ε ω α) (s : σ) (a : α) (s' : σ) : Prop :=
  ∃ trace, Settles m s ⟨.ok a, s', trace⟩

section Yields

variable {s' s'' : σ} {a : α} {b : β}

theorem Yields.of_eq {m : Procedure σ ε ω α} {trace : List ω} (hm : m s = ⟨.ok a, s', trace⟩) :
    Yields (fun _ => m) s a s' := ⟨trace, hm ▸ Settles.const m s⟩

theorem Yields.pure : Yields (fun _ => (Pure.pure a : Procedure σ ε ω α)) s a s :=
  Yields.of_eq rfl

theorem Yields.emit {event : ω} :
    Yields (fun _ => (emit event : Procedure σ ε ω Unit)) s () s := Yields.of_eq rfl

theorem Yields.get : Yields (fun _ => (get : Procedure σ ε ω σ)) s s s := Yields.of_eq rfl

theorem yields_succ {m : ℕ → Procedure σ ε ω α} :
    Yields (fun fuel => m (fuel + 1)) s a s' ↔ Yields m s a s' :=
  exists_congr fun trace => eventually_succ (p := fun fuel => m fuel s = ⟨.ok a, s', trace⟩)

theorem Yields.post {d : Discipline σ ω} {m : ℕ → Procedure σ ε ω α} {post : α → σ → Prop}
    (hm : Yields m s a s') (hsound : ∀ fuel, Sound d s (m fuel) post) (hinv : d.inv s) :
    post a s' := by
  rcases hm with ⟨trace, hm⟩
  rcases hm.exists with ⟨fuel, hfuel⟩
  have hran := hsound fuel hinv
  rw [hfuel] at hran
  exact hran.value a rfl

theorem Yields.bind {m : ℕ → Procedure σ ε ω α} {f : ℕ → α → Procedure σ ε ω β}
    (hm : Yields m s a s') (hf : Yields (fun fuel => f fuel a) s' b s'') :
    Yields (fun fuel => m fuel >>= f fuel) s b s'' := by
  rcases hm with ⟨trace, hm⟩
  rcases hf with ⟨trace', hf⟩
  exact ⟨trace ++ trace', hm.bind rfl hf⟩

theorem Yields.mapError {m : ℕ → Procedure σ ε ω α} (f : ε → ε) (hm : Yields m s a s') :
    Yields (fun fuel => mapError f (m fuel)) s a s' := by
  rcases hm with ⟨trace, hm⟩
  refine ⟨trace, ?_⟩
  filter_upwards [hm] with fuel hran
  simp only [Procedure.mapError, hran]

theorem Yields.within {m : ℕ → Procedure σ ε ω α} {enter : σ → σ} {leave : σ → σ → σ}
    (hm : Yields m (enter s) a s') :
    Yields (fun fuel => within enter leave (m fuel)) s a (leave s s') := by
  rcases hm with ⟨trace, hm⟩
  refine ⟨trace, ?_⟩
  filter_upwards [hm] with fuel hran
  simp only [Procedure.within, hran]

theorem Yields.collect {f : ℕ → α → Procedure σ ε ω β} {list : List α} {bs : List β}
    (hf : List.Forall₂ (fun a b => Yields (fun fuel => f fuel a) s b s) list bs) :
    Yields (fun fuel => collect (f fuel) list) s bs s := by
  induction hf with
  | nil => exact Yields.pure
  | cons hhead _ ih => exact hhead.bind (ih.bind Yields.pure)

theorem Yields.forEach {f : ℕ → α → Procedure σ ε ω Unit} (list : List α)
    (hf : ∀ a ∈ list, Yields (fun fuel => f fuel a) s () s) :
    Yields (fun fuel => forEach (f fuel) list) s () s := by
  induction list with
  | nil => exact Yields.pure
  | cons a rest ih =>
      apply Yields.bind (hf a List.mem_cons_self)
      exact ih fun a' hmem => hf a' (List.mem_cons_of_mem a hmem)

end Yields

/-! ## Families that halt -/

def Halts (m : ℕ → Procedure σ ε ω α) (s : σ) : Prop :=
  ∃ ran, Settles m s ran ∧ ran.outcome ≠ .timeout

/-- With enough fuel all recorded events are tame. -/
def Tamed (tame : ω → Prop) (m : ℕ → Procedure σ ε ω α) (s : σ) : Prop :=
  ∀ᶠ fuel in atTop, ∀ event ∈ (m fuel s).trace, tame event

/-- From a state that satisfies the invariant, the family halts if its events
are tame. -/
def Ends (d : Discipline σ ω) (tame : ω → Prop) (s : σ) (m : ℕ → Procedure σ ε ω α) : Prop :=
  d.inv s → Tamed tame m s → Halts m s

section Ends

variable {d : Discipline σ ω} {tame : ω → Prop}

theorem Ends.const {m : Procedure σ ε ω α} (hm : d.inv s → (m s).outcome ≠ .timeout) :
    Ends d tame s fun _ => m := by
  intro hinv _
  exact ⟨m s, Settles.const m s, hm hinv⟩

theorem ends_succ {m : ℕ → Procedure σ ε ω α} :
    (Ends d tame s fun fuel => m (fuel + 1)) ↔ Ends d tame s m := by
  have htamed : Tamed tame (fun fuel => m (fuel + 1)) s ↔ Tamed tame m s :=
    eventually_succ (p := fun fuel => ∀ event ∈ (m fuel s).trace, tame event)
  have hhalts : Halts (fun fuel => m (fuel + 1)) s ↔ Halts m s :=
    exists_congr fun ran => and_congr_left fun _ =>
      eventually_succ (p := fun fuel => m fuel s = ran)
  unfold Ends
  rw [htamed, hhalts]

theorem Ends.of_yields {m : ℕ → Procedure σ ε ω α} {a : α} {s' : σ} (hm : Yields m s a s') :
    Ends d tame s m := by
  rintro _ _
  rcases hm with ⟨trace, hm⟩
  exact ⟨_, hm, by simp⟩

theorem Ends.bind_settled {m : ℕ → Procedure σ ε ω α} {f : ℕ → α → Procedure σ ε ω β}
    (hm : Ends d tame s m)
    (hf : d.inv s → ∀ ran a, Settles m s ran → ran.outcome = .ok a →
      Tamed tame (fun fuel => f fuel a) ran.final → Halts (fun fuel => f fuel a) ran.final) :
    Ends d tame s fun fuel => m fuel >>= f fuel := by
  intro hinv htamed
  have hfirst : Tamed tame m s := by
    filter_upwards [htamed] with fuel hevents event hmem
    exact hevents event ((trace_isPrefix_bind _ _ s).subset hmem)
  rcases hm hinv hfirst with ⟨ran, hsettles, hends⟩
  by_cases hvalue : ∃ a, ran.outcome = .ok a
  · rcases hvalue with ⟨a, ha⟩
    have hnext : Tamed tame (fun fuel => f fuel a) ran.final := by
      filter_upwards [htamed, hsettles] with fuel hevents hfuel event hmem
      apply hevents event
      rw [bind_ok (by rw [hfuel, ha] : (m fuel s).outcome = .ok a), hfuel]
      exact List.mem_append_right _ hmem
    rcases hf hinv ran a hsettles ha hnext with ⟨ran', hsettles', hends'⟩
    exact ⟨_, hsettles.bind ha hsettles', hends'⟩
  · -- the family fails, so it fails in the same way for all large amounts of fuel
    rcases hsettles.exists with ⟨some, hsome⟩
    refine ⟨(m some >>= f some) s, ?_, ?_⟩
    · filter_upwards [hsettles] with fuel hfuel
      exact bind_failed_eq (hfuel.trans hsome.symm) fun a ha => hvalue ⟨a, hsome ▸ ha⟩
    · rw [ne_eq, (bind_ends fun a ha => hvalue ⟨a, hsome ▸ ha⟩).2, hsome]
      exact hends

theorem Ends.bind {m : ℕ → Procedure σ ε ω α} {f : ℕ → α → Procedure σ ε ω β}
    {mid : α → σ → Prop} (hm : Ends d tame s m) (hsound : ∀ fuel, Sound d s (m fuel) mid)
    (hf : ∀ a s', d.inv s' → d.le s s' → d.level s' = d.level s → mid a s' →
      Ends d tame s' fun fuel => f fuel a) :
    Ends d tame s fun fuel => m fuel >>= f fuel := by
  apply hm.bind_settled
  intro hinv ran a hsettles ha htamed
  rcases hsettles.exists with ⟨some, hsome⟩
  have hran := hsound some hinv
  rw [hsome] at hran
  exact hf a ran.final hran.inv hran.le hran.level (hran.value a ha) hran.inv htamed

theorem Ends.bind_yields {m : ℕ → Procedure σ ε ω α} {f : ℕ → α → Procedure σ ε ω β} {a : α}
    (hm : Yields m s a s) (hf : Ends d tame s fun fuel => f fuel a) :
    Ends d tame s fun fuel => m fuel >>= f fuel := by
  apply (Ends.of_yields hm).bind_settled
  intro hinv ran b hsettles hb htamed
  rcases hm with ⟨trace, hm⟩
  rcases (hsettles.and hm).exists with ⟨fuel, hfuel, hfuel'⟩
  obtain rfl : ran = ⟨.ok a, s, trace⟩ := hfuel.symm.trans hfuel'
  cases hb
  exact hf hinv htamed

theorem Ends.bind_const {m : ℕ → Procedure σ ε ω α} {f : α → Procedure σ ε ω β}
    (hm : Ends d tame s m) (hf : ∀ a s', (f a s').outcome ≠ .timeout) :
    Ends d tame s fun fuel => m fuel >>= f := by
  apply hm.bind_settled
  intro _ ran a _ _ _
  exact ⟨_, Settles.const (f a) ran.final, hf a ran.final⟩

theorem Ends.emit {event : ω} {m : ℕ → Procedure σ ε ω α}
    (hm : tame event → Ends d tame s m) :
    Ends d tame s fun fuel => Procedure.emit event >>= fun _ => m fuel := by
  intro hinv htamed
  have hevent : tame event := by
    rcases htamed.exists with ⟨fuel, hevents⟩
    exact hevents event ((trace_isPrefix_bind _ _ s).subset (List.mem_singleton_self event))
  exact Ends.bind_yields Yields.emit (hm hevent) hinv htamed

theorem Ends.mapError {m : ℕ → Procedure σ ε ω α} (f : ε → ε) (hm : Ends d tame s m) :
    Ends d tame s fun fuel => mapError f (m fuel) := by
  intro hinv htamed
  have hfirst : Tamed tame m s := by simpa [Tamed] using htamed
  rcases hm hinv hfirst with ⟨ran, hsettles, hends⟩
  rcases hsettles.exists with ⟨some, hsome⟩
  refine ⟨Procedure.mapError f (m some) s, ?_, by simpa [hsome] using hends⟩
  filter_upwards [hsettles] with fuel hfuel
  simp only [Procedure.mapError, hfuel, hsome]

theorem Ends.within {m : ℕ → Procedure σ ε ω α} {enter : σ → σ} {leave : σ → σ → σ}
    (henter : d.inv s → d.inv (enter s)) (hm : Ends d tame (enter s) m) :
    Ends d tame s fun fuel => within enter leave (m fuel) := by
  intro hinv htamed
  rcases hm (henter hinv) htamed with ⟨ran, hsettles, hends⟩
  refine ⟨⟨ran.outcome, leave s ran.final, ran.trace⟩, ?_, hends⟩
  filter_upwards [hsettles] with fuel hfuel
  simp only [Procedure.within, hfuel]

theorem Ends.collect {f : ℕ → α → Procedure σ ε ω β} (list : List α)
    (hsound : ∀ a ∈ list, ∀ s', d.inv s' → d.le s s' →
      ∀ fuel, Sound d s' (f fuel a) fun _ _ => True)
    (hf : ∀ a ∈ list, ∀ s', d.inv s' → d.le s s' → d.level s' = d.level s →
      Ends d tame s' fun fuel => f fuel a) :
    Ends d tame s fun fuel => collect (f fuel) list := by
  induction list generalizing s with
  | nil => exact Ends.of_yields Yields.pure
  | cons a rest ih =>
      intro hinv
      have hhead := List.mem_cons_self (a := a) (l := rest)
      refine Ends.bind (hf a hhead s hinv (d.refl s) rfl)
        (hsound a hhead s hinv (d.refl s)) ?_ hinv
      intro b s' hinv' hle hlevel _
      apply Ends.bind_const
      · apply ih
        · intro a' hmem s'' hinv'' hle'
          exact hsound a' (List.mem_cons_of_mem a hmem) s'' hinv'' (d.trans _ _ _ hle hle')
        · intro a' hmem s'' hinv'' hle' hlevel'
          exact hf a' (List.mem_cons_of_mem a hmem) s'' hinv'' (d.trans _ _ _ hle hle')
            (hlevel'.trans hlevel)
      · simp [Pure.pure]

end Ends

/-! ## More fuel -/

/-- Whatever the state, the second procedure does the same as the first one,
unless the first one gives up; then it goes on. -/
def Extends (m n : Procedure σ ε ω α) : Prop :=
  ∀ s, n s = m s ∨ (m s).outcome = .timeout ∧ (m s).trace <+: (n s).trace

theorem Extends.refl (m : Procedure σ ε ω α) : Extends m m := fun _ => .inl rfl

theorem Extends.outOfFuel (n : Procedure σ ε ω α) : Extends outOfFuel n :=
  fun _ => .inr ⟨rfl, List.nil_prefix⟩

theorem Extends.bind {m n : Procedure σ ε ω α} {f g : α → Procedure σ ε ω β}
    (hm : Extends m n) (hf : ∀ a, Extends (f a) (g a)) : Extends (m >>= f) (n >>= g) := by
  intro s
  rcases hm s with hsame | ⟨htimeout, hprefix⟩
  · by_cases hvalue : ∃ a, (m s).outcome = .ok a
    · rcases hvalue with ⟨a, ha⟩
      rw [bind_ok ha, bind_ok (by rw [hsame, ha] : (n s).outcome = .ok a), hsame]
      rcases hf a (m s).final with hrest | ⟨htimeout, hprefix⟩
      · exact .inl (by rw [hrest])
      · exact .inr ⟨htimeout, List.prefix_append_right_inj _ |>.mpr hprefix⟩
    · exact .inl (bind_failed_eq hsame fun a ha => hvalue ⟨a, ha⟩)
  · have hfailed : ∀ a, (m s).outcome ≠ .ok a := by simp [htimeout]
    refine .inr ⟨(bind_ends hfailed).2.mpr htimeout, ?_⟩
    rw [(bind_failed hfailed).2.1]
    exact hprefix.trans (trace_isPrefix_bind n g s)

theorem Extends.mapError {m n : Procedure σ ε ω α} (f : ε → ε) (hm : Extends m n) :
    Extends (mapError f m) (mapError f n) := by
  intro s
  rcases hm s with hsame | ⟨htimeout, hprefix⟩
  · exact .inl (by simp only [Procedure.mapError, hsame])
  · exact .inr ⟨by simpa using htimeout, by simpa using hprefix⟩

theorem Extends.within {m n : Procedure σ ε ω α} {enter : σ → σ} {leave : σ → σ → σ}
    (hm : Extends m n) : Extends (within enter leave m) (within enter leave n) := by
  intro s
  rcases hm (enter s) with hsame | hgoes
  · exact .inl (by simp only [Procedure.within, hsame])
  · exact .inr hgoes

theorem congruence_extends : Congruence (@Extends σ ε ω) where
  refl := Extends.refl
  bind := Extends.bind
  mapError := Extends.mapError
  within := Extends.within

end Procedure
end Di
