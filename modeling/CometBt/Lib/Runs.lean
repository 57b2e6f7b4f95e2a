import Mathlib.Data.List.Basic

/-!
# Runs of a system whose steps may stop it

A system in states `σ` takes events `ι`; a step gives the next state or stops the system with an
`ε`. `runFrom step s es` is the state after the events `es`. `Along step P s es` says that `P` holds
of every state of that run and the event that comes next there, so it is a condition on the run
that only looks at states before a step.

* `run_invariant`: what the steps that meet a condition preserve holds at the end of every run
  along which the condition is met.
* `run_returns`: steps that meet a condition and do not stop the system make up a run that does not.
* `always_iff`: where a condition on the steps is exact, it is met along exactly the runs in all of
  whose states the property holds.
* `along_always_iff`: where it is exact for what a step is to do, it is met along exactly the runs
  whose steps do that.
* `run_iff`, `Along.mono`: a condition that is exact for what holds after a step is exact for what
  holds at the end; one that follows from another follows along a run.
* `Reachable.invariant`: what every step preserves holds in every reachable state.
* `run_simulates`: a forward simulation step by step is one run by run.
* `run_agrees_iff`: where a condition is exact for two systems to do the same in a step, it is met
  along exactly the runs throughout which they do.
* `run_returns_iff`, `run_related`: a system that stops exactly where a condition on another is not
  met, and does what the other does elsewhere.
* `run_error`: a run that stops is stopped by a step.
* `runFrom_behind`, `runFrom_stopped`: a run that goes on, and one that has been stopped.
* `tally`, `run_tally`: what the steps add up to. `along_of_tally`: a condition that is met while
  they add up to no more than a bound.
* `bind_eq_ok`: what a sequence of steps that does not stop has done.
-/

namespace CometBt.Lib

theorem ok_bind {ε α β : Type} (a : α) (f : α → Except ε β) : (Except.ok a >>= f) = f a := rfl

theorem error_bind {ε α β : Type} (e : ε) (f : α → Except ε β) :
    (Except.error e >>= f) = .error e := rfl

theorem throw_eq {ε α : Type} (e : ε) : (throw e : Except ε α) = .error e := rfl

theorem bind_eq_ok {ε α β : Type} {x : Except ε α} {f : α → Except ε β} {b : β} :
    (x >>= f) = .ok b ↔ ∃ a, x = .ok a ∧ f a = .ok b := by
  cases x with
  | error e => simp [bind, Except.bind]
  | ok a => simp [bind, Except.bind]

theorem bind_eq_error {ε α β : Type} {x : Except ε α} {f : α → Except ε β} {e : ε} :
    (x >>= f) = .error e ↔ x = .error e ∨ ∃ a, x = .ok a ∧ f a = .error e := by
  cases x with
  | error e' => simp [bind, Except.bind]
  | ok a => simp [bind, Except.bind]

theorem mapError_eq_ok {ε ε' α : Type} {x : Except ε α} {f : ε → ε'} {a : α} :
    x.mapError f = .ok a ↔ x = .ok a := by
  cases x with
  | error e => simp [Except.mapError]
  | ok b => simp [Except.mapError]

theorem mapError_eq_error {ε ε' α : Type} {x : Except ε α} {f : ε → ε'} {e : ε'} :
    x.mapError f = .error e ↔ ∃ a, x = .error a ∧ f a = e := by
  cases x with
  | error a => simp [Except.mapError]
  | ok b => simp [Except.mapError]

variable {σ ι ε : Type} (step : σ → ι → Except ε σ)

/-- The state after the events `es`. -/
def runFrom : σ → List ι → Except ε σ
  | s, [] => .ok s
  | s, e :: es => do
    let s ← step s e
    runFrom s es

/-- `P` holds at every step of the run. -/
def Along (P : σ → ι → Prop) : σ → List ι → Prop
  | _, [] => True
  | s, e :: es => P s e ∧ ∀ s', step s e = .ok s' → Along P s' es

variable {step}

theorem runFrom_cons {s s' : σ} {e : ι} {es : List ι} :
    runFrom step s (e :: es) = .ok s' ↔ ∃ t, step s e = .ok t ∧ runFrom step t es = .ok s' :=
  bind_eq_ok

/-- **What every step preserves that meets the condition holds along every run that meets it.** -/
theorem run_invariant {P : σ → ι → Prop} {I : σ → Prop}
    (hstep : ∀ s e s', I s → P s e → step s e = .ok s' → I s') {s s' : σ} {es : List ι}
    (h : I s) (hP : Along step P s es) (hrun : runFrom step s es = .ok s') : I s' := by
  induction es generalizing s with
  | nil =>
    obtain rfl := Except.ok.inj hrun
    exact h
  | cons e es ih =>
    obtain ⟨t, ht, hrest⟩ := runFrom_cons.mp hrun
    exact ih (hstep s e t h hP.1 ht) (hP.2 t ht) hrest

/-- **Steps that meet the condition, and do not stop the system**, do not along any run. -/
theorem run_returns {P : σ → ι → Prop} {I : σ → Prop}
    (hstep : ∀ s e, I s → P s e → ∃ s', step s e = .ok s' ∧ I s') {s : σ} {es : List ι}
    (h : I s) (hP : Along step P s es) : ∃ s', runFrom step s es = .ok s' ∧ I s' := by
  induction es generalizing s with
  | nil => exact ⟨s, rfl, h⟩
  | cons e es ih =>
    obtain ⟨t, ht, hI⟩ := hstep s e h hP.1
    obtain ⟨s', hrun, hI'⟩ := ih hI (hP.2 t ht)
    exact ⟨s', runFrom_cons.mpr ⟨t, ht, hrun⟩, hI'⟩

variable (step) in
/-- `I` holds in every state of the run. -/
def Always (I : σ → Prop) (s : σ) (es : List ι) : Prop :=
  ∀ pre t, pre <+: es → runFrom step s pre = .ok t → I t

/-- **An exact condition on the steps is exact on the runs.** -/
theorem always_iff {I J : σ → Prop} {P : σ → ι → Prop}
    (hJ : ∀ s e s', J s → step s e = .ok s' → J s')
    (hstep : ∀ s e s', J s → I s → step s e = .ok s' → (I s' ↔ P s e)) {s s' : σ} {es : List ι}
    (hj : J s) (h : I s) (hrun : runFrom step s es = .ok s') :
    Always step I s es ↔ Along step P s es := by
  induction es generalizing s with
  | nil =>
    refine iff_of_true (fun pre t hpre ht => ?_) trivial
    obtain rfl := List.prefix_nil.mp hpre
    obtain rfl := Except.ok.inj ht
    exact h
  | cons e es ih =>
    obtain ⟨t, ht, hrest⟩ := runFrom_cons.mp hrun
    have hexact := hstep s e t hj h ht
    constructor
    · intro hall
      have hI : I t := hall [e] t ⟨es, rfl⟩ (runFrom_cons.mpr ⟨t, ht, rfl⟩)
      refine ⟨hexact.mp hI, fun t' ht' => ?_⟩
      obtain rfl := Except.ok.inj (ht.symm.trans ht')
      refine (ih (hJ s e t hj ht) hI hrest).mp fun pre u hpre hu => ?_
      exact hall (e :: pre) u (List.cons_prefix_cons.mpr ⟨rfl, hpre⟩) (runFrom_cons.mpr ⟨t, ht, hu⟩)
    · rintro ⟨hP, halong⟩ pre u hpre hu
      have hI := hexact.mpr hP
      cases pre with
      | nil =>
        obtain rfl := Except.ok.inj hu
        exact h
      | cons e' pre =>
        obtain ⟨rfl, hpre'⟩ := List.cons_prefix_cons.mp hpre
        obtain ⟨t', ht', hu'⟩ := runFrom_cons.mp hu
        obtain rfl := Except.ok.inj (ht.symm.trans ht')
        exact (ih (hJ s e' t hj ht) hI hrest).mpr (halong t ht) pre u hpre' hu'

/-- **A condition that is exact where `I` holds, and keeps it**, says of a run that its steps are as
they should be and that `I` holds throughout. -/
theorem along_always_iff {I : σ → Prop} {C P : σ → ι → Prop}
    (hexact : ∀ s e, I s → (C s e ↔ P s e))
    (hstep : ∀ s e s', I s → P s e → step s e = .ok s' → I s') {s : σ} {es : List ι} (h : I s) :
    Along step C s es ∧ Always step I s es ↔ Along step P s es := by
  constructor
  · rintro ⟨hC, -⟩
    induction es generalizing s with
    | nil => trivial
    | cons e es ih =>
      have hP := (hexact s e h).mp hC.1
      exact ⟨hP, fun t ht => ih (hstep s e t h hP ht) (hC.2 t ht)⟩
  · intro hP
    induction es generalizing s with
    | nil =>
      refine ⟨trivial, fun pre t hpre ht => ?_⟩
      obtain rfl := List.prefix_nil.mp hpre
      obtain rfl := Except.ok.inj ht
      exact h
    | cons e es ih =>
      have hrest := fun t ht => ih (hstep s e t h hP.1 ht) (hP.2 t ht)
      refine ⟨⟨(hexact s e h).mpr hP.1, fun t ht => (hrest t ht).1⟩, fun pre u hpre hu => ?_⟩
      cases pre with
      | nil =>
        obtain rfl := Except.ok.inj hu
        exact h
      | cons e' pre =>
        obtain ⟨rfl, hpre'⟩ := List.cons_prefix_cons.mp hpre
        obtain ⟨t, ht, hu'⟩ := runFrom_cons.mp hu
        exact (hrest t ht).2 pre u hpre' hu'

/-- **What holds at the end exactly if it held before and the step met the condition**: along a run,
exactly if it held at the start and all steps did. -/
theorem run_iff {I J : σ → Prop} {P : σ → ι → Prop}
    (hJ : ∀ s e s', J s → step s e = .ok s' → J s')
    (hstep : ∀ s e s', J s → step s e = .ok s' → (I s' ↔ I s ∧ P s e)) {s s' : σ} {es : List ι}
    (hj : J s) (hrun : runFrom step s es = .ok s') : I s' ↔ I s ∧ Along step P s es := by
  induction es generalizing s with
  | nil =>
    obtain rfl := Except.ok.inj hrun
    exact (and_iff_left trivial).symm
  | cons e es ih =>
    obtain ⟨t, ht, hrest⟩ := runFrom_cons.mp hrun
    rw [ih (hJ s e t hj ht) hrest, hstep s e t hj ht, and_assoc]
    refine and_congr_right fun _ => and_congr_right fun _ => ⟨fun h t' ht' => ?_, fun h => h t ht⟩
    obtain rfl := Except.ok.inj (ht.symm.trans ht')
    exact h

/-- A condition that follows from another where `J` holds, which the steps that meet it keep. -/
theorem Along.mono {J : σ → Prop} {P Q : σ → ι → Prop}
    (hJ : ∀ s e s', J s → P s e → step s e = .ok s' → J s') (hPQ : ∀ s e, J s → P s e → Q s e)
    {s : σ} {es : List ι} (hj : J s) (h : Along step P s es) : Along step Q s es := by
  induction es generalizing s with
  | nil => trivial
  | cons e es ih => exact ⟨hPQ s e hj h.1, fun t ht => ih (hJ s e t hj h.1 ht) (h.2 t ht)⟩

/-- A run that goes on. -/
theorem runFrom_behind {s s' : σ} {es : List ι} (h : runFrom step s es = .ok s') (fs : List ι) :
    runFrom step s (es ++ fs) = runFrom step s' fs := by
  induction es generalizing s with
  | nil =>
    obtain rfl := Except.ok.inj h
    rfl
  | cons e es ih =>
    obtain ⟨t, ht, hrest⟩ := runFrom_cons.mp h
    show (step s e >>= _) = _
    rw [ht, ok_bind]
    exact ih hrest

/-- A run that has been stopped. -/
theorem runFrom_stopped {s : σ} {err : ε} {es : List ι} (h : runFrom step s es = .error err)
    (fs : List ι) : runFrom step s (es ++ fs) = .error err := by
  induction es generalizing s with
  | nil => exact absurd h (by simp [runFrom])
  | cons e es ih =>
    rcases bind_eq_error.mp h with he | ⟨t, ht, hrest⟩
    · exact bind_eq_error.mpr (.inl he)
    · exact bind_eq_error.mpr (.inr ⟨t, ht, ih hrest⟩)

theorem runFrom_append {s s' s'' : σ} {es fs : List ι} (h : runFrom step s es = .ok s')
    (h' : runFrom step s' fs = .ok s'') : runFrom step s (es ++ fs) = .ok s'' :=
  (runFrom_behind h fs).trans h'

theorem runFrom_single (s : σ) (e : ι) : runFrom step s [e] = step s e := by
  unfold runFrom runFrom
  cases step s e with
  | error err => rfl
  | ok t => rfl

/-- Events that are of a kind. -/
theorem runFrom_map {κ : Type} (f : κ → ι) (s : σ) (xs : List κ) :
    runFrom step s (xs.map f) = runFrom (fun s x => step s (f x)) s xs := by
  induction xs generalizing s with
  | nil => rfl
  | cons x xs ih => exact congrArg (step s (f x) >>= ·) (funext ih)

theorem runFrom_concat {s s' s'' : σ} {e : ι} {es : List ι} (h : runFrom step s es = .ok s')
    (he : step s' e = .ok s'') : runFrom step s (es ++ [e]) = .ok s'' :=
  runFrom_append h (runFrom_cons.mpr ⟨s'', he, rfl⟩)

variable (step) in
/-- There is a run from `s` to `s'`. -/
def Reachable (s s' : σ) : Prop := ∃ es, runFrom step s es = .ok s'

theorem Reachable.refl (s : σ) : Reachable step s s := ⟨[], rfl⟩

theorem Reachable.tail {s s' s'' : σ} {e : ι} (h : Reachable step s s')
    (he : step s' e = .ok s'') : Reachable step s s'' := by
  obtain ⟨es, hrun⟩ := h
  exact ⟨es ++ [e], runFrom_concat hrun he⟩

/-- Every run meets the condition that asks nothing. -/
theorem along_true : ∀ (s : σ) (es : List ι), Along step (fun _ _ => True) s es
  | _, [] => trivial
  | _, _ :: es => ⟨trivial, fun s' _ => along_true s' es⟩

/-- **What every step preserves holds in every reachable state.** -/
theorem Reachable.invariant {I : σ → Prop} {s s' : σ} (h : Reachable step s s')
    (hstep : ∀ s e s', I s → step s e = .ok s' → I s') (hs : I s) : I s' := by
  obtain ⟨es, hrun⟩ := h
  exact run_invariant (fun s e s' hs _ he => hstep s e s' hs he) hs (along_true s es) hrun

theorem along_cons {P : σ → ι → Prop} {s t : σ} {e : ι} {es : List ι} (ht : step s e = .ok t) :
    Along step P s (e :: es) ↔ P s e ∧ Along step P t es := by
  refine and_congr_right fun _ => ⟨fun h => h t ht, fun h s' hs' => ?_⟩
  obtain rfl := Except.ok.inj (ht.symm.trans hs')
  exact h

/-- A condition that can be evaluated in every state can be evaluated along a run. -/
instance decidableAlong {P : σ → ι → Prop} [∀ s e, Decidable (P s e)] :
    ∀ (s : σ) (es : List ι), Decidable (Along step P s es)
  | _, [] => .isTrue trivial
  | s, e :: es =>
    match h : step s e with
    | .error _ => decidable_of_iff (P s e)
        ⟨fun hP => ⟨hP, fun _ hs' => absurd (h.symm.trans hs') (by simp)⟩, And.left⟩
    | .ok t =>
      have : Decidable (Along step P t es) := decidableAlong t es
      decidable_of_iff (P s e ∧ Along step P t es) (along_cons h).symm

/-- A condition along a run that goes on. -/
theorem along_append {P : σ → ι → Prop} {s : σ} {es fs : List ι} :
    Along step P s (es ++ fs) ↔
      Along step P s es ∧ ∀ s', runFrom step s es = .ok s' → Along step P s' fs := by
  induction es generalizing s with
  | nil =>
    constructor
    · intro h
      refine ⟨trivial, fun s' hs' => ?_⟩
      obtain rfl := Except.ok.inj hs'
      exact h
    · rintro ⟨-, h⟩
      exact h s rfl
  | cons e es ih =>
    constructor
    · rintro ⟨he, hrest⟩
      refine ⟨⟨he, fun t ht => (ih.mp (hrest t ht)).1⟩, fun s' hs' => ?_⟩
      obtain ⟨t, ht, hrun⟩ := runFrom_cons.mp hs'
      exact (ih.mp (hrest t ht)).2 s' hrun
    · rintro ⟨⟨he, hes⟩, hfs⟩
      refine ⟨he, fun t ht => ih.mpr ⟨hes t ht, fun s' hs' => ?_⟩⟩
      exact hfs s' (runFrom_cons.mpr ⟨t, ht, hs'⟩)

/-- **A system whose steps are steps of another has runs that are runs of the other**, along which
what the conditions say of the one holds of the other. -/
theorem run_simulates {τ κ : Type} {step' : τ → κ → Except ε τ} {P : σ → ι → Prop}
    {Q : τ → κ → Prop} {R : σ → τ → Prop} (f : ι → κ)
    (hstep : ∀ s e s' t, R s t → P s e → step s e = .ok s' →
      Q t (f e) ∧ ∃ t', step' t (f e) = .ok t' ∧ R s' t')
    {s s' : σ} {t : τ} {es : List ι} (h : R s t) (hP : Along step P s es)
    (hrun : runFrom step s es = .ok s') :
    Along step' Q t (es.map f) ∧ ∃ t', runFrom step' t (es.map f) = .ok t' ∧ R s' t' := by
  induction es generalizing s t with
  | nil =>
    obtain rfl := Except.ok.inj hrun
    exact ⟨trivial, t, rfl, h⟩
  | cons e es ih =>
    obtain ⟨s₁, hs₁, hrest⟩ := runFrom_cons.mp hrun
    obtain ⟨hq, t₁, ht₁, h₁⟩ := hstep s e s₁ t h hP.1 hs₁
    obtain ⟨hqs, t', ht', h'⟩ := ih h₁ (hP.2 s₁ hs₁) hrest
    refine ⟨⟨hq, fun t₂ ht₂ => ?_⟩, t', runFrom_cons.mpr ⟨t₁, ht₁, ht'⟩, h'⟩
    obtain rfl := Except.ok.inj (ht₁.symm.trans ht₂)
    exact hqs

/-- **Two systems show the same after every part of a run exactly if the condition is met** on which
they do in a step. The second is to return. -/
theorem run_agrees_iff {τ : Type} {step' : τ → ι → Except ε τ} {f : σ → τ} {I : σ → Prop}
    {P : τ → ι → Prop}
    (hexact : ∀ s e t, I s → step' (f s) e = .ok t → ((step s e).map f = .ok t ↔ P (f s) e))
    (hI : ∀ s e s', I s → step s e = .ok s' → I s') {s : σ} {t : τ} {es : List ι} (h : I s)
    (hrun : runFrom step' (f s) es = .ok t) :
    (∀ pre, pre <+: es → (runFrom step s pre).map f = runFrom step' (f s) pre) ↔
      Along step' P (f s) es := by
  induction es generalizing s with
  | nil =>
    refine iff_of_true (fun pre hpre => ?_) trivial
    obtain rfl := List.prefix_nil.mp hpre
    rfl
  | cons e es ih =>
    obtain ⟨u, hu, hrest⟩ := runFrom_cons.mp hrun
    have hsame := hexact s e u h hu
    constructor
    · intro hall
      have hone := hall [e] ⟨es, rfl⟩
      have hmap : (step s e).map f = .ok u := by
        cases hs : step s e with
        | error err => simp [runFrom, hs, hu, bind, Except.bind, Except.map] at hone
        | ok s' => simpa [runFrom, hs, hu, bind, Except.bind, Except.map] using hone
      refine ⟨hsame.mp hmap, fun u' hu' => ?_⟩
      obtain rfl := Except.ok.inj (hu.symm.trans hu')
      cases hs : step s e with
      | error err => simp [hs, Except.map] at hmap
      | ok s' =>
        obtain rfl : f s' = u := by simpa [hs, Except.map] using hmap
        refine (ih (hI s e s' h hs) hrest).mp fun pre hpre => ?_
        have hcons := hall (e :: pre) (List.cons_prefix_cons.mpr ⟨rfl, hpre⟩)
        simpa [runFrom, hs, hu, bind, Except.bind] using hcons
    · rintro ⟨hP, halong⟩ pre hpre
      cases pre with
      | nil => rfl
      | cons e' pre =>
        obtain ⟨rfl, hpre'⟩ := List.cons_prefix_cons.mp hpre
        have hmap := hsame.mpr hP
        cases hs : step s e' with
        | error err => simp [hs, Except.map] at hmap
        | ok s' =>
          obtain rfl : f s' = u := by simpa [hs, Except.map] using hmap
          have htail := (ih (hI s e' s' h hs) hrest).mpr (halong _ hu) pre hpre'
          simpa [runFrom, hs, hu, bind, Except.bind] using htail

/-- **A system that does what another does in the steps that meet the condition, and stops in the
others**, returns from exactly the runs of the other along which it is met. -/
theorem run_returns_iff {τ : Type} {step' : τ → ι → Except ε τ} {R : σ → τ → Prop}
    {P : τ → ι → Prop}
    (hgood : ∀ s t e t', R s t → step' t e = .ok t' → P t e → ∃ s', step s e = .ok s' ∧ R s' t')
    (hback : ∀ s t e s', R s t → step s e = .ok s' → P t e ∧ ∃ t', step' t e = .ok t') {s : σ}
    {t : τ} {es : List ι} (h : R s t) :
    (∃ s', runFrom step s es = .ok s') ↔
      (∃ t', runFrom step' t es = .ok t') ∧ Along step' P t es := by
  induction es generalizing s t with
  | nil => exact iff_of_true ⟨s, rfl⟩ ⟨⟨t, rfl⟩, trivial⟩
  | cons e es ih =>
    constructor
    · rintro ⟨s', hrun⟩
      obtain ⟨s₁, hs₁, hrest⟩ := runFrom_cons.mp hrun
      obtain ⟨hP, t₁, ht₁⟩ := hback s t e s₁ h hs₁
      obtain ⟨s₂, hs₂, h₁⟩ := hgood s t e t₁ h ht₁ hP
      obtain rfl := Except.ok.inj (hs₁.symm.trans hs₂)
      obtain ⟨⟨t', hrun'⟩, halong⟩ := (ih h₁).mp ⟨s', hrest⟩
      exact ⟨⟨t', runFrom_cons.mpr ⟨t₁, ht₁, hrun'⟩⟩, (along_cons ht₁).mpr ⟨hP, halong⟩⟩
    · rintro ⟨⟨t', hrun⟩, halong⟩
      obtain ⟨t₁, ht₁, hrest⟩ := runFrom_cons.mp hrun
      obtain ⟨s₁, hs₁, h₁⟩ := hgood s t e t₁ h ht₁ halong.1
      obtain ⟨s', hrun'⟩ := (ih h₁).mpr ⟨⟨t', hrest⟩, halong.2 t₁ ht₁⟩
      exact ⟨s', runFrom_cons.mpr ⟨s₁, hs₁, hrun'⟩⟩

/-- At the end of a run that returns, the system is related to what the other comes to. -/
theorem run_related {τ : Type} {step' : τ → ι → Except ε τ} {R : σ → τ → Prop}
    {P : τ → ι → Prop}
    (hgood : ∀ s t e t', R s t → step' t e = .ok t' → P t e → ∃ s', step s e = .ok s' ∧ R s' t')
    (hback : ∀ s t e s', R s t → step s e = .ok s' → P t e ∧ ∃ t', step' t e = .ok t') {s s' : σ}
    {t : τ} {es : List ι} (h : R s t) (hrun : runFrom step s es = .ok s') :
    ∃ t', runFrom step' t es = .ok t' ∧ R s' t' := by
  induction es generalizing s t with
  | nil =>
    obtain rfl := Except.ok.inj hrun
    exact ⟨t, rfl, h⟩
  | cons e es ih =>
    obtain ⟨s₁, hs₁, hrest⟩ := runFrom_cons.mp hrun
    obtain ⟨hP, t₁, ht₁⟩ := hback s t e s₁ h hs₁
    obtain ⟨s₂, hs₂, h₁⟩ := hgood s t e t₁ h ht₁ hP
    obtain rfl := Except.ok.inj (hs₁.symm.trans hs₂)
    obtain ⟨t', hrun', h'⟩ := ih h₁ hrest
    exact ⟨t', runFrom_cons.mpr ⟨t₁, ht₁, hrun'⟩, h'⟩

/-- A run that stops is stopped by a step. -/
theorem run_error {I : σ → Prop} (hI : ∀ s e s', I s → step s e = .ok s' → I s') {s : σ}
    {es : List ι} {err : ε} (h : I s) (hrun : runFrom step s es = .error err) :
    ∃ t e, I t ∧ step t e = .error err := by
  induction es generalizing s with
  | nil => exact absurd hrun (by simp [runFrom])
  | cons e es ih =>
    cases hs : step s e with
    | error err' =>
      refine ⟨s, e, h, ?_⟩
      simpa [runFrom, hs, bind, Except.bind] using hrun
    | ok t => exact ih (hI s e t h hs) (by simpa [runFrom, hs, bind, Except.bind] using hrun)

variable (step) in
/-- What the steps of a run add up to, of which each counts `c`. -/
def tally (c : σ → ι → Nat) : σ → List ι → Nat
  | _, [] => 0
  | s, e :: es => c s e + match step s e with
    | .ok s' => tally c s' es
    | .error _ => 0

theorem run_tally {c : σ → ι → Nat} {I : σ → Nat → Prop}
    (hstep : ∀ s e s' k, I s k → step s e = .ok s' → I s' (k + c s e)) {s s' : σ} {k : Nat}
    {es : List ι} (h : I s k) (hrun : runFrom step s es = .ok s') :
    I s' (k + tally step c s es) := by
  induction es generalizing s k with
  | nil =>
    obtain rfl := Except.ok.inj hrun
    exact h
  | cons e es ih =>
    obtain ⟨t, ht, hrest⟩ := runFrom_cons.mp hrun
    have hend := ih (hstep s e t k h ht) hrest
    simpa only [tally, ht, Nat.add_assoc] using hend

/-- **A condition that is met as long as the steps add up to at most `n`** is met along the runs in
which they do. -/
theorem along_of_tally {c : σ → ι → Nat} {P : σ → ι → Prop} {I : σ → Nat → Prop} {n : Nat}
    (hstep : ∀ s e s' k, I s k → step s e = .ok s' → I s' (k + c s e))
    (hP : ∀ s e k, I s k → k + c s e ≤ n → P s e) {s : σ} {k : Nat} {es : List ι} (h : I s k)
    (hle : k + tally step c s es ≤ n) : Along step P s es := by
  induction es generalizing s k with
  | nil => trivial
  | cons e es ih =>
    rw [tally] at hle
    refine ⟨hP s e k h (by omega), fun t ht => ih (hstep s e t k h ht) ?_⟩
    rw [ht] at hle
    simp only at hle
    omega

end CometBt.Lib
