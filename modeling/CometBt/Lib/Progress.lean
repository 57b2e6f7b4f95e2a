import CometBt.Lib.Runs

/-!
# What happens whatever comes next

A system in states `σ` takes events `ι`, of which some are enabled in a state. `Until P G s` says of
the runs from `s` that take enabled events only: none is stopped, none gets stuck, and each comes to
a state where `G` holds, with `P` in the states before it.

* **`Until.of_rank`**: an invariant with a rank, under which some event is enabled and each leads to
  `G`, or to a smaller rank.
* `run_or_stops`: steps that keep an invariant or stop the system in a way that is expected.
-/

namespace CometBt.Lib

variable {σ ι ε : Type} {step : σ → ι → Except ε σ} {enabled : σ → ι → Prop} {P G : σ → Prop}

/-- `P` holds until `G` does, and it does, whatever enabled events come next. -/
inductive Until (step : σ → ι → Except ε σ) (enabled : σ → ι → Prop) (P G : σ → Prop) : σ → Prop
  | now {s : σ} : G s → Until step enabled P G s
  | next {s : σ} : P s → (∃ e, enabled s e) → (∀ e, enabled s e → ∃ s', step s e = .ok s') →
      (∀ e s', enabled s e → step s e = .ok s' → Until step enabled P G s') →
      Until step enabled P G s

/-- **An invariant with a rank, under which each enabled event leads to `G` or to a smaller rank**,
and some event is enabled. -/
theorem Until.of_rank {I : Nat → σ → Prop} (hP : ∀ n s, I n s → P s)
    (henabled : ∀ n s, I n s → ∃ e, enabled s e)
    (hstep : ∀ n s e, I n s → enabled s e → ∃ s', step s e = .ok s' ∧ (G s' ∨ ∃ m < n, I m s'))
    {n : Nat} {s : σ} (h : I n s) : Until step enabled P G s := by
  induction n using Nat.strongRecOn generalizing s with
  | _ n ih =>
    refine .next (hP n s h) (henabled n s h)
      (fun e he => (hstep n s e h he).imp fun _ hs => hs.1) fun e t he ht => ?_
    obtain ⟨s', hs', hcase⟩ := hstep n s e h he
    obtain rfl := Except.ok.inj (ht.symm.trans hs')
    rcases hcase with hG | ⟨m, hlt, hI⟩
    · exact .now hG
    · exact ih m hlt hI

/-- **Steps that meet a condition and do not stop the system otherwise than with `E`**: a run of
them goes through with the invariant, or has stopped so. -/
theorem run_or_stops {C : σ → ι → Prop} {I : σ → Prop} {E : ε → Prop}
    (hstep : ∀ s e, I s → C s e → (∃ s', step s e = .ok s' ∧ I s') ∨ ∃ x, step s e = .error x ∧ E x)
    {s : σ} {es : List ι} (h : I s) (hC : Along step C s es) :
    (∃ s', runFrom step s es = .ok s' ∧ I s') ∨ ∃ x, runFrom step s es = .error x ∧ E x := by
  induction es generalizing s with
  | nil => exact .inl ⟨s, rfl, h⟩
  | cons e es ih =>
    rcases hstep s e h hC.1 with ⟨t, ht, hI⟩ | ⟨x, hx, hE⟩
    · rcases ih hI (hC.2 t ht) with ⟨s', hrun, hI'⟩ | ⟨x, hx, hE⟩
      · exact .inl ⟨s', runFrom_cons.mpr ⟨t, ht, hrun⟩, hI'⟩
      · refine .inr ⟨x, ?_, hE⟩
        unfold runFrom
        rw [ht]
        exact hx
    · refine .inr ⟨x, ?_, hE⟩
      unfold runFrom
      rw [hx]
      rfl

end CometBt.Lib
