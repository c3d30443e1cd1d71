/-! # Runs and histories

A machine is a step function on states; a run is a list of moves.  Two forms of
statement recur about such machines.

*Invariants.*  A property that every admissible move preserves holds after every run
made of admissible moves (`Guarded.invariant`).  Whether a move is admissible may depend
on the state it is made in, so `Guarded` is a property of the whole run.

*Histories.*  A machine may keep a list of what happened, oldest entry first.  `Always P`
says that every entry satisfied `P` with respect to the entries before it.  It is
maintained by looking at the entry being appended only (`always_concat`). -/
namespace Runs

section Invariants
variable {σ μ : Type} (step : σ → μ → σ)

/-- The state after a list of moves. -/
def run (s : σ) (ms : List μ) : σ := ms.foldl step s

theorem run_append (s : σ) (ms ms' : List μ) :
    run step s (ms ++ ms') = run step (run step s ms) ms' := List.foldl_append ..

/-- Every move of the run meets `guard` in the state it is made in. -/
def Guarded (guard : σ → μ → Prop) : σ → List μ → Prop
  | _, [] => True
  | s, m :: ms => guard s m ∧ Guarded guard (step s m) ms

instance Guarded.decidable (guard : σ → μ → Prop) [∀ s m, Decidable (guard s m)] :
    ∀ (s : σ) (ms : List μ), Decidable (Guarded step guard s ms)
  | _, [] => isTrue trivial
  | s, m :: ms => @instDecidableAnd _ _ _ (Guarded.decidable guard (step s m) ms)

theorem guarded_append {guard : σ → μ → Prop} {s : σ} {ms ms' : List μ} :
    Guarded step guard s (ms ++ ms') ↔
      Guarded step guard s ms ∧ Guarded step guard (run step s ms) ms' := by
  induction ms generalizing s with
  | nil => exact ⟨fun h => ⟨trivial, h⟩, fun h => h.2⟩
  | cons m ms ih =>
    show guard s m ∧ Guarded step guard (step s m) (ms ++ ms') ↔ _
    rw [ih]
    exact and_assoc.symm

variable {step}

/-- **The invariant rule.**  What every admissible move preserves holds after every run
of admissible moves. -/
theorem Guarded.invariant {guard : σ → μ → Prop} {I : σ → Prop}
    (hstep : ∀ s m, I s → guard s m → I (step s m)) {s : σ} {ms : List μ}
    (hg : Guarded step guard s ms) (h₀ : I s) : I (run step s ms) := by
  induction ms generalizing s with
  | nil => exact h₀
  | cons m ms ih =>
    obtain ⟨hm, hrest⟩ := hg
    exact ih hrest (hstep s m h₀ hm)

/-- The rule for a machine all of whose moves are admissible. -/
theorem run_invariant {I : σ → Prop} (hstep : ∀ s m, I s → I (step s m)) {s : σ} (h₀ : I s)
    (ms : List μ) : I (run step s ms) := by
  induction ms generalizing s with
  | nil => exact h₀
  | cons m ms ih => exact ih (hstep s m h₀)

/-- The rule for a relation between the state and what the moves so far have produced. -/
theorem run_traced {ε : Type} (produced : μ → List ε) {R : List ε → σ → Prop}
    (hstep : ∀ h s m, R h s → R (h ++ produced m) (step s m)) {h : List ε} {s : σ} (h₀ : R h s)
    (ms : List μ) : R (h ++ ms.flatMap produced) (run step s ms) := by
  induction ms generalizing h s with
  | nil => rwa [List.flatMap_nil, List.append_nil]
  | cons m ms ih =>
    have htail := ih (hstep h s m h₀)
    rwa [List.append_assoc] at htail

/-- The same for moves that each produce themselves. -/
theorem run_recorded {R : List μ → σ → Prop} (hstep : ∀ h s m, R h s → R (h ++ [m]) (step s m))
    {h : List μ} {s : σ} (h₀ : R h s) (ms : List μ) : R (h ++ ms) (run step s ms) := by
  have htraced := run_traced (fun m => [m]) hstep h₀ ms
  rwa [List.flatMap_singleton'] at htraced

end Invariants

section Histories
variable {ε : Type} {P : List ε → ε → Prop}

/-- Every entry of the history satisfies `P` with respect to the entries before it. -/
def Always (P : List ε → ε → Prop) (h : List ε) : Prop :=
  ∀ pre x post, h = pre ++ x :: post → P pre x

theorem always_nil : Always P [] := by
  intro pre x post he
  exact absurd he.symm (by simp)

theorem Always.of_append {h rest : List ε} (hall : Always P (h ++ rest)) : Always P h := by
  rintro pre x post rfl
  exact hall pre x (post ++ rest) (by simp)

theorem always_concat {h : List ε} {x : ε} : Always P (h ++ [x]) ↔ Always P h ∧ P h x := by
  constructor
  · intro hall
    exact ⟨hall.of_append, hall h x [] rfl⟩
  · rintro ⟨hall, hx⟩ pre y post he
    rcases List.eq_nil_or_concat post with rfl | ⟨post', z, rfl⟩
    · obtain ⟨rfl, hy⟩ := List.append_inj' he rfl
      obtain rfl : x = y := List.head_eq_of_cons_eq hy
      exact hx
    · have he' : h ++ [x] = (pre ++ y :: post') ++ [z] := by simpa using he
      exact hall pre y post' (List.append_inj' he' rfl).1

end Histories

end Runs
