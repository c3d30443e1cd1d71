import CryptoBook.Runs
import Mathlib.Algebra.Order.Monoid.Defs

/-! # Costs and answers along a run

Every move of a machine has a cost and an answer in the state it is made in.

What a run costs in total is bounded by a potential of the states: if no move costs more than
the potential it uses up, then the run does not cost more than the potential that is gone at
its end (`Guarded.total_add_le`).

Two states between which the next move makes no difference, neither in its answer nor in the
state after it, cannot be told apart by any run that starts with it (`answers_cons_congr`). -/
namespace Runs

section Costs
variable {σ μ K : Type} (step : σ → μ → σ)

/-- What the moves of a run cost together. -/
def total [Zero K] [Add K] (cost : σ → μ → K) : σ → List μ → K
  | _, [] => 0
  | s, m :: ms => cost s m + total cost (step s m) ms

/-- What the machine answers to the moves of a run. -/
def answers {α : Type} (answer : σ → μ → α) : σ → List μ → List α
  | _, [] => []
  | s, m :: ms => answer s m :: answers answer (step s m) ms

variable {step} {s s' : σ} {m : μ}

/-- Two states that the first move does not tell apart answer the same from there on. -/
theorem answers_cons_congr {α : Type} {answer : σ → μ → α} (hanswer : answer s m = answer s' m)
    (hstep : step s m = step s' m) (ms : List μ) :
    answers step answer s (m :: ms) = answers step answer s' (m :: ms) := by
  rw [answers, answers, hanswer, hstep]

/-- A condition on the moves alone can be added to the guard. -/
theorem Guarded.and_forall {guard : σ → μ → Prop} {P : μ → Prop} {ms : List μ}
    (hg : Guarded step guard s ms) (h : ∀ m ∈ ms, P m) :
    Guarded step (fun s m => guard s m ∧ P m) s ms := by
  induction ms generalizing s with
  | nil => trivial
  | cons m ms ih =>
    obtain ⟨hm, hrest⟩ := hg
    obtain ⟨hPm, hPrest⟩ := List.forall_mem_cons.mp h
    exact ⟨⟨hm, hPm⟩, ih hrest hPrest⟩

/-- **The potential rule.**  If every admissible move is paid for by the potential it uses
up, then so is every run of admissible moves. -/
theorem Guarded.total_add_le [AddCommMonoid K] [PartialOrder K] [IsOrderedAddMonoid K]
    {guard : σ → μ → Prop} {I : σ → Prop} {cost : σ → μ → K} (potential : σ → K)
    (hstep : ∀ s m, I s → guard s m → I (step s m))
    (hpaid : ∀ s m, I s → guard s m → cost s m + potential (step s m) ≤ potential s)
    {ms : List μ} (hg : Guarded step guard s ms) (h₀ : I s) :
    total step cost s ms + potential (run step s ms) ≤ potential s := by
  induction ms generalizing s with
  | nil => rw [total, zero_add]; exact le_rfl
  | cons m ms ih =>
    obtain ⟨hm, hrest⟩ := hg
    calc total step cost s (m :: ms) + potential (run step s (m :: ms))
        = cost s m + (total step cost (step s m) ms + potential (run step (step s m) ms)) :=
          add_assoc ..
      _ ≤ cost s m + potential (step s m) := by
          gcongr
          exact ih hrest (hstep s m h₀ hm)
      _ ≤ potential s := hpaid s m h₀ hm

end Costs

end Runs
