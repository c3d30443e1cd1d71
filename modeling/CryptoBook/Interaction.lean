/-! # Programs that interact with an environment

A program calls its environment and goes on with the answer.  The environment is not
modelled: it may answer anything, so what is proved of a program holds for every
behaviour of what it talks to.  A `while` loop is given a number of rounds after which
nothing more happens; a statement for every number of rounds and every number of observed
calls covers every finite part of every execution (`exec`).

What a program may do is stated over the history of the events its calls emit.  A
`Monitor` says which events a call emits, which answers are admissible, and what must be
true of the history at every moment.  `Monitor.wp` is the weakest precondition under a
monitor: its rules follow the program's structure, and a loop needs an invariant only
(`wp_loop`).  By `wp_exec` the monitored property then holds in every execution. -/
namespace Interaction

section Programs
variable (C : Type) (A : C → Type)

/-- A program over the calls `C` with answers `A`. -/
inductive Prog (α : Type) where
  | ret (a : α)
  | call (c : C) (k : A c → Prog α)
  | stuck

variable {C A} {α β σ : Type}

namespace Prog

/-- Run one program, then another on its result. -/
def andThen : Prog C A α → (α → Prog C A β) → Prog C A β
  | ret a, f => f a
  | call c k, f => call c fun x => (k x).andThen f
  | stuck, _ => stuck

instance : Monad (Prog C A) where
  pure := ret
  bind := andThen

/-- A single call. -/
def perform (c : C) : Prog C A (A c) := call c ret

/-- Repeat the body until it ends the loop, for at most so many rounds: `.inl` goes on
with a new loop state, `.inr` leaves the loop with a result. -/
def loop (body : σ → Prog C A (σ ⊕ α)) : Nat → σ → Prog C A α
  | 0, _ => stuck
  | rounds + 1, s => do
      match ← body s with
      | .inl s => loop body rounds s
      | .inr a => pure a

/-- The first calls of an execution with their answers: `answers i` is what the
environment says to the `i`-th call, whichever call that is. -/
def exec (answers : Nat → (c : C) → A c) : Nat → Prog C A α → List ((c : C) × A c)
  | n + 1, call c k => ⟨c, answers 0 c⟩ :: exec (fun i => answers (i + 1)) n (k (answers 0 c))
  | _, _ => []

/-- What an execution returns, if it returns within so many calls. -/
def outcome (answers : Nat → (c : C) → A c) : Nat → Prog C A α → Option α
  | _, ret a => some a
  | n + 1, call c k => outcome (fun i => answers (i + 1)) n (k (answers 0 c))
  | _, _ => none

/-- An execution that returns. -/
structure Returned (p : Prog C A α) where
  answers : Nat → (c : C) → A c
  calls : Nat
  result : α
  returns : p.outcome answers calls = some result

/-- The execution with these answers, which has returned after so many calls. -/
def Returned.of {p : Prog C A α} (answers : Nat → (c : C) → A c) (calls : Nat)
    (h : (p.outcome answers calls).isSome) : p.Returned :=
  ⟨answers, calls, (p.outcome answers calls).get h, (Option.some_get h).symm⟩

/-- The calls made until then. -/
def Returned.trace {p : Prog C A α} (r : p.Returned) : List ((c : C) × A c) :=
  p.exec r.answers r.calls

end Prog
end Programs

/-- What is observed of calls, what the environment may answer, and what must hold of the
events observed so far. -/
structure Monitor (C : Type) (A : C → Type) (ε : Type) where
  emit : (c : C) → A c → List ε
  admits : (c : C) → A c → Prop
  inv : List ε → Prop

namespace Monitor
variable {C : Type} {A : C → Type} {ε α β σ : Type} (M : Monitor C A ε)

/-- The events of an observed execution. -/
def events (t : List ((c : C) × A c)) : List ε := t.flatMap fun x => M.emit x.1 x.2

/-- After the history `h`, the program keeps `M.inv` at every moment, and establishes `Q`
if it returns. -/
def wp (Q : α → List ε → Prop) : Prog C A α → List ε → Prop
  | .ret a, h => M.inv h ∧ Q a h
  | .call c k, h => M.inv h ∧ ∀ x, M.admits c x → wp Q (k x) (h ++ M.emit c x)
  | .stuck, h => M.inv h

variable {M} {Q R : α → List ε → Prop} {h : List ε}

theorem wp.inv {p : Prog C A α} (hp : M.wp Q p h) : M.inv h := by
  cases p with
  | ret a => exact hp.1
  | call c k => exact hp.1
  | stuck => exact hp

/-- The rule of consequence. -/
theorem wp.mono {p : Prog C A α} (hp : M.wp Q p h) (hQ : ∀ a h, M.inv h → Q a h → R a h) :
    M.wp R p h := by
  induction p generalizing h with
  | ret a => exact ⟨hp.1, hQ a h hp.1 hp.2⟩
  | call c k ih => exact ⟨hp.1, fun x hx => ih x (hp.2 x hx)⟩
  | stuck => exact hp

theorem wp_pure {a : α} (hinv : M.inv h) (hQ : Q a h) : M.wp Q (pure a) h := ⟨hinv, hQ⟩

theorem wp_perform {c : C} {Q : A c → List ε → Prop} (hinv : M.inv h)
    (hQ : ∀ x, M.admits c x → M.inv (h ++ M.emit c x) ∧ Q x (h ++ M.emit c x)) :
    M.wp Q (Prog.perform c) h := ⟨hinv, hQ⟩

/-- A call that emits nothing. -/
theorem wp_perform_silent {c : C} {Q : A c → List ε → Prop} (hsilent : ∀ x, M.emit c x = [])
    (hinv : M.inv h) (hQ : ∀ x, M.admits c x → Q x h) : M.wp Q (Prog.perform c) h := by
  refine wp_perform hinv fun x hx => ?_
  rw [hsilent, List.append_nil]
  exact ⟨hinv, hQ x hx⟩

/-- The rule of sequencing. -/
theorem wp_bind {p : Prog C A α} {f : α → Prog C A β} {Q : β → List ε → Prop}
    (hp : M.wp (fun a h => M.wp Q (f a) h) p h) : M.wp Q (p >>= f) h := by
  induction p generalizing h with
  | ret a => exact hp.2
  | call c k ih => exact ⟨hp.1, fun x hx => ih x (hp.2 x hx)⟩
  | stuck => exact hp

/-- Sequencing where nothing but the invariant is carried over. -/
theorem wp_seq {p : Prog C A α} {f : α → Prog C A β} {Q : β → List ε → Prop}
    (hp : M.wp (fun _ _ => True) p h) (hf : ∀ a h, M.inv h → M.wp Q (f a) h) :
    M.wp Q (p >>= f) h :=
  wp_bind (hp.mono fun a h hinv _ => hf a h hinv)

/-- Once an event has ended the watch nothing more is asked of the program. -/
theorem wp_of_ended {stop : ε} (hinv : ∀ h, stop ∈ h → M.inv h) (hQ : ∀ a h, stop ∈ h → Q a h)
    (hstop : stop ∈ h) (p : Prog C A α) : M.wp Q p h := by
  induction p generalizing h with
  | ret a => exact ⟨hinv h hstop, hQ a h hstop⟩
  | call c k ih => exact ⟨hinv h hstop, fun x _ => ih x (List.mem_append_left _ hstop)⟩
  | stuck => exact hinv h hstop

/-- The rule of branching on an answer that leaves the history as it is. -/
theorem wp_ite {c : Prog C A Bool} {p q : Prog C A α} (hc : M.wp (fun _ h' => h' = h) c h)
    (hp : M.wp Q p h) (hq : M.wp Q q h) :
    M.wp Q (c >>= fun b => if b = true then p else q) h := by
  refine wp_bind (hc.mono ?_)
  rintro b h' - rfl
  cases b with
  | true => exact hp
  | false => exact hq

/-- What holds after a round of a loop: the invariant if it goes on, the postcondition if
it is left. -/
def turn (J : σ → List ε → Prop) (Q : α → List ε → Prop) : σ ⊕ α → List ε → Prop
  | .inl s, h => J s h
  | .inr a, h => Q a h

/-- **The rule of loops.**  An invariant that one round either keeps, or turns into the
postcondition on leaving, gives the postcondition after any number of rounds. -/
theorem wp_loop {body : σ → Prog C A (σ ⊕ α)} (J : σ → List ε → Prop)
    (hbody : ∀ s h, J s h → M.wp (turn J Q) (body s) h) (rounds : Nat) {s : σ} (hJ : J s h) :
    M.wp Q (Prog.loop body rounds s) h := by
  induction rounds generalizing s h with
  | zero => exact (hbody s h hJ).inv
  | succ rounds ih =>
    refine wp_bind ((hbody s h hJ).mono fun r h hinv hr => ?_)
    cases r with
    | inl s => exact ih hr
    | inr a => exact wp_pure hinv hr

/-- **Soundness.**  In every execution with admissible answers, the monitored property
holds of the events observed so far. -/
theorem wp_exec {p : Prog C A α} (hp : M.wp Q p h) (answers : Nat → (c : C) → A c)
    (hadm : ∀ i c, M.admits c (answers i c)) (n : Nat) :
    M.inv (h ++ M.events (p.exec answers n)) := by
  induction n generalizing p h answers with
  | zero =>
    have hinv := hp.inv
    simpa [Prog.exec, events] using hinv
  | succ n ih =>
    cases p with
    | ret a => simpa [Prog.exec, events] using hp.1
    | stuck =>
      have hinv : M.inv h := hp
      simpa [Prog.exec, events] using hinv
    | call c k =>
      have hrest := ih (hp.2 _ (hadm 0 c)) (fun i => answers (i + 1)) fun i => hadm (i + 1)
      simpa [Prog.exec, events] using hrest

/-- **Soundness of the postcondition.**  An execution that has returned satisfies it. -/
theorem wp_outcome {p : Prog C A α} (hp : M.wp Q p h) (answers : Nat → (c : C) → A c)
    (hadm : ∀ i c, M.admits c (answers i c)) {n : Nat} {a : α}
    (hret : p.outcome answers n = some a) : Q a (h ++ M.events (p.exec answers n)) := by
  induction n generalizing p h answers with
  | zero =>
    cases p with
    | ret b =>
      obtain rfl : b = a := Option.some.inj hret
      simpa [Prog.exec, events] using hp.2
    | call c k => cases hret
    | stuck => cases hret
  | succ n ih =>
    cases p with
    | ret b =>
      obtain rfl : b = a := Option.some.inj hret
      simpa [Prog.exec, events] using hp.2
    | stuck => cases hret
    | call c k =>
      have hrest := ih (hp.2 _ (hadm 0 c)) (fun i => answers (i + 1)) (fun i => hadm (i + 1)) hret
      simpa [Prog.exec, events] using hrest

end Monitor
end Interaction
