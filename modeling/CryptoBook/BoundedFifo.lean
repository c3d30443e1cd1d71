/-! # The sequential bounded queue

What a first-in first-out queue of fixed capacity may answer, one call at a time: a
push succeeds while there is room and reports `full` only when there is none; a pop
returns the oldest element and reports `empty` only when there is none.  A history of
answers is legal when it is a run of this machine.  A concurrent queue is correct when
its answers, listed in the order they take effect, are legal (`Run`): then what was
popped is a prefix of what was pushed, and the difference is what the queue holds. -/
namespace BoundedFifo
variable {α : Type}

/-- An answered call. -/
inductive Answer (α : Type) where
  | pushed (v : α)
  | full (v : α)
  | popped (v : α)
  | empty
  deriving DecidableEq, Repr

/-- The values pushed in a history, in order. -/
def pushes (h : List (Answer α)) : List α :=
  h.filterMap fun
    | .pushed v => some v
    | _ => none

/-- The values popped in a history, in order. -/
def pops (h : List (Answer α)) : List α :=
  h.filterMap fun
    | .popped v => some v
    | _ => none

/-- The legal answers of a queue holding `q`, and what it holds afterwards. -/
inductive Step (cap : Nat) : List α → Answer α → List α → Prop
  | pushed {q : List α} (v : α) (room : q.length < cap) : Step cap q (.pushed v) (q ++ [v])
  | full {q : List α} (v : α) (full : q.length = cap) : Step cap q (.full v) q
  | popped (v : α) (q : List α) : Step cap (v :: q) (.popped v) q
  | empty : Step cap [] .empty []

/-- A legal history, and what the queue holds after it. -/
inductive Run (cap : Nat) : List (Answer α) → List α → Prop
  | nil : Run cap [] []
  | snoc {h : List (Answer α)} {q q' : List α} {a : Answer α} (run : Run cap h q)
      (step : Step cap q a q') : Run cap (h ++ [a]) q'

theorem pushes_append (h h' : List (Answer α)) : pushes (h ++ h') = pushes h ++ pushes h' :=
  List.filterMap_append ..

theorem pops_append (h h' : List (Answer α)) : pops (h ++ h') = pops h ++ pops h' :=
  List.filterMap_append ..

/-- **First in, first out**: what was pushed is what was popped, then what is held. -/
theorem Run.pushes_eq {cap : Nat} {h : List (Answer α)} {q : List α} (hr : Run cap h q) :
    pushes h = pops h ++ q := by
  induction hr with
  | nil => rfl
  | snoc run step ih =>
    rw [pushes_append, pops_append, ih]
    cases step with
    | pushed v room => simp [pushes, pops]
    | full v full => simp [pushes, pops]
    | popped v q => simp [pushes, pops]
    | empty => simp [pushes, pops]

/-- The queue never holds more than its capacity. -/
theorem Run.length_le {cap : Nat} {h : List (Answer α)} {q : List α} (hr : Run cap h q) :
    q.length ≤ cap := by
  induction hr with
  | nil => exact Nat.zero_le _
  | snoc run step ih =>
    cases step with
    | pushed v room => rw [List.length_append]; exact room
    | full v full => exact ih
    | popped v q => exact Nat.le_of_succ_le ih
    | empty => exact ih

end BoundedFifo
