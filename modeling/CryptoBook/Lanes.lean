/-! # Lanes that are brought to one entry

A lane is a list of entries, each *live* or *pending* removal.  A controller wants at most
one entry in a lane, with a given key, and looks at the first entry only: it keeps that
entry if it fits the wish or is pending already, marks it pending otherwise, and adds an
entry to an empty lane if there is room.  Then everything pending is removed.

Such a controller reaches its wish unless a live entry that fits stands before another
live one: it is kept, and hides the other for good.  `Clear` excludes exactly that, and a
round neither creates nor removes the obstacle (`clear_round`).  A clear lane that is not
at rest gets shorter with every round, so its length bounds the number of rounds
(`Due.round`).

Two lanes share the room of one table (`Pair`).  A lane waits for room only while the
other one fills the whole table, which one round ends. -/
namespace Lanes

variable {κ : Type} [DecidableEq κ]

structure Entry (κ : Type) where
  key : κ
  pending : Bool
  deriving DecidableEq

/-- The controller looks at the first entry. -/
def turn (want : Option κ) (room : Bool) : List (Entry κ) → List (Entry κ)
  | [] =>
      match want with
      | some k => if room then [⟨k, false⟩] else []
      | none => []
  | e :: es => if e.pending ∨ want = some e.key then e :: es else ⟨e.key, true⟩ :: es

/-- What is pending is removed. -/
def confirm (l : List (Entry κ)) : List (Entry κ) := l.filter fun e => !e.pending

def round (want : Option κ) (room : Bool) (l : List (Entry κ)) : List (Entry κ) :=
  confirm (turn want room l)

/-- No live entry that fits stands before another live entry. -/
def Clear (want : Option κ) (l : List (Entry κ)) : Prop :=
  (confirm l).Pairwise fun a _ => want ≠ some a.key

/-- The lane holds what is wanted and nothing else. -/
def Settled (want : Option κ) (l : List (Entry κ)) : Prop :=
  l = want.toList.map fun k => ⟨k, false⟩

section Lane
variable {want : Option κ} {room : Bool} {l : List (Entry κ)}

omit [DecidableEq κ] in
theorem Settled.clear (h : Settled want l) : Clear want l := by
  subst h
  cases want with
  | none => exact List.Pairwise.nil
  | some k => exact List.pairwise_singleton _ _

theorem Settled.turn_eq (h : Settled want l) : turn want room l = l := by
  subst h
  cases want with
  | none => rfl
  | some k => exact if_pos (Or.inr rfl)

/-- **A second turn changes nothing**, unless room has come up in between. -/
theorem turn_turn {room' : Bool} (hroom : room' = true → room = true) :
    turn want room' (turn want room l) = turn want room l := by
  cases l with
  | nil =>
    cases want with
    | none => rfl
    | some k =>
      cases room with
      | true => exact if_pos (Or.inr rfl)
      | false =>
        obtain rfl : room' = false := by simpa using hroom
        rfl
  | cons e es =>
    by_cases hkeep : e.pending ∨ want = some e.key
    · have hfirst : turn want room (e :: es) = e :: es := if_pos hkeep
      rw [hfirst]
      exact if_pos hkeep
    · have hfirst : turn want room (e :: es) = ⟨e.key, true⟩ :: es := if_neg hkeep
      rw [hfirst, turn, if_pos (Or.inl rfl)]

theorem Settled.round (h : Settled want l) : Settled want (round want room l) := by
  rw [Lanes.round, h.turn_eq, h]
  cases want <;> rfl

/-- What one round does to a lane that is not empty: the first entry is kept, with the
other live ones, or it goes. -/
theorem round_cons (e : Entry κ) (es : List (Entry κ)) :
    round want room (e :: es) =
      if e.pending = false ∧ want = some e.key then e :: confirm es else confirm es := by
  unfold round turn
  by_cases hp : e.pending = true
  · simp [hp, confirm]
  · by_cases hw : want = some e.key
    · simp [hp, hw, confirm]
    · simp [hp, hw, confirm]

/-- **A round neither creates nor removes the obstacle.** -/
theorem clear_round : Clear want (round want room l) ↔ Clear want l := by
  cases l with
  | nil =>
    refine iff_of_true ?_ List.Pairwise.nil
    cases want with
    | none => exact List.Pairwise.nil
    | some k => cases room <;> simp [round, turn, confirm, Clear]
  | cons e es =>
    rw [round_cons, Clear, Clear]
    split
    · next hkeep => simp [confirm, hkeep.1, List.filter_filter]
    · next hgo =>
      by_cases hp : e.pending = true
      · simp [confirm, hp, List.filter_filter]
      · have hne : want ≠ some e.key := fun hw => hgo ⟨by simpa using hp, hw⟩
        simp [confirm, hp, hne, List.filter_filter]

/-- A clear lane that is not empty gets shorter, or is at rest after the round. -/
theorem Clear.round_shorter (h : Clear want l) (hne : l ≠ []) (room : Bool) :
    Settled want (round want room l) ∨ (round want room l).length < l.length := by
  cases l with
  | nil => exact absurd rfl hne
  | cons e es =>
    rw [round_cons]
    split
    · next hkeep =>
      -- a live entry that fits has no live entry behind it
      left
      have hlive : confirm (e :: es) = e :: confirm es := by simp [confirm, hkeep.1]
      rw [Clear, hlive, List.pairwise_cons] at h
      have hnone : confirm es = [] := by
        rw [List.eq_nil_iff_forall_not_mem]
        exact fun b hb => h.1 b hb hkeep.2
      obtain ⟨key, pending⟩ := e
      obtain ⟨rfl, rfl⟩ := hkeep
      rw [hnone]
      rfl
    · exact Or.inr (Nat.lt_succ_of_le (List.length_filter_le ..))

/-- At most `n` rounds are left to do, if there is room. -/
def Due (want : Option κ) (n : Nat) (l : List (Entry κ)) : Prop :=
  Settled want l ∨ l.length < n

theorem Due.round {n : Nat} (hdue : Due want (n + 1) l) (hclear : Clear want l)
    (hroom : l = [] → room = true) : Due want n (Lanes.round want room l) := by
  rcases hdue with hrest | hlen
  · exact Or.inl hrest.round
  · by_cases hempty : l = []
    · left
      rw [hempty, hroom hempty]
      cases want <;> rfl
    · rcases hclear.round_shorter hempty room with hrest | hshort
      · exact Or.inl hrest
      · exact Or.inr (by omega)

/-- Without room the first round still counts. -/
theorem Clear.due_round (hclear : Clear want l) {n : Nat} (hlen : l.length ≤ n) :
    Due want (n + 1) (Lanes.round want room l) := by
  by_cases hempty : l = []
  · subst hempty
    cases room with
    | true =>
      left
      cases want <;> rfl
    | false =>
      right
      cases want <;> exact Nat.succ_pos n
  · rcases hclear.round_shorter hempty room with hrest | hshort
    · exact Or.inl hrest
    · exact Or.inr (by omega)

theorem length_turn_le (want : Option κ) (room : Bool) (l : List (Entry κ)) :
    (turn want room l).length ≤ max l.length 1 := by
  cases l with
  | nil => cases want <;> cases room <;> simp [turn]
  | cons e es =>
    rw [turn]
    split <;> simp

end Lane

/-! ## Two lanes in one table -/

/-- The two lanes of a table with `cap` places. -/
structure Pair (κ : Type) where
  first : List (Entry κ)
  second : List (Entry κ)

namespace Pair
variable (cap : Nat) (want₁ want₂ : Option κ)

def total (p : Pair κ) : Nat := p.first.length + p.second.length

/-- A turn of the first lane, one of the second, and the removals. -/
def round (p : Pair κ) : Pair κ :=
  let first := turn want₁ (decide (p.total < cap)) p.first
  let second := turn want₂ (decide (first.length + p.second.length < cap)) p.second
  ⟨confirm first, confirm second⟩

def Clear (p : Pair κ) : Prop := Lanes.Clear want₁ p.first ∧ Lanes.Clear want₂ p.second

def Settled (p : Pair κ) : Prop := Lanes.Settled want₁ p.first ∧ Lanes.Settled want₂ p.second

/-- The pair after some rounds. -/
def rounds : Nat → Pair κ → Pair κ
  | 0, p => p
  | n + 1, p => rounds n (p.round cap want₁ want₂)

variable {cap want₁ want₂} {p : Pair κ}

theorem clear_round : Clear want₁ want₂ (p.round cap want₁ want₂) ↔ Clear want₁ want₂ p :=
  and_congr Lanes.clear_round Lanes.clear_round

theorem clear_rounds (n : Nat) :
    Clear want₁ want₂ (rounds cap want₁ want₂ n p) ↔ Clear want₁ want₂ p := by
  induction n generalizing p with
  | zero => exact Iff.rfl
  | succ n ih => exact ih.trans clear_round

theorem Settled.round (h : Settled want₁ want₂ p) :
    Settled want₁ want₂ (p.round cap want₁ want₂) := ⟨h.1.round, h.2.round⟩

theorem Settled.rounds (h : Settled want₁ want₂ p) (n : Nat) :
    Settled want₁ want₂ (rounds cap want₁ want₂ n p) := by
  induction n generalizing p with
  | zero => exact h
  | succ n ih => exact ih h.round

theorem rounds_add (n m : Nat) :
    rounds cap want₁ want₂ (n + m) p =
      rounds cap want₁ want₂ m (rounds cap want₁ want₂ n p) := by
  induction n generalizing p with
  | zero => rw [Nat.zero_add]; rfl
  | succ n ih =>
    rw [Nat.add_right_comm]
    exact ih

/-- Neither lane fills the table, and `n` rounds are left to do in each. -/
structure Progress (cap : Nat) (want₁ want₂ : Option κ) (n : Nat) (p : Pair κ) : Prop where
  clear : Clear want₁ want₂ p
  first_lt : p.first.length < cap
  second_lt : p.second.length < cap
  first_due : Due want₁ n p.first
  second_due : Due want₂ n p.second

theorem length_round_le (cap : Nat) (want₁ want₂ : Option κ) (p : Pair κ) :
    (p.round cap want₁ want₂).first.length ≤ max p.first.length 1 ∧
    (p.round cap want₁ want₂).second.length ≤ max p.second.length 1 :=
  ⟨Nat.le_trans (List.length_filter_le ..) (length_turn_le ..),
    Nat.le_trans (List.length_filter_le ..) (length_turn_le ..)⟩

theorem Progress.round (hcap : 2 ≤ cap) {n : Nat} (h : Progress cap want₁ want₂ (n + 1) p) :
    Progress cap want₁ want₂ n (p.round cap want₁ want₂) := by
  obtain ⟨hfirst, hsecond⟩ := length_round_le cap want₁ want₂ p
  have hlt₁ := h.first_lt
  have hlt₂ := h.second_lt
  refine ⟨clear_round.mpr h.clear, by omega, by omega, h.first_due.round h.clear.1 ?_,
    h.second_due.round h.clear.2 ?_⟩
  · intro hempty
    rw [total, hempty]
    simpa using hlt₂
  · -- the first lane's turn leaves a place for the second
    intro hempty
    have hturn := length_turn_le want₁ (decide (p.total < cap)) p.first
    rw [hempty]
    simp only [List.length_nil, decide_eq_true_eq]
    omega

theorem Progress.rounds (hcap : 2 ≤ cap) {n : Nat} (h : Progress cap want₁ want₂ n p) :
    Settled want₁ want₂ (rounds cap want₁ want₂ n p) := by
  induction n generalizing p with
  | zero =>
    refine ⟨h.first_due.resolve_right ?_, h.second_due.resolve_right ?_⟩ <;>
      exact Nat.not_lt_zero _
  | succ n ih => exact ih (h.round hcap)

/-- After one round neither lane fills the table. -/
theorem Clear.progress (hcap : 2 ≤ cap) (hclear : Clear want₁ want₂ p) (htotal : p.total ≤ cap) :
    Progress cap want₁ want₂ (p.total + 1) (p.round cap want₁ want₂) := by
  unfold total at *
  have short : ∀ {want : Option κ} {room : Bool} {l : List (Entry κ)}, Lanes.Clear want l →
      l.length ≤ cap → (Lanes.round want room l).length < cap := by
    intro want room l hl hlen
    by_cases hempty : l = []
    · subst hempty
      have hle : (Lanes.round want room ([] : List (Entry κ))).length ≤ max 0 1 :=
        Nat.le_trans (List.length_filter_le ..) (length_turn_le ..)
      omega
    · rcases hl.round_shorter hempty room with hrest | hshort
      · rw [hrest, List.length_map]
        cases want <;> simp <;> omega
      · omega
  exact ⟨clear_round.mpr hclear, short hclear.1 (by omega), short hclear.2 (by omega),
    hclear.1.due_round (by omega), hclear.2.due_round (by omega)⟩

/-- **Convergence.**  From any pair that fits the table, as many rounds as there are
entries, and two more, bring both lanes to rest if and only if no lane hides a live entry
behind one that fits. -/
theorem settled_rounds_iff (hcap : 2 ≤ cap) (htotal : p.total ≤ cap) :
    Settled want₁ want₂ (rounds cap want₁ want₂ (p.total + 2) p) ↔ Clear want₁ want₂ p := by
  constructor
  · intro h
    exact (clear_rounds (p.total + 2)).mp ⟨h.1.clear, h.2.clear⟩
  · exact fun hclear => (hclear.progress hcap htotal).rounds hcap

end Pair
end Lanes
