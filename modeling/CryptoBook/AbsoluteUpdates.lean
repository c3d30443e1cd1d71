import Mathlib.Logic.Function.Basic

/-! # Maps driven by absolute updates

A map from keys to optional values, changed by updates that carry the new value of a
key outright (`none` removes it).  Because an update says what its key holds and not
by how much it moved, replaying one twice, or replaying a batch on top of a map that
already contains part of it, does no harm: `replay_catches_up` is the whole reason
why a snapshot and a stream of changes taken around it can be joined.  A snapshot that
shows only part of a map stays a part of it, and grows with each batch
(`PartOn.replay`). -/
namespace AbsoluteUpdates
variable {κ ν : Type} [DecidableEq κ]

/-- Apply the updates in order; each sets its key. -/
def replay (m : κ → Option ν) (us : List (κ × Option ν)) : κ → Option ν :=
  us.foldl (fun m u => Function.update m u.1 u.2) m

@[simp] theorem replay_cons (m : κ → Option ν) (u : κ × Option ν) (us : List (κ × Option ν)) :
    replay m (u :: us) = replay (Function.update m u.1 u.2) us := rfl

theorem replay_append (m : κ → Option ν) (us vs : List (κ × Option ν)) :
    replay m (us ++ vs) = replay (replay m us) vs := List.foldl_append ..

/-- A batch leaves alone the keys it does not name. -/
theorem replay_of_untouched {us : List (κ × Option ν)} {k : κ} (m : κ → Option ν)
    (h : ∀ u ∈ us, u.1 ≠ k) : replay m us k = m k := by
  induction us generalizing m with
  | nil => rfl
  | cons u us ih =>
    rw [replay_cons, ih _ fun v hv => h v (List.mem_cons_of_mem _ hv)]
    exact Function.update_of_ne (fun he => h u (List.mem_cons_self ..) he.symm) ..

/-- A batch decides the keys it names. -/
theorem replay_of_touched {target : κ → Option ν} {us : List (κ × Option ν)} {k : κ}
    (m : κ → Option ν) (hval : ∀ u ∈ us, u.2 = target u.1) (h : ∃ u ∈ us, u.1 = k) :
    replay m us k = target k := by
  induction us generalizing m with
  | nil => obtain ⟨u, hu, -⟩ := h; cases hu
  | cons u us ih =>
    have hval' : ∀ v ∈ us, v.2 = target v.1 := fun v hv => hval v (List.mem_cons_of_mem _ hv)
    rw [replay_cons]
    by_cases hlater : ∃ v ∈ us, v.1 = k
    · exact ih _ hval' hlater
    · have hnone : ∀ v ∈ us, v.1 ≠ k := fun v hv he => hlater ⟨v, hv, he⟩
      obtain rfl : u.1 = k := by
        obtain ⟨v, hv, hk⟩ := h
        rcases List.mem_cons.mp hv with rfl | hv
        · exact hk
        · exact absurd hk (hnone v hv)
      rw [replay_of_untouched _ hnone, Function.update_self]
      exact hval u List.mem_cons_self

/-- **A batch catches a map up.**  If every update carries its key's value in `target`,
and the map agrees with `target` on the keys the batch leaves alone, then replaying
the batch gives `target`. -/
theorem replay_catches_up {base target : κ → Option ν} {us : List (κ × Option ν)}
    (hval : ∀ u ∈ us, u.2 = target u.1)
    (hrest : ∀ k, (∀ u ∈ us, u.1 ≠ k) → base k = target k) : replay base us = target := by
  funext k
  by_cases htouched : ∃ u ∈ us, u.1 = k
  · exact replay_of_touched base hval htouched
  · have hnone : ∀ u ∈ us, u.1 ≠ k := fun u hu he => htouched ⟨u, hu, he⟩
    rw [replay_of_untouched base hnone]
    exact hrest k hnone

/-- `m` is the part of `whole` on the keys in `known`. -/
structure PartOn (known : κ → Prop) (m whole : κ → Option ν) : Prop where
  same : ∀ k, known k → m k = whole k
  absent : ∀ k, ¬ known k → m k = none

omit [DecidableEq κ] in
theorem PartOn.congr {known known' : κ → Prop} {m whole : κ → Option ν}
    (h : PartOn known m whole) (hk : ∀ k, known k ↔ known' k) : PartOn known' m whole :=
  ⟨fun k hknown => h.same k ((hk k).mpr hknown), fun k hnot => h.absent k (mt (hk k).mp hnot)⟩

/-- **A batch catches a part up**, and makes known the keys it names. -/
theorem PartOn.replay {known : κ → Prop} {m base target : κ → Option ν}
    {us : List (κ × Option ν)} (h : PartOn known m base) (hval : ∀ u ∈ us, u.2 = target u.1)
    (hrest : ∀ k, known k → (∀ u ∈ us, u.1 ≠ k) → base k = target k) :
    PartOn (fun k => known k ∨ ∃ u ∈ us, u.1 = k) (AbsoluteUpdates.replay m us) target := by
  constructor
  · intro k hk
    by_cases htouched : ∃ u ∈ us, u.1 = k
    · exact replay_of_touched m hval htouched
    · have hnone : ∀ u ∈ us, u.1 ≠ k := fun u hu he => htouched ⟨u, hu, he⟩
      have hknown := hk.resolve_right htouched
      rw [replay_of_untouched m hnone, h.same k hknown]
      exact hrest k hknown hnone
  · intro k hk
    rw [replay_of_untouched m fun u hu he => hk (Or.inr ⟨u, hu, he⟩)]
    exact h.absent k fun hknown => hk (Or.inl hknown)

end AbsoluteUpdates
