import CryptoBook.Interaction

/-! # Programs that refine programs

What is left of a program after some answered calls is a program again (`Prog.After`), and a
history is one of the program if something is left after it.

A second program refines it if its own history, with the calls that the first one does not have
left out, is always a history of the first.  That is a monitored property (`follows`), so the
rules of `wp` prove it: the postcondition of each piece says what is left of the first program.
A piece that is taken over unchanged refines itself (`wp_embed_follows`). -/
namespace Interaction
variable {C C' : Type} {A : C → Type} {A' : C' → Type} {α β : Type}

namespace Prog

protected theorem bind_assoc {γ : Type} (p : Prog C A α) (f : α → Prog C A β) (g : β → Prog C A γ) :
    p >>= f >>= g = p >>= fun a => f a >>= g := by
  induction p with
  | ret a => rfl
  | call c k ih => exact congrArg (call c) (funext ih)
  | stuck => rfl

/-- What is left of a program after some answered calls. -/
inductive After : Prog C A α → List ((c : C) × A c) → Prog C A α → Prop
  | start (p : Prog C A α) : After p [] p
  | call {c : C} {k : A c → Prog C A α} {x : A c} {t : List ((c : C) × A c)} {r : Prog C A α}
      (rest : After (k x) t r) : After (call c k) (⟨c, x⟩ :: t) r

theorem After.answer {p : Prog C A α} {t : List ((c : C) × A c)} {c : C} {k : A c → Prog C A α}
    (h : p.After t (.call c k)) (x : A c) : p.After (t ++ [⟨c, x⟩]) (k x) := by
  generalize hr : Prog.call c k = r at h
  induction h with
  | start p =>
    subst hr
    exact .call (.start _)
  | call _ ih => exact .call (ih hr)

/-- **Every history is that of an execution.** -/
theorem After.exists_exec [∀ c, Nonempty (A c)] {p r : Prog C A α} {t : List ((c : C) × A c)}
    (h : p.After t r) : ∃ answers, p.exec answers t.length = t := by
  classical
  induction h with
  | start p => exact ⟨fun _ c => Classical.ofNonempty, by cases p <;> rfl⟩
  | @call c k x t r _ ih =>
    obtain ⟨answers, hexec⟩ := ih
    obtain ⟨first, hfirst⟩ : ∃ first : (c' : C) → A c', first c = x :=
      ⟨fun c' => if h : c = c' then h ▸ x else Classical.ofNonempty, dif_pos rfl⟩
    refine ⟨fun i => i.casesOn first answers, ?_⟩
    show ⟨c, first c⟩ :: exec answers t.length (k (first c)) = _
    rw [hfirst, hexec]

/-- A program over other calls, each of which is answered as the original one. -/
def embed (f : C → C') (cast : ∀ c, A' (f c) → A c) : Prog C A α → Prog C' A' α
  | ret a => ret a
  | call c k => .call (f c) fun x => (k (cast c x)).embed f cast
  | stuck => stuck

end Prog

namespace Monitor

/-- The calls that `erase` leaves are made by `q`. -/
def follows (erase : (c : C') → A' c → List ((c : C) × A c)) (q : Prog C A β) :
    Monitor C' A' ((c : C) × A c) where
  emit := erase
  admits := fun _ _ => True
  inv := fun h => ∃ r, q.After h r

variable {f : C → C'} {cast : ∀ c, A' (f c) → A c} {ε : Type}

/-- A program that is embedded keeps what it keeps by itself. -/
theorem wp_embed {M : Monitor C A ε} {M' : Monitor C' A' ε}
    (hemit : ∀ c x, M'.emit (f c) x = M.emit c (cast c x))
    (hadmits : ∀ c x, M'.admits (f c) x → M.admits c (cast c x))
    (hinv : ∀ h, M.inv h → M'.inv h) {Q : α → List ε → Prop} {p : Prog C A α} {h : List ε}
    (hp : M.wp Q p h) : M'.wp Q (p.embed f cast) h := by
  induction p generalizing h with
  | ret a => exact ⟨hinv h hp.1, hp.2⟩
  | call c k ih =>
    refine ⟨hinv h hp.1, fun x hx => ?_⟩
    rw [hemit]
    exact ih (cast c x) (hp.2 (cast c x) (hadmits c x hx))
  | stuck => exact hinv h hp

/-- A program that is embedded refines itself. -/
theorem wp_embed_follows {erase : (c : C') → A' c → List ((c : C) × A c)}
    (herase : ∀ c x, erase (f c) x = [⟨c, cast c x⟩]) {q : Prog C A β}
    {t : List ((c : C) × A c)} {p : Prog C A α} {g : α → Prog C A β} (h : q.After t (p >>= g)) :
    (follows erase q).wp (fun a t' => q.After t' (g a)) (p.embed f cast) t := by
  induction p generalizing t with
  | ret a => exact ⟨⟨_, h⟩, h⟩
  | call c k ih =>
    refine ⟨⟨_, h⟩, fun x _ => ?_⟩
    have hemit : (follows erase q).emit (f c) x = [⟨c, cast c x⟩] := herase c x
    rw [hemit]
    exact ih (cast c x) (h.answer (cast c x))
  | stuck => exact ⟨_, h⟩

end Monitor
end Interaction
