import Mathlib.Algebra.BigOperators.Ring.List
import Mathlib.Algebra.Order.Field.Basic
import Mathlib.Data.List.Induction
import Mathlib.Tactic.Linarith
import Mathlib.Tactic.Ring

/-! # Exponential smoothing

An average that forgets: each new value enters with weight `1 - w`, and what was there is
multiplied by `w`.  The value that is `k` steps old therefore counts `(1 - w) * w ^ k`
(`average_eq_sum`), and the average stays below any bound of the values. -/
namespace Smoothing
variable {K : Type} [Field K]

def smooth (w v x : K) : K := w * v + (1 - w) * x

/-- The average of the values, oldest first, that starts at zero. -/
def average (w : K) (xs : List K) : K := xs.foldl (smooth w) 0

@[simp] theorem average_nil (w : K) : average w [] = 0 := rfl

@[simp] theorem average_concat (w : K) (xs : List K) (x : K) :
    average w (xs ++ [x]) = smooth w (average w xs) x := by
  rw [average, List.foldl_append]
  rfl

/-- The values with the powers of `w`, the latest first. -/
def discounted (w : K) (xs : List K) : List K := xs.reverse.zipIdx.map fun x => w ^ x.2 * x.1

theorem discounted_concat (w : K) (xs : List K) (x : K) :
    discounted w (xs ++ [x]) = x :: (discounted w xs).map (w * ·) := by
  rw [discounted, List.reverse_append, List.reverse_singleton, List.singleton_append,
    List.zipIdx_cons, List.map_cons, discounted, List.map_map, pow_zero, one_mul,
    List.zipIdx_succ, List.map_map]
  refine congrArg _ (List.map_congr_left fun y _ => ?_)
  show w ^ (y.2 + 1) * y.1 = w * (w ^ y.2 * y.1)
  ring

/-- **The weights.** -/
theorem average_eq_sum (w : K) (xs : List K) :
    average w xs = (1 - w) * (discounted w xs).sum := by
  induction xs using List.reverseRecOn with
  | nil => exact (mul_zero _).symm
  | append_singleton xs x ih =>
    rw [average_concat, ih, discounted_concat, List.sum_cons, List.sum_map_mul_left, List.map_id']
    unfold smooth
    ring

section Ordered
variable [LinearOrder K] [IsStrictOrderedRing K] {w : K}

theorem smooth_le (h₀ : 0 ≤ w) (h₁ : w ≤ 1) {v x b : K} (hv : v ≤ b) (hx : x ≤ b) :
    smooth w v x ≤ b := by
  have hold := mul_le_mul_of_nonneg_left hv h₀
  have hnew := mul_le_mul_of_nonneg_left hx (sub_nonneg.mpr h₁)
  unfold smooth
  linarith

theorem average_le (h₀ : 0 ≤ w) (h₁ : w ≤ 1) {b : K} (hb : 0 ≤ b) {xs : List K}
    (h : ∀ x ∈ xs, x ≤ b) : average w xs ≤ b := by
  induction xs using List.reverseRecOn with
  | nil => exact hb
  | append_singleton xs x ih =>
    obtain ⟨hxs, hx⟩ := List.forall_mem_append.mp h
    rw [average_concat]
    exact smooth_le h₀ h₁ (ih hxs) (hx x (List.mem_singleton_self x))

theorem average_nonneg (h₀ : 0 ≤ w) (h₁ : w ≤ 1) {xs : List K} (h : ∀ x ∈ xs, 0 ≤ x) :
    0 ≤ average w xs := by
  induction xs using List.reverseRecOn with
  | nil => exact le_rfl
  | append_singleton xs x ih =>
    obtain ⟨hxs, hx⟩ := List.forall_mem_append.mp h
    rw [average_concat]
    exact add_nonneg (mul_nonneg h₀ (ih hxs))
      (mul_nonneg (sub_nonneg.mpr h₁) (hx x (List.mem_singleton_self x)))

/-- The latest value shows at once. -/
theorem le_average_concat (h₀ : 0 ≤ w) (h₁ : w ≤ 1) {xs : List K} (h : ∀ x ∈ xs, 0 ≤ x) (x : K) :
    (1 - w) * x ≤ average w (xs ++ [x]) := by
  rw [average_concat]
  exact le_add_of_nonneg_left (mul_nonneg h₀ (average_nonneg h₀ h₁ h))

end Ordered
end Smoothing
