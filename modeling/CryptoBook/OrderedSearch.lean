import Mathlib.Order.Defs.Unbundled

/-! # Ordered lists and the search for a partition point

A list is *ordered* when its keys increase strictly along a relation `worse`, so
its last element is its best one.  `partitionPoint` is the binary search of
`std::lower_bound` over the half-open range `[lo, hi)`, driven by the test alone:
it knows nothing of the list.  When the test is true exactly below some position
it returns that position (`partitionPoint_eq`), and on an ordered list the
position splits the list into the elements worse than the probed key and the
others (`exists_split`).  Everything that an indexed update does to an ordered list is then
read off the two halves.

Nothing here knows what is stored: keys are any type with a strict total order. -/
namespace OrderedSearch

/-! ## The search -/

/-- `while (lo < hi) { mid = lo + (hi - lo) / 2; test(mid) ? lo = mid + 1 : hi = mid }`,
returning `lo`.  `fuel` bounds the recursion; each round shortens `[lo, hi)`. -/
def partitionPoint (test : Nat → Bool) : Nat → Nat → Nat → Nat
  | 0, lo, _ => lo
  | fuel + 1, lo, hi =>
      if lo < hi then
        let mid := lo + (hi - lo) / 2
        if test mid then partitionPoint test fuel (mid + 1) hi
        else partitionPoint test fuel lo mid
      else lo

/-- **The search finds the partition point.**  If the test is true below `k`, false
from `k` on, and `k` lies in the searched range, the result is `k`. -/
theorem partitionPoint_eq {test : Nat → Bool} {n k : Nat}
    (hbelow : ∀ i, i < k → test i = true) (habove : ∀ i, k ≤ i → i < n → test i = false) :
    ∀ fuel lo hi, hi - lo ≤ fuel → lo ≤ k → k ≤ hi → hi ≤ n →
      partitionPoint test fuel lo hi = k := by
  intro fuel
  induction fuel with
  | zero =>
    intro lo hi hf hlo hhi _
    show lo = k
    omega
  | succ fuel ih =>
    intro lo hi hf hlo hhi hn
    unfold partitionPoint
    by_cases hlt : lo < hi
    · rw [if_pos hlt]
      show (if test (lo + (hi - lo) / 2) = true then _ else _) = k
      by_cases hmid : lo + (hi - lo) / 2 < k
      · rw [if_pos (hbelow _ hmid)]
        exact ih _ _ (by omega) (by omega) hhi hn
      · rw [if_neg (by rw [habove _ (by omega) (by omega)]; simp)]
        exact ih _ _ (by omega) hlo (by omega) (by omega)
    · rw [if_neg hlt]
      omega

/-! ## Ordered lists -/

section Ordered
variable {α κ : Type} (worse : κ → κ → Prop) (key : α → κ)

/-- Keys strictly improve along the list: the worst element is first, the best last. -/
def Ordered (l : List α) : Prop := l.Pairwise (fun a b => worse (key a) (key b))

variable {worse key}

theorem ordered_nil : Ordered worse key [] := List.Pairwise.nil

theorem ordered_append {x y : List α} : Ordered worse key (x ++ y) ↔
    Ordered worse key x ∧ Ordered worse key y ∧
      ∀ a ∈ x, ∀ b ∈ y, worse (key a) (key b) := List.pairwise_append

theorem ordered_cons {a : α} {l : List α} : Ordered worse key (a :: l) ↔
    (∀ b ∈ l, worse (key a) (key b)) ∧ Ordered worse key l := List.pairwise_cons

variable [IsStrictTotalOrder κ worse]

/-- **The partition point splits an ordered list.**  Searching for `x` returns the
length of the part worse than `x`; what follows it is not worse than `x`. -/
theorem exists_split [DecidableRel worse] {l : List α} (hl : Ordered worse key l) (x : κ) :
    ∃ lo hi, l = lo ++ hi ∧ (∀ a ∈ lo, worse (key a) x) ∧ (∀ a ∈ hi, ¬ worse (key a) x) ∧
      partitionPoint (fun i => l[i]?.any fun a => decide (worse (key a) x)) l.length 0 l.length
        = lo.length := by
  have hsplit : ∃ lo hi, l = lo ++ hi ∧ (∀ a ∈ lo, worse (key a) x) ∧
      (∀ a ∈ hi, ¬ worse (key a) x) := by
    induction l with
    | nil => exact ⟨[], [], rfl, by simp, by simp⟩
    | cons c l ih =>
      obtain ⟨hc, hl⟩ := ordered_cons.mp hl
      by_cases hcx : worse (key c) x
      · obtain ⟨lo, hi, rfl, hlo, hhi⟩ := ih hl
        refine ⟨c :: lo, hi, rfl, ?_, hhi⟩
        intro a ha
        rcases List.mem_cons.mp ha with rfl | ha
        · exact hcx
        · exact hlo a ha
      · refine ⟨[], c :: l, rfl, by simp, ?_⟩
        intro a ha hax
        rcases List.mem_cons.mp ha with rfl | ha
        · exact hcx hax
        · exact hcx (trans_of worse (hc a ha) hax)
  obtain ⟨lo, hi, rfl, hlo, hhi⟩ := hsplit
  refine ⟨lo, hi, rfl, hlo, hhi, partitionPoint_eq ?_ ?_ _ _ _ (by omega) (by omega)
    (by simp) (Nat.le_refl _)⟩
  · intro i hi'
    rw [List.getElem?_append_left hi', List.getElem?_eq_getElem hi']
    simpa using hlo _ (List.getElem_mem hi')
  · intro i hge hlt
    rw [List.length_append] at hlt
    have hi' : i - lo.length < hi.length := by omega
    rw [List.getElem?_append_right hge, List.getElem?_eq_getElem hi']
    simpa using hhi _ (List.getElem_mem hi')

omit [IsStrictTotalOrder κ worse] in
/-- An ordered list is determined by its elements. -/
theorem Ordered.eq_of_mem_iff [Std.Irrefl worse] [IsTrans κ worse] {x y : List α}
    (hx : Ordered worse key x) (hy : Ordered worse key y) (h : ∀ a, a ∈ x ↔ a ∈ y) : x = y := by
  induction x generalizing y with
  | nil =>
    cases y with
    | nil => rfl
    | cons b y => cases (h b).mpr List.mem_cons_self
  | cons a x ih =>
    cases y with
    | nil => cases (h a).mp List.mem_cons_self
    | cons b y =>
      obtain ⟨ha, hx'⟩ := ordered_cons.mp hx
      obtain ⟨hb, hy'⟩ := ordered_cons.mp hy
      -- each head is in the other list, and nothing precedes a head
      obtain rfl : a = b := by
        rcases List.mem_cons.mp ((h a).mp List.mem_cons_self) with he | hay
        · exact he
        · rcases List.mem_cons.mp ((h b).mpr List.mem_cons_self) with he | hbx
          · exact he.symm
          · exact absurd (trans_of worse (ha b hbx) (hb a hay)) (irrefl_of worse _)
      refine congrArg (a :: ·) (ih hx' hy' fun c => ⟨fun hc => ?_, fun hc => ?_⟩)
      · rcases List.mem_cons.mp ((h c).mp (List.mem_cons_of_mem _ hc)) with rfl | hcy
        · exact absurd (ha c hc) (irrefl_of worse _)
        · exact hcy
      · rcases List.mem_cons.mp ((h c).mpr (List.mem_cons_of_mem _ hc)) with rfl | hcx
        · exact absurd (hb c hc) (irrefl_of worse _)
        · exact hcx

end Ordered

/-! ## The front of a list -/

section Front
variable {α : Type}

theorem take_eq_take_iff_getElem? {x y : List α} {n : Nat} :
    x.take n = y.take n ↔ ∀ i, i < n → x[i]? = y[i]? := by
  constructor
  · intro h i hi
    rw [← List.getElem?_take_of_lt hi, h, List.getElem?_take_of_lt hi]
  · intro h
    refine List.ext_getElem? fun i => ?_
    by_cases hi : i < n
    · rw [List.getElem?_take_of_lt hi, List.getElem?_take_of_lt hi]
      exact h i hi
    · rw [List.getElem?_take_eq_none (by omega), List.getElem?_take_eq_none (by omega)]

/-- A filter that keeps enough elements has the same front exactly if it keeps the front. -/
theorem take_filter_eq_take_iff {p : α → Bool} {l : List α} {n : Nat}
    (hn : n ≤ (l.filter p).length) :
    (l.filter p).take n = l.take n ↔ ∀ a ∈ l.take n, p a = true := by
  constructor
  · intro h a ha
    rw [← h] at ha
    exact (List.mem_filter.mp (List.mem_of_mem_take ha)).2
  · intro h
    have hsplit : l.filter p = l.take n ++ (l.drop n).filter p := by
      rw [← List.filter_eq_self.mpr h, ← List.filter_append, List.take_append_drop]
    have hlen : (l.take n).length = n := by
      rw [List.length_take]
      exact Nat.min_eq_left (Nat.le_trans hn (List.length_filter_le ..))
    rw [hsplit]
    exact List.take_left' hlen

end Front

/-! ## Indexed updates at a split -/

section Split
variable {α : Type} (lo hi : List α)

theorem insertIdx_split (v : α) : (lo ++ hi).insertIdx lo.length v = lo ++ v :: hi :=
  List.modifyTailIdx_add (List.cons v) 0 lo hi

theorem modify_split (f : α → α) (a : α) :
    (lo ++ a :: hi).modify lo.length f = lo ++ f a :: hi :=
  List.modifyTailIdx_add (List.modifyHead f) 0 lo (a :: hi)

theorem eraseIdx_split (a : α) : (lo ++ a :: hi).eraseIdx lo.length = lo ++ hi := by
  rw [List.eraseIdx_append_of_length_le (Nat.le_refl _), Nat.sub_self, List.eraseIdx_cons_zero]

/-- A position that exists splits the list. -/
theorem exists_split_of_getElem? {l : List α} {i : Nat} {a : α} (h : l[i]? = some a) :
    ∃ lo hi, l = lo ++ a :: hi ∧ i = lo.length := by
  obtain ⟨hlt, rfl⟩ := List.getElem?_eq_some_iff.mp h
  refine ⟨l.take i, l.drop (i + 1), ?_, ?_⟩
  · rw [← List.drop_eq_getElem_cons, List.take_append_drop]
  · rw [List.length_take, Nat.min_eq_left (Nat.le_of_lt hlt)]

/-- The element in the middle, and the others. -/
theorem mem_middle {lo hi : List α} {s a : α} : a ∈ lo ++ s :: hi ↔ a = s ∨ a ∈ lo ++ hi := by
  rw [List.perm_middle.mem_iff, List.mem_cons]

/-- Replacing one element loses at most that element. -/
theorem mem_replace {lo hi : List α} {s a : α} (s' : α) (h : a ∈ lo ++ s :: hi) :
    a = s ∨ a ∈ lo ++ s' :: hi := by
  rcases mem_middle.mp h with rfl | hother
  · exact Or.inl rfl
  · exact Or.inr (mem_middle.mpr (Or.inr hother))

end Split

end OrderedSearch
