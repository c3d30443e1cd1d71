import Mathlib.Data.List.Infix
import Mathlib.Data.List.TakeWhile

/-! # Searching in texts

The searches of `std::string_view` (`find`, `find_first_of`, `rfind`) with `npos` as `none`,
and the two ways to cut a text at what they return: `upTo` keeps what stands before,
`behind` what stands behind.

What a search and a cut give together is stated without positions, as a way to write the
text: `behind_find_eq_iff`, `upTo_findIdx?_eq_iff`, `behind_rfind_eq_iff` and
`upTo_rfind_eq_iff`.  A part that may be missing is an `Option`, with the character that
closes or opens it (`closedBy`, `openedBy`). -/
namespace TextSearch

section Cut
variable {α : Type}

/-- `(pos == npos) ? s : s.substr(0, pos)`. -/
def upTo : Option Nat → List α → List α
  | none, s => s
  | some i, s => s.take i

/-- `(pos == npos) ? s : s.substr(pos + width)`. -/
def behind (width : Nat) : Option Nat → List α → List α
  | none, s => s
  | some i, s => s.drop (i + width)

theorem upTo_isPrefix (pos : Option Nat) (s : List α) : upTo pos s <+: s := by
  cases pos with
  | none => exact List.prefix_rfl
  | some i => exact List.take_prefix i s

theorem behind_isSuffix (width : Nat) (pos : Option Nat) (s : List α) :
    behind width pos s <:+ s := by
  cases pos with
  | none => exact List.suffix_rfl
  | some i => exact List.drop_suffix (i + width) s

@[simp] theorem upTo_length (pre post : List α) :
    upTo (some pre.length) (pre ++ post) = pre := List.take_left

@[simp] theorem behind_length (pre mid post : List α) :
    behind mid.length (some pre.length) (pre ++ (mid ++ post)) = post := by
  rw [behind, ← List.append_assoc, ← List.length_append, List.drop_left]

end Cut

variable {α : Type} [DecidableEq α]

/-! ## A text in a text -/

/-- `s.find(pat)`. -/
def find (pat : List α) : List α → Option Nat
  | [] => if pat.isPrefixOf [] then some 0 else none
  | c :: s => if pat.isPrefixOf (c :: s) then some 0 else (find pat s).map (· + 1)

theorem find_eq_none_iff {pat s : List α} : find pat s = none ↔ ¬ pat <:+: s := by
  induction s with
  | nil => simp [find]
  | cons c s ih =>
    rw [find, List.infix_cons_iff]
    by_cases h : pat.isPrefixOf (c :: s) = true
    · rw [if_pos h]
      exact iff_of_false nofun (not_not.mpr (.inl (List.isPrefixOf_iff_prefix.mp h)))
    · rw [if_neg h, Option.map_eq_none_iff, ih, not_or, ← List.isPrefixOf_iff_prefix]
      exact (and_iff_right h).symm

/-- The occurrence of `pat` behind `pre` is the first one: none ends earlier. -/
def FirstAt (pat pre : List α) : Prop := ¬ pat <:+: pre ++ pat.dropLast

section FirstAt
variable {pat pre post s : List α} {c : α}

omit [DecidableEq α] in
theorem FirstAt.of_cons (h : FirstAt pat (c :: pre)) : FirstAt pat pre :=
  fun hoccurs => h (List.infix_cons hoccurs)

omit [DecidableEq α] in
theorem front_isPrefix (pat pre post : List α) :
    pre ++ pat.dropLast <+: pre ++ (pat ++ post) :=
  (List.prefix_append_right_inj pre).mpr
    ((List.dropLast_prefix pat).trans (List.prefix_append pat post))

omit [DecidableEq α] in
/-- In front of a first occurrence the text does not occur. -/
theorem FirstAt.not_isPrefix (h : FirstAt pat (c :: pre)) :
    ¬ pat <+: c :: (pre ++ (pat ++ post)) := by
  intro hpat
  refine h (List.prefix_of_prefix_length_le hpat (front_isPrefix pat (c :: pre) post) ?_).isInfix
  simp only [List.length_append, List.length_cons, List.length_dropLast]
  omega

theorem find_append (h : FirstAt pat pre) : find pat (pre ++ (pat ++ post)) = some pre.length := by
  induction pre with
  | nil =>
    have hpre : pat.isPrefixOf (pat ++ post) = true :=
      List.isPrefixOf_iff_prefix.mpr (List.prefix_append pat post)
    rcases hs : pat ++ post with - | ⟨c, s⟩
    · rw [hs] at hpre
      simp [find, hpre]
    · rw [hs] at hpre
      simp [find, hpre]
  | cons c pre ih =>
    have hnot : ¬ pat.isPrefixOf (c :: (pre ++ (pat ++ post))) = true := fun hpre =>
      h.not_isPrefix (List.isPrefixOf_iff_prefix.mp hpre)
    rw [List.cons_append, find, if_neg hnot, ih h.of_cons]
    rfl

omit [DecidableEq α] in
/-- A text that occurs has a first occurrence. -/
theorem exists_firstAt (hpat : pat ≠ []) (h : pat <:+: s) :
    ∃ pre post, s = pre ++ (pat ++ post) ∧ FirstAt pat pre := by
  induction s with
  | nil => exact absurd (List.infix_nil.mp h) hpat
  | cons c s ih =>
    by_cases hhead : pat <+: c :: s
    · obtain ⟨post, hpost⟩ := hhead
      refine ⟨[], post, hpost.symm, fun hoccurs => ?_⟩
      have hlength := hoccurs.length_le
      have hpos := List.length_pos_iff.mpr hpat
      rw [List.nil_append, List.length_dropLast] at hlength
      omega
    · obtain ⟨pre, post, rfl, hfirst⟩ := ih ((List.infix_cons_iff.mp h).resolve_left hhead)
      refine ⟨c :: pre, post, rfl, fun hoccurs => ?_⟩
      rcases List.infix_cons_iff.mp hoccurs with hpre | htail
      · exact hhead (hpre.trans (front_isPrefix pat (c :: pre) post))
      · exact hfirst htail

omit [DecidableEq α] in
/-- Where the first letter does not occur earlier, the text does not. -/
theorem firstAt_of_not_mem (h : c ∉ pre) : FirstAt (c :: pat) pre := by
  induction pre with
  | nil =>
    intro hoccurs
    have hlength := hoccurs.length_le
    rw [List.nil_append, List.length_dropLast, List.length_cons] at hlength
    omega
  | cons x pre ih =>
    rw [List.mem_cons, not_or] at h
    intro hoccurs
    rcases List.infix_cons_iff.mp hoccurs with hhead | htail
    · exact h.1 (List.cons_prefix_cons.mp hhead).1
    · exact ih h.2 htail

/-- What stands behind the first occurrence. -/
theorem behind_find_eq_iff (hpat : pat ≠ []) {t : List α} :
    behind pat.length (find pat s) s = t ↔
      ¬ pat <:+: s ∧ s = t ∨ ∃ pre, s = pre ++ (pat ++ t) ∧ FirstAt pat pre := by
  by_cases hoccurs : pat <:+: s
  · obtain ⟨pre, post, rfl, hfirst⟩ := exists_firstAt hpat hoccurs
    rw [find_append hfirst, behind_length]
    constructor
    · rintro rfl
      exact .inr ⟨pre, rfl, hfirst⟩
    · rintro (⟨hnot, -⟩ | ⟨pre', hsplit, hfirst'⟩)
      · exact absurd hoccurs hnot
      · -- both are the position that is found
        have hfound : find pat (pre' ++ (pat ++ t)) = some pre'.length := find_append hfirst'
        rw [← hsplit, find_append hfirst, Option.some_inj] at hfound
        obtain ⟨-, hpost⟩ := List.append_inj hsplit hfound
        exact List.append_cancel_left hpost
  · rw [find_eq_none_iff.mpr hoccurs, behind]
    constructor
    · rintro rfl
      exact .inl ⟨hoccurs, rfl⟩
    · rintro (⟨-, rfl⟩ | ⟨pre, rfl, -⟩)
      · rfl
      · exact absurd ⟨pre, t, List.append_assoc pre pat t⟩ hoccurs

end FirstAt

/-! ## A character of a set, and the last of its kind -/

omit [DecidableEq α] in
/-- `s.find_first_of(set)` cuts where the characters outside the set end. -/
theorem upTo_findIdx? (p : α → Bool) (s : List α) :
    upTo (s.findIdx? p) s = s.takeWhile fun c => !p c := by
  induction s with
  | nil => rfl
  | cons c s ih =>
    rw [List.findIdx?_cons, List.takeWhile_cons]
    cases hc : p c
    · rw [if_neg Bool.false_ne_true, Bool.not_false, if_pos rfl, ← ih]
      rcases s.findIdx? p with - | i <;> rfl
    · rfl

omit [DecidableEq α] in
/-- What stands before the first character of a set. -/
theorem upTo_findIdx?_eq_iff {p : α → Bool} {s t : List α} :
    upTo (s.findIdx? p) s = t ↔
      (∀ c ∈ t, p c = false) ∧ ∃ post, s = t ++ post ∧ ∀ c ∈ post.head?, p c = true := by
  rw [upTo_findIdx?]
  constructor
  · rintro rfl
    refine ⟨fun c hc => by simpa using List.mem_takeWhile_imp hc,
      s.dropWhile fun c => !p c, List.takeWhile_append_dropWhile.symm, fun c hc => ?_⟩
    have hhead := List.head?_dropWhile_not (fun c => !p c) s
    rw [Option.mem_def.mp hc] at hhead
    simpa using hhead
  · rintro ⟨ht, post, rfl, hpost⟩
    rw [List.takeWhile_append_of_pos fun c hc => by simp [ht c hc]]
    rcases post with - | ⟨c, post⟩
    · simp
    · simp [hpost c rfl]

/-- `s.rfind(c)`. -/
def rfind (a : α) : List α → Option Nat
  | [] => none
  | c :: s =>
      match rfind a s with
      | some i => some (i + 1)
      | none => if c = a then some 0 else none

section Last
variable {a : α} {pre post s : List α}

theorem rfind_of_not_mem (h : a ∉ s) : rfind a s = none := by
  induction s with
  | nil => rfl
  | cons c s ih =>
    rw [List.mem_cons, not_or] at h
    rw [rfind, ih h.2]
    exact if_neg (Ne.symm h.1)

theorem rfind_append (h : a ∉ post) : rfind a (pre ++ a :: post) = some pre.length := by
  induction pre with
  | nil =>
    rw [List.nil_append, rfind, rfind_of_not_mem h]
    exact if_pos rfl
  | cons c pre ih =>
    rw [List.cons_append, rfind, ih]
    rfl

omit [DecidableEq α] in
/-- A character that occurs has a last occurrence. -/
theorem exists_last (h : a ∈ s) : ∃ pre post, s = pre ++ a :: post ∧ a ∉ post := by
  induction s with
  | nil => cases h
  | cons c s ih =>
    by_cases hs : a ∈ s
    · obtain ⟨pre, post, rfl, hpost⟩ := ih hs
      exact ⟨c :: pre, post, rfl, hpost⟩
    · obtain rfl : a = c := (List.mem_cons.mp h).resolve_right hs
      exact ⟨[], s, rfl, hs⟩

/-- There is one last occurrence. -/
theorem eq_of_last {pre' post' : List α} (h : a ∉ post) (h' : a ∉ post')
    (hsplit : pre ++ a :: post = pre' ++ a :: post') : pre = pre' ∧ post = post' := by
  have hfound : rfind a (pre' ++ a :: post') = some pre'.length := rfind_append h'
  rw [← hsplit, rfind_append h, Option.some_inj] at hfound
  obtain ⟨hpre, hpost⟩ := List.append_inj hsplit hfound
  exact ⟨hpre, (List.cons_inj_right a).mp hpost⟩

/-- A part with the character that closes it. -/
def closedBy (a : α) : Option (List α) → List α
  | none => []
  | some u => u ++ [a]

/-- A part with the character that opens it. -/
def openedBy (a : α) : Option (List α) → List α
  | none => []
  | some u => a :: u

section Parts
omit [DecidableEq α]
variable {c : α} {u : Option (List α)}

theorem mem_closedBy (h : c ∈ u.getD []) : c ∈ closedBy a u := by
  cases u with
  | none => cases h
  | some u => exact List.mem_append_left [a] h

theorem mem_openedBy (h : c ∈ u.getD []) : c ∈ openedBy a u := by
  cases u with
  | none => cases h
  | some u => exact List.mem_cons_of_mem a h

theorem of_mem_closedBy (h : c ∈ closedBy a u) : c ∈ u.getD [] ∨ c = a := by
  cases u with
  | none => cases h
  | some u => simpa [closedBy] using h

theorem of_mem_openedBy (h : c ∈ openedBy a u) : c ∈ u.getD [] ∨ c = a := by
  cases u with
  | none => cases h
  | some u => exact (List.mem_cons.mp h).symm

end Parts

/-- What stands behind the last `a`. -/
theorem behind_rfind_eq_iff {t : List α} :
    behind 1 (rfind a s) s = t ↔ a ∉ t ∧ ∃ u, s = closedBy a u ++ t := by
  by_cases hmem : a ∈ s
  · obtain ⟨pre, post, rfl, hpost⟩ := exists_last hmem
    have hbehind : behind 1 (some pre.length) (pre ++ a :: post) = post :=
      behind_length pre [a] post
    rw [rfind_append hpost, hbehind]
    constructor
    · rintro rfl
      exact ⟨hpost, some pre, (List.append_assoc pre [a] post).symm⟩
    · rintro ⟨ht, - | u, hsplit⟩
      · rw [closedBy, List.nil_append] at hsplit
        exact absurd (hsplit ▸ hmem) ht
      · rw [closedBy, List.append_assoc, List.singleton_append] at hsplit
        exact (eq_of_last hpost ht hsplit).2
  · rw [rfind_of_not_mem hmem, behind]
    constructor
    · rintro rfl
      exact ⟨hmem, none, rfl⟩
    · rintro ⟨-, - | u, rfl⟩
      · rfl
      · exact absurd (by simp [closedBy]) hmem

/-- What stands before the last `a`. -/
theorem upTo_rfind_eq_iff {t : List α} :
    upTo (rfind a s) s = t ↔
      ∃ u, s = t ++ openedBy a u ∧ a ∉ u.getD [] ∧ (u = none → a ∉ t) := by
  by_cases hmem : a ∈ s
  · obtain ⟨pre, post, rfl, hpost⟩ := exists_last hmem
    rw [rfind_append hpost, upTo_length]
    constructor
    · rintro rfl
      exact ⟨some post, rfl, hpost, nofun⟩
    · rintro ⟨- | u, hsplit, hu, ht⟩
      · rw [openedBy, List.append_nil] at hsplit
        exact absurd (hsplit ▸ hmem) (ht rfl)
      · exact (eq_of_last hpost hu hsplit).1
  · rw [rfind_of_not_mem hmem, upTo]
    constructor
    · rintro rfl
      exact ⟨none, (List.append_nil s).symm, List.not_mem_nil, fun _ => hmem⟩
    · rintro ⟨- | u, rfl, -⟩
      · exact List.append_nil t
      · exact absurd (by simp [openedBy]) hmem

end Last

end TextSearch
