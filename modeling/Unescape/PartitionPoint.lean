set_option autoImplicit false

/-! # Binary search for the end of a prefix

Where a property holds of a front part of an array and of nothing behind it, `partitionPoint` finds
the length of that part with logarithmically many tests. `lt_partitionPoint_iff` characterises the
answer. -/

namespace Unescape

variable {α : Type}

/-- Search between `lo` and `hi`, when the elements before `lo` have the property and those from
    `hi` on lack it. -/
def partitionPointBetween (p : α → Bool) (a : Array α) (lo hi : Nat) (h : hi ≤ a.size) : Nat :=
  if hlt : lo < hi then
    let mid := (lo + hi) / 2
    have hmid : mid < a.size := by omega
    if p a[mid] then partitionPointBetween p a (mid + 1) hi h
    else partitionPointBetween p a lo mid (by omega)
  else lo
termination_by hi - lo
decreasing_by all_goals omega

/-- The number of elements in the front part of an array that has a property. -/
def partitionPoint (p : α → Bool) (a : Array α) : Nat :=
  partitionPointBetween p a 0 a.size (Nat.le_refl _)

/-- The property holds of a front part only. -/
def IsPartitioned (p : α → Bool) (a : Array α) : Prop :=
  ∀ i j (_ : i ≤ j) (_ : j < a.size), p a[j] = true → p a[i] = true

theorem partitionPointBetween_bounds {p : α → Bool} {a : Array α} {lo hi : Nat} (h : hi ≤ a.size)
    (hle : lo ≤ hi) :
    lo ≤ partitionPointBetween p a lo hi h ∧ partitionPointBetween p a lo hi h ≤ hi := by
  fun_induction partitionPointBetween p a lo hi h with
  | case1 lo hi h hlt mid hmid hp ih => have := ih (by omega); omega
  | case2 lo hi h hlt mid hmid hp ih => have := ih (by omega); omega
  | case3 lo hi h hlt => omega

theorem partitionPoint_le (p : α → Bool) (a : Array α) : partitionPoint p a ≤ a.size :=
  (partitionPointBetween_bounds _ (Nat.zero_le _)).2

theorem lt_partitionPointBetween_iff {p : α → Bool} {a : Array α} (hp : IsPartitioned p a)
    {lo hi : Nat} (h : hi ≤ a.size) (hle : lo ≤ hi)
    (hlo : ∀ i (hi : i < a.size), i < lo → p a[i] = true)
    (hhi : ∀ i (hi' : i < a.size), hi ≤ i → p a[i] = false) (i : Nat) (hi' : i < a.size) :
    i < partitionPointBetween p a lo hi h ↔ p a[i] = true := by
  fun_induction partitionPointBetween p a lo hi h with
  | case1 lo hi h hlt mid hmid hm ih =>
    refine ih (by omega) (fun j hj hjm => ?_) hhi
    exact hp j mid (by omega) hmid hm
  | case2 lo hi h hlt mid hmid hm ih =>
    refine ih (by omega) hlo (fun j hj hjm => ?_)
    cases hj' : p a[j] with
    | false => rfl
    | true => exact absurd (hp mid j hjm hj hj') (by simpa using hm)
  | case3 lo hi h hlt =>
    constructor
    · exact hlo i hi'
    · intro hpi
      by_cases hil : i < lo
      · exact hil
      · have := hhi i hi' (by omega)
        simp_all

/-- The elements before the partition point are those with the property. -/
theorem lt_partitionPoint_iff {p : α → Bool} {a : Array α} (hp : IsPartitioned p a) (i : Nat)
    (hi : i < a.size) : i < partitionPoint p a ↔ p a[i] = true :=
  lt_partitionPointBetween_iff hp (Nat.le_refl _) (Nat.zero_le _) (fun _ _ h => by omega)
    (fun _ _ h => by omega) i hi

variable {β : Type}

theorem partitionPointBetween_map (p : β → Bool) (f : α → β) (a : Array α) {lo hi : Nat}
    (h : hi ≤ a.size) (h' : hi ≤ (a.map f).size) :
    partitionPointBetween p (a.map f) lo hi h' = partitionPointBetween (fun x => p (f x)) a lo hi h := by
  fun_induction partitionPointBetween (fun x => p (f x)) a lo hi h with
  | case1 lo hi h hlt mid hmid hp ih =>
    rw [partitionPointBetween, dif_pos hlt, ← ih h']
    simp [mid, hp]
  | case2 lo hi h hlt mid hmid hp ih =>
    rw [partitionPointBetween, dif_pos hlt, ← ih (by omega)]
    simp [mid, hp]
  | case3 lo hi h hlt => rw [partitionPointBetween, dif_neg hlt]

/-- A property of the images of the elements is searched for among the images. -/
theorem partitionPoint_map (p : β → Bool) (f : α → β) (a : Array α) :
    partitionPoint p (a.map f) = partitionPoint (fun x => p (f x)) a := by
  simp only [partitionPoint, Array.size_map]
  exact partitionPointBetween_map p f a (Nat.le_refl _) _

end Unescape
