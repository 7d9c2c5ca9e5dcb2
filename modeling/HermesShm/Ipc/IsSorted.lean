import HermesShm.Ipc.HeapSort

/-! # The check for a sorted range

`is_sorted` of `algorithm.h`, and what it says of the results of the sorts. It asks that
every value comes after the one in front of it, so two values neither of which comes first
make it say no. -/
namespace HermesShm.Ipc.Algorithm
open HermesShm.Base

variable {α : Type}

section
variable (w : Bounds) (cmp : α → α → Bool)

/-- The `for` loop, with `n` turns left. -/
def isSortedLoop (m : ℕ → α) : ℕ → ℕ → ℕ → Option Bool
  | 0, _, _ => some true
  | n + 1, prev, start => do
    let x ← deref w m prev
    let y ← deref w m start
    if !cmp x y then some false
    else isSortedLoop m n (prev + 1) (start + 1)

def isSorted (start end_ : ℕ) (m : ℕ → α) : Option Bool :=
  if start = end_ then some true
  else isSortedLoop w cmp m (end_ - (start + 1)) start (start + 1)

end

/-- The check of the range says yes. -/
def Accepts (c : Comparitor α) (start end_ : ℕ) (m : ℕ → α) : Prop :=
  isSorted ⟨start, end_⟩ c.cmp start end_ m = some true

/-- So does that of what the call leaves. -/
def AcceptsResult (c : Comparitor α) (start end_ : ℕ) (res : Option (ℕ → α)) : Prop :=
  ∃ m', res = some m' ∧ Accepts c start end_ m'

/-- No value is less than its predecessor. -/
def NoneLess (c : Comparitor α) (start end_ : ℕ) (m : ℕ → α) : Prop :=
  ∀ p, start ≤ p → p + 1 < end_ → ¬ c.Rel (m (p + 1)) (m p)

/-- One of two neighbours is less than the other. -/
def NoTies (c : Comparitor α) (start end_ : ℕ) (m : ℕ → α) : Prop :=
  ∀ p, start ≤ p → p + 1 < end_ → c.Rel (m p) (m (p + 1)) ∨ c.Rel (m (p + 1)) (m p)

/-- One of any two values is less than the other. -/
def Distinct (c : Comparitor α) (start end_ : ℕ) (m : ℕ → α) : Prop :=
  ∀ a b, start ≤ a → a < b → b < end_ → c.Rel (m a) (m b) ∨ c.Rel (m b) (m a)

variable {w : Bounds} {c : Comparitor α} {start end_ n p : ℕ} {m m' : ℕ → α}

theorem Distinct.noTies (h : Distinct c start end_ m) : NoTies c start end_ m :=
  fun p hp hp' => h p (p + 1) hp (Nat.lt_succ_self p) hp'

theorem Distinct.of_rearranged (h : Distinct c start end_ m) (hr : Rearranged start end_ m m') :
    Distinct c start end_ m' := by
  intro a b ha hab hb
  obtain ⟨e, he, hm⟩ := hr.exists_perm
  have hea := he a ha (by omega)
  have heb := he b (by omega) hb
  have hne : e a ≠ e b := fun heq => by
    have := e.injective heq
    omega
  rw [hm, hm]
  rcases Nat.lt_or_gt_of_ne hne with hlt | hlt
  · exact h (e a) (e b) hea.1 hlt heb.2
  · exact (h (e b) (e a) heb.1 hlt hea.2).symm

/-! ## What the check says -/

theorem isSortedLoop_spec (hw : w.start ≤ p) (hw' : p + 1 + n ≤ w.end_) :
    ∃ b, isSortedLoop w c.cmp m n p (p + 1) = some b ∧
      (b = true ↔ ∀ q, p ≤ q → q < p + n → c.Rel (m q) (m (q + 1))) := by
  induction n generalizing p with
  | zero => exact ⟨true, rfl, fun _ q hq hq' => by omega, fun _ => rfl⟩
  | succ n ih =>
    have hx := deref_eq (w := w) m hw (by omega)
    have hy := deref_eq (w := w) m (show w.start ≤ p + 1 by omega) (by omega)
    simp only [isSortedLoop, hx, hy, Option.bind_eq_bind, Option.bind_some]
    by_cases hrel : c.cmp (m p) (m (p + 1)) = true
    · obtain ⟨b, he, hb⟩ := ih (p := p + 1) (by omega) (by omega)
      refine ⟨b, by rw [hrel]; exact he, hb.trans ⟨fun h q hq hq' => ?_, fun h q hq hq' => ?_⟩⟩
      · by_cases hqp : q = p
        · rw [hqp]
          exact hrel
        · exact h q (by omega) (by omega)
      · exact h q (by omega) (by omega)
    · refine ⟨false, by rw [Bool.eq_false_of_not_eq_true hrel]; rfl, ⟨fun h => ?_, fun h => ?_⟩⟩
      · cases h
      · exact absurd (h p (Nat.le_refl p) (by omega)) hrel

/-- The check says that every value comes after its predecessor. -/
theorem accepts_iff : Accepts c start (start + n) m ↔
    ∀ p, start ≤ p → p + 1 < start + n → c.Rel (m p) (m (p + 1)) := by
  unfold Accepts isSorted
  by_cases hn : n = 0
  · subst hn
    exact ⟨fun _ p hp hp' => by omega, fun _ => if_pos rfl⟩
  obtain ⟨b, he, hb⟩ := isSortedLoop_spec (w := ⟨start, start + n⟩) (c := c) (m := m) (p := start)
    (n := start + n - (start + 1)) (Nat.le_refl _) (show start + 1 + _ ≤ start + n by omega)
  rw [if_neg (by omega), he, Option.some.injEq, hb]
  exact ⟨fun h p hp hp' => h p hp (by omega), fun h p hp hp' => h p hp (by omega)⟩

/-- The values are then distinct. -/
theorem Accepts.distinct (h : Accepts c start (start + n) m) : Distinct c start (start + n) m := by
  intro a b ha hab hb
  obtain ⟨k, rfl⟩ := Nat.exists_eq_add_of_lt hab
  refine .inl ?_
  induction k with
  | zero => exact accepts_iff.mp h a ha hb
  | succ k ih =>
    exact trans_of c.Rel (ih (by omega) (by omega)) (accepts_iff.mp h (a + k + 1) (by omega) hb)

/-- Without ties it says what it should. -/
theorem NoTies.accepts_iff (h : NoTies c start (start + n) m) :
    Accepts c start (start + n) m ↔ NoneLess c start (start + n) m := by
  rw [Algorithm.accepts_iff]
  exact ⟨fun hacc p hp hp' => not_rel_symm (hacc p hp hp'),
    fun hnone p hp hp' => (h p hp hp').resolve_right (hnone p hp hp')⟩

/-! ## The results of the sorts -/

/-- What has been sorted is accepted if its values are distinct, and not otherwise. -/
theorem Sorts.accepts_iff {res : Option (ℕ → α)} (h : Sorts c start (start + n) m res) :
    AcceptsResult c start (start + n) res ↔ Distinct c start (start + n) m := by
  obtain ⟨m', rfl, hr, hs⟩ := h
  constructor
  · rintro ⟨m₁, he, hacc⟩
    cases he
    exact hacc.distinct.of_rearranged hr.symm
  · intro hd
    refine ⟨m', rfl, (hd.of_rearranged hr).noTies.accepts_iff.mpr ?_⟩
    exact sortedOn_iff_neighbours.mp hs

/-- So too after heap sort, as far as its counters reach. -/
theorem heapSort_accepted (h : AcceptsResult c start (start + n)
      (heapSort ⟨start, start + n⟩ c.cmp start (start + n) m)) :
    Distinct c start (start + n) m ∧ (n ≤ 2 ^ 31 ∨ 2 ^ 32 + 1 < n) := by
  obtain ⟨m', he, hacc⟩ := h
  obtain ⟨m₁, he₁, hr⟩ := heapSort_returns (w := ⟨start, start + n⟩) c (Nat.le_refl _)
    (Nat.le_refl _) m
  rw [he₁] at he
  cases he
  refine ⟨hacc.distinct.of_rearranged hr.symm, ?_⟩
  by_contra hlong
  obtain ⟨m₂, he₂, hheap⟩ := heapSort_long (w := ⟨start, start + n⟩) c (Nat.le_refl _)
    (Nat.le_refl _) m (by omega) (by omega)
  rw [he₁] at he₂
  cases he₂
  -- the root is not less than its left child
  exact hheap 0 (Nat.le_refl 0) 1 (.inl rfl) (by omega)
    (Algorithm.accepts_iff.mp hacc start (Nat.le_refl _) (by omega))

/-- **The check accepts what has no ties.** It says whether no value is less than its
predecessor exactly where one is, or where no two neighbours tie. It says yes to the result
of a sort exactly where no two of the values tie; heap sort does not sort ranges of more than
`2 ^ 31` values. -/
theorem isSorted_accepts (c : Comparitor α) (start n : ℕ) (m : ℕ → α) :
    ((Accepts c start (start + n) m ↔ NoneLess c start (start + n) m) ↔
      ¬ NoneLess c start (start + n) m ∨ NoTies c start (start + n) m) ∧
    (∀ cutoff, AcceptsResult c start (start + n)
      (sort ⟨start, start + n⟩ c.cmp cutoff start (start + n) m) ↔
        Distinct c start (start + n) m) ∧
    (AcceptsResult c start (start + n)
      (quickSort ⟨start, start + n⟩ c.cmp start (start + n) m) ↔
        Distinct c start (start + n) m) ∧
    (AcceptsResult c start (start + n)
      (insertionSort ⟨start, start + n⟩ c.cmp start (start + n) m) ↔
        Distinct c start (start + n) m) ∧
    (Distinct c start (start + n) m ∧ n ≤ 2 ^ 31 → AcceptsResult c start (start + n)
      (heapSort ⟨start, start + n⟩ c.cmp start (start + n) m)) ∧
    (AcceptsResult c start (start + n)
      (heapSort ⟨start, start + n⟩ c.cmp start (start + n) m) →
        Distinct c start (start + n) m ∧ (n ≤ 2 ^ 31 ∨ 2 ^ 32 + 1 < n)) := by
  have hle := Nat.le_refl start
  have hle' := Nat.le_refl (start + n)
  have hstart := Nat.le_add_right start n
  refine ⟨⟨fun h => ?_, fun h => ?_⟩, fun cutoff => ?_,
    (quickSort_sorts c hle hle' hstart).accepts_iff,
    (insertionSort_sorts hle hle' hstart).accepts_iff, fun h => ?_, heapSort_accepted⟩
  · by_cases hnone : NoneLess c start (start + n) m
    · exact .inr (h.mpr hnone).distinct.noTies
    · exact .inl hnone
  · rcases h with hless | hties
    · refine iff_of_false (fun hacc => hless fun p hp hp' => ?_) hless
      exact not_rel_symm (accepts_iff.mp hacc p hp hp')
    · exact hties.accepts_iff
  · exact (sort_spec c cutoff hle hle' hstart).accepts_iff
  · exact (heapSort_spec c hle hle' h.2).accepts_iff.mpr h.1

/-- Two equal numbers, which `sort` leaves as they are. -/
theorem not_accepts_equal :
    ¬ (Accepts lessThan 0 2 (fun _ => 1) ↔ NoneLess lessThan 0 2 fun _ => 1) ∧
    ¬ AcceptsResult lessThan 0 2
      (sort ⟨0, 2⟩ lessThan.cmp INSERT_SORT_CUTOFF 0 2 fun _ => 1) := by
  have hties : ¬ Distinct lessThan 0 (0 + 2) fun _ => 1 := fun h => by
    have := h 0 1 (Nat.le_refl 0) Nat.zero_lt_one (Nat.lt_succ_self 1)
    simp [Comparitor.Rel, lessThan] at this
  have hnone : NoneLess lessThan 0 2 fun _ => 1 := fun p _ _ => by
    simp [Comparitor.Rel, lessThan]
  have hsort : Sorts lessThan 0 (0 + 2) (fun _ => 1)
      (sort ⟨0, 2⟩ lessThan.cmp INSERT_SORT_CUTOFF 0 2 fun _ => 1) :=
    sort_spec lessThan _ (Nat.le_refl 0) (Nat.le_refl 2) (Nat.zero_le 2)
  exact ⟨fun h => hties (h.mpr hnone).distinct, fun h => hties (hsort.accepts_iff.mp h)⟩

end HermesShm.Ipc.Algorithm
