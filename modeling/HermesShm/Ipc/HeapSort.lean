import HermesShm.Ipc.Algorithm
import HermesShm.Memory.MpPage

/-! # Heap sort

`heap_sort` of `algorithm.h`, whose loops count with an `int`. The node `i` of the heap is
the value at `start + i`, and its children are the nodes `2 i + 1` and `2 i + 2`. -/
namespace HermesShm.Ipc.Algorithm
open HermesShm.Base
open HermesShm.Memory (sizeT)

variable {α : Type}

section
variable (w : Bounds) (cmp : α → α → Bool) (start : ℕ)

/-- The greater of `largest` and its child, if it has one there. -/
def greater (n : ℕ) (m : ℕ → α) (largest child : ℕ) : Option ℕ :=
  if child < n then do
    let x ← deref w m (start + largest)
    let y ← deref w m (start + child)
    some (if cmp x y then child else largest)
  else some largest

/-- The two comparisons of `heapify`. -/
def largestOf (n i : ℕ) (m : ℕ → α) : Option ℕ := do
  let largest ← greater w cmp start n m i (2 * i + 1)
  greater w cmp start n m largest (2 * i + 2)

theorem greater_cases {n largest child l : ℕ} {m : ℕ → α}
    (h : greater w cmp start n m largest child = some l) :
    l = largest ∨ l = child ∧ child < n := by
  unfold greater at h
  split at h
  · rename_i hchild
    obtain ⟨x, -, h⟩ := Option.bind_eq_some_iff.mp h
    obtain ⟨y, -, h⟩ := Option.bind_eq_some_iff.mp h
    cases h
    split
    · exact .inr ⟨rfl, hchild⟩
    · exact .inl rfl
  · cases h
    exact .inl rfl

theorem largestOf_cases {n i l : ℕ} {m : ℕ → α} (h : largestOf w cmp start n i m = some l) :
    l = i ∨ i < l ∧ l < n := by
  obtain ⟨l', h₁, h₂⟩ := Option.bind_eq_some_iff.mp h
  have h₁ := greater_cases w cmp start h₁
  have h₂ := greater_cases w cmp start h₂
  omega

/-- The indices do not wrap: they are less than `n`, a difference of iterators. -/
def heapify (n i : ℕ) (m : ℕ → α) : Option (ℕ → α) :=
  match _h : largestOf w cmp start n i m with
  | none => none
  | some largest =>
    if _hne : largest ≠ i then do
      let m ← swap w m (start + i) (start + largest)
      heapify n largest m
    else some m
termination_by n - i
decreasing_by
  have := largestOf_cases w cmp start _h
  omega

/-- "Build heap", with `i` from `k - 1` down to 0. -/
def buildHeap (n : ℕ) : ℕ → (ℕ → α) → Option (ℕ → α)
  | 0, m => some m
  | k + 1, m => do
    let m ← heapify w cmp start n k m
    buildHeap n k m

/-- A turn of "Extract elements from heap one by one". -/
def extract (i : ℕ) (m : ℕ → α) : Option (ℕ → α) := do
  let m ← swap w m start (start + i)
  heapify w cmp start i 0 m

/-- With `i` from `k` down to 1. -/
def extractAll : ℕ → (ℕ → α) → Option (ℕ → α)
  | 0, m => some m
  | k + 1, m => do
    let m ← extract w cmp start (k + 1) m
    extractAll k m

/-- The loop does not start where the counter is negative. -/
def build (n : ℕ) (m : ℕ → α) : Option (ℕ → α) :=
  buildHeap w cmp start n (toInt (wordSub sizeT (n / 2) 1) + 1).toNat m

def extractElements (n : ℕ) (m : ℕ → α) : Option (ℕ → α) :=
  extractAll w cmp start (toInt (wordSub sizeT n 1)).toNat m

def heapSort (end_ : ℕ) (m : ℕ → α) : Option (ℕ → α) := do
  let m ← build w cmp start (end_ - start) m
  extractElements w cmp start (end_ - start) m

end

variable {w : Bounds} {c : Comparitor α} {start n i k : ℕ} {m m' : ℕ → α}

/-! ## Heaps -/

def IsChild (p d : ℕ) : Prop := d = 2 * p + 1 ∨ d = 2 * p + 2

/-- The node `p` does not come before its children. -/
def HeapNode (c : Comparitor α) (m : ℕ → α) (start n p : ℕ) : Prop :=
  ∀ d, IsChild p d → d < n → ¬ c.Rel (m (start + p)) (m (start + d))

/-- The nodes from `k` on do not come before their children. -/
def HeapFrom (c : Comparitor α) (m : ℕ → α) (start n k : ℕ) : Prop :=
  ∀ p, k ≤ p → HeapNode c m start n p

/-- The max-heap property. -/
def Heap (c : Comparitor α) (m : ℕ → α) (start n : ℕ) : Prop := HeapFrom c m start n 0

/-- The node `i` may come before its children, which its parent does not. -/
structure HeapBut (c : Comparitor α) (m : ℕ → α) (start n k i : ℕ) : Prop where
  node : ∀ p, k ≤ p → p ≠ i → HeapNode c m start n p
  above : ∀ p, k ≤ p → IsChild p i → ∀ d, IsChild i d → d < n →
    ¬ c.Rel (m (start + p)) (m (start + d))

/-- No node comes after the root. -/
theorem Heap.root (h : Heap c m start n) (hi : i < n) : ¬ c.Rel (m start) (m (start + i)) := by
  induction i using Nat.strongRecOn with
  | ind i ih =>
    rcases Nat.eq_zero_or_pos i with rfl | hpos
    · exact irrefl_of c.Rel _
    · have hchild : IsChild ((i - 1) / 2) i := by
        unfold IsChild
        omega
      exact not_rel_trans (ih ((i - 1) / 2) (by omega) (by omega)) (h _ (Nat.zero_le _) i hchild hi)

/-! ## Repairing a heap -/

theorem greater_spec {largest : ℕ} (hw : w.start ≤ start) (hw' : start + n ≤ w.end_)
    (hl : largest < n) (child : ℕ) (m : ℕ → α) :
    ∃ l, greater w c.cmp start n m largest child = some l ∧
      (l = largest ∧ (child < n → ¬ c.Rel (m (start + largest)) (m (start + child))) ∨
        l = child ∧ child < n ∧ c.Rel (m (start + largest)) (m (start + child))) := by
  unfold greater
  by_cases hchild : child < n
  · have hx := deref_eq (w := w) m (show w.start ≤ start + largest by omega) (by omega)
    have hy := deref_eq (w := w) m (show w.start ≤ start + child by omega) (by omega)
    simp only [if_pos hchild, hx, hy, Option.bind_eq_bind, Option.bind_some]
    by_cases hrel : c.cmp (m (start + largest)) (m (start + child)) = true
    · exact ⟨child, by rw [if_pos hrel], .inr ⟨rfl, hchild, hrel⟩⟩
    · exact ⟨largest, by rw [if_neg hrel], .inl ⟨rfl, fun _ => hrel⟩⟩
  · exact ⟨largest, if_neg hchild, .inl ⟨rfl, fun h => absurd h hchild⟩⟩

/-- The greatest of a node and its children. -/
theorem largestOf_spec (hw : w.start ≤ start) (hw' : start + n ≤ w.end_) (hi : i < n)
    (m : ℕ → α) :
    ∃ l, largestOf w c.cmp start n i m = some l ∧
      (l = i ∧ HeapNode c m start n i ∨
        IsChild i l ∧ l < n ∧ c.Rel (m (start + i)) (m (start + l)) ∧
          ∀ d, IsChild i d → d < n → ¬ c.Rel (m (start + l)) (m (start + d))) := by
  obtain ⟨l₁, h₁, hl₁⟩ := greater_spec (c := c) hw hw' hi (2 * i + 1) m
  have hn₁ : l₁ < n := by omega
  obtain ⟨l₂, h₂, hl₂⟩ := greater_spec (c := c) hw hw' hn₁ (2 * i + 2) m
  refine ⟨l₂, by rw [largestOf, h₁, Option.bind_eq_bind, Option.bind_some, h₂], ?_⟩
  rcases hl₁ with ⟨rfl, hleft⟩ | ⟨rfl, hleft, hrel⟩ <;>
    rcases hl₂ with ⟨rfl, hright⟩ | ⟨rfl, hright, hrel₂⟩
  · refine .inl ⟨rfl, fun d hd hdn => ?_⟩
    rcases hd with rfl | rfl
    · exact hleft hdn
    · exact hright hdn
  · refine .inr ⟨.inr rfl, hright, hrel₂, fun d hd hdn => ?_⟩
    rcases hd with rfl | rfl
    · exact fun h => hleft hdn (trans_of c.Rel hrel₂ h)
    · exact irrefl_of c.Rel _
  · refine .inr ⟨.inl rfl, hleft, hrel, fun d hd hdn => ?_⟩
    rcases hd with rfl | rfl
    · exact irrefl_of c.Rel _
    · exact hright hdn
  · refine .inr ⟨.inr rfl, hright, trans_of c.Rel hrel hrel₂, fun d hd hdn => ?_⟩
    rcases hd with rfl | rfl
    · exact not_rel_symm hrel₂
    · exact irrefl_of c.Rel _

/-- The greater child goes up, and the place that may be wrong goes down. -/
theorem HeapBut.descend {l : ℕ} (h : HeapBut c m start n k i) (hchild : IsChild i l)
    (hln : l < n) (hrel : c.Rel (m (start + i)) (m (start + l)))
    (hmax : ∀ d, IsChild i d → d < n → ¬ c.Rel (m (start + l)) (m (start + d))) :
    HeapBut c (swapped m (start + i) (start + l)) start n k l := by
  have hil : i < l := by
    unfold IsChild at hchild
    omega
  have hother : ∀ x, x ≠ i → x ≠ l →
      swapped m (start + i) (start + l) (start + x) = m (start + x) :=
    fun x hxi hxl => swapped_of_ne (by omega) (by omega)
  refine ⟨fun p hp hpl d hd hdn => ?_, fun p hp hpl d hd hdn => ?_⟩
  · by_cases hpi : p = i
    · subst hpi
      rw [swapped_left]
      by_cases hdl : d = l
      · rw [hdl, swapped_right]
        exact not_rel_symm hrel
      · rw [hother d (by unfold IsChild at hd; omega) hdl]
        exact hmax d hd hdn
    have hdl : d ≠ l := by
      unfold IsChild at hd hchild
      omega
    rw [hother p hpi hpl]
    by_cases hdi : d = i
    · rw [hdi, swapped_left]
      exact h.above p hp (hdi ▸ hd) l hchild hln
    · rw [hother d hdi hdl]
      exact h.node p hp hpi d hd hdn
  · have hpi : p = i := by
      unfold IsChild at hpl hchild
      omega
    subst hpi
    rw [swapped_left, hother d (by unfold IsChild at hd; omega) (by unfold IsChild at hd; omega)]
    exact h.node l (by omega) (by omega) d hd hdn

theorem heapify_heap_of {fuel : ℕ} (hw : w.start ≤ start) (hw' : start + n ≤ w.end_) (hi : i < n)
    (hfuel : n - i ≤ fuel) (h : HeapBut c m start n k i) :
    ∃ m', heapify w c.cmp start n i m = some m' ∧ Rearranged start (start + n) m m' ∧
      HeapFrom c m' start n k := by
  induction fuel generalizing i m with
  | zero => omega
  | succ fuel ih =>
    obtain ⟨l, hl, hcases⟩ := largestOf_spec (c := c) hw hw' hi m
    rw [heapify]
    split
    · rename_i hnone
      rw [hl] at hnone
      cases hnone
    rename_i hsome
    rw [hl] at hsome
    cases hsome
    rcases hcases with ⟨rfl, hnode⟩ | ⟨hchild, hln, hrel, hmax⟩
    · refine ⟨m, dif_neg (not_not_intro rfl), .refl .., fun p hp => ?_⟩
      by_cases hpl : p = l
      · exact hpl ▸ hnode
      · exact h.node p hp hpl
    · have hil : i < l := by
        unfold IsChild at hchild
        omega
      have hswap := swap_eq (w := w) m (show w.start ≤ start + i by omega) (by omega)
        (show w.start ≤ start + l by omega) (by omega)
      obtain ⟨m', he, hr, hm⟩ := ih hln (by omega) (h.descend hchild hln hrel hmax)
      refine ⟨m', ?_, (rearranged_swapped m (by omega) (by omega) (by omega) (by omega)).trans hr,
        hm⟩
      rw [dif_pos (Nat.ne_of_gt hil), hswap, Option.bind_eq_bind, Option.bind_some, he]

/-- `heapify` repairs the heap below a node, and comes to an end. -/
theorem heapify_heap (hw : w.start ≤ start) (hw' : start + n ≤ w.end_) (hi : i < n)
    (h : HeapBut c m start n k i) :
    ∃ m', heapify w c.cmp start n i m = some m' ∧ Rearranged start (start + n) m m' ∧
      HeapFrom c m' start n k := heapify_heap_of hw hw' hi (Nat.le_refl _) h

/-- It does so in any range, which need not hold a heap. -/
theorem heapify_returns (c : Comparitor α) (hw : w.start ≤ start) (hw' : start + n ≤ w.end_)
    (hi : i < n) (m : ℕ → α) :
    ∃ m', heapify w c.cmp start n i m = some m' ∧ Rearranged start (start + n) m m' := by
  have hbut : HeapBut c m start n n i := by
    refine ⟨fun p hp _ d hd hdn => ?_, fun p hp hpi => ?_⟩
    · unfold IsChild at hd
      omega
    · unfold IsChild at hpi
      omega
  obtain ⟨m', he, hr, -⟩ := heapify_heap hw hw' hi hbut
  exact ⟨m', he, hr⟩

/-! ## Building the heap -/

theorem heapFrom_half (c : Comparitor α) (m : ℕ → α) (start n : ℕ) :
    HeapFrom c m start n (n / 2) := by
  intro p hp d hd hdn
  unfold IsChild at hd
  omega

theorem buildHeap_heap (hw : w.start ≤ start) (hw' : start + n ≤ w.end_) (hk : k ≤ n)
    (h : HeapFrom c m start n k) :
    ∃ m', buildHeap w c.cmp start n k m = some m' ∧ Rearranged start (start + n) m m' ∧
      Heap c m' start n := by
  induction k generalizing m with
  | zero => exact ⟨m, rfl, .refl .., h⟩
  | succ k ih =>
    obtain ⟨m₁, he, hr, hm⟩ := heapify_heap (k := k) (i := k) hw hw' hk
      ⟨fun p hp hpk => h p (by omega), fun p hp hpk => by unfold IsChild at hpk; omega⟩
    obtain ⟨m', he', hr', hm'⟩ := ih (by omega) hm
    exact ⟨m', by rw [buildHeap, he, Option.bind_eq_bind, Option.bind_some, he'], hr.trans hr', hm'⟩

/-! ## Extracting -/

theorem extract_heap (hw : w.start ≤ start) (hw' : start + i < w.end_) (hi : 0 < i)
    (h : Heap c m start (i + 1)) :
    ∃ m', extract w c.cmp start i m = some m' ∧ Rearranged start (start + i + 1) m m' ∧
      Heap c m' start i ∧ m' (start + i) = m start := by
  have hswap := swap_eq (w := w) m hw (by omega) (show w.start ≤ start + i by omega) hw'
  have hbut : HeapBut c (swapped m start (start + i)) start i 0 0 := by
    refine ⟨fun p hp hp₀ d hd hdn => ?_, fun p hp hp₀ => by unfold IsChild at hp₀; omega⟩
    have hdp : 0 < d ∧ p < d := by
      unfold IsChild at hd
      omega
    rw [swapped_of_ne (by omega) (by omega), swapped_of_ne (by omega) (by omega)]
    exact h p hp d hd (by omega)
  obtain ⟨m', he, hr, hm⟩ := heapify_heap (w := w) hw (by omega) hi hbut
  refine ⟨m', ?_, ?_, hm, ?_⟩
  · rw [extract, hswap, Option.bind_eq_bind, Option.bind_some, he]
  · exact (rearranged_swapped m (Nat.le_refl _) (by omega) (by omega) (by omega)).trans
      (hr.mono (Nat.le_refl _) (by omega))
  · rw [hr.outside (by omega), swapped_right]

/-- What has been extracted is in order, and after what has not. -/
def SortedPast (c : Comparitor α) (m : ℕ → α) (start n k : ℕ) : Prop :=
  ∀ a b, start ≤ a → a < b → b < start + n → start + k < b → ¬ c.Rel (m b) (m a)

theorem SortedPast.extract (h : SortedPast c m start n (k + 1)) (hheap : Heap c m start (k + 2))
    (hr : Rearranged start (start + (k + 1) + 1) m m') (hk : m' (start + (k + 1)) = m start) :
    SortedPast c m' start n k := by
  intro a b ha hab hb hbk
  by_cases hbk' : b = start + (k + 1)
  · obtain ⟨y, hy, hy', he⟩ := hr.exists_eq ha (by omega)
    obtain ⟨d, rfl⟩ := Nat.exists_eq_add_of_le hy
    rw [hbk', hk, he]
    exact hheap.root (by omega)
  rw [hr.outside (x := b) (by omega)]
  by_cases hak : a < start + (k + 1) + 1
  · obtain ⟨y, hy, hy', he⟩ := hr.exists_eq ha hak
    rw [he]
    exact h y b hy (by omega) hb (by omega)
  · rw [hr.outside (by omega)]
    exact h a b ha hab hb (by omega)

theorem extractAll_sorts (hw : w.start ≤ start) (hw' : start + n ≤ w.end_) (hk : k < n)
    (hheap : Heap c m start (k + 1)) (h : SortedPast c m start n k) :
    Sorts c start (start + n) m (extractAll w c.cmp start k m) := by
  induction k generalizing m with
  | zero => exact ⟨m, rfl, .refl .., fun a b ha hab hb => h a b ha hab hb (by omega)⟩
  | succ k ih =>
    obtain ⟨m₁, he, hr, hm, hroot⟩ := extract_heap (w := w) hw (by omega) (Nat.succ_pos k) hheap
    have hsorts := ih (by omega) hm (h.extract hheap hr hroot)
    rw [extractAll, he, Option.bind_eq_bind, Option.bind_some]
    exact hsorts.of_rearranged (hr.mono (Nat.le_refl _) (by omega))

/-! ## Heap sort sorts -/

/-- A counter that starts one below `x`, which may be -1. -/
theorem toInt_pred {x : ℕ} (hx : x ≤ 2 ^ 31) : toInt (wordSub sizeT x 1) = (x : ℤ) - 1 := by
  unfold wordSub toInt
  split
  · rw [Int.bmod_eq_of_le (by omega) (by omega)]
    omega
  · simp only [sizeT, Int.bmod_def]
    omega

theorem build_heap (hw : w.start ≤ start) (hw' : start + n ≤ w.end_) (hn : n / 2 ≤ 2 ^ 31) :
    ∃ m', build w c.cmp start n m = some m' ∧ Rearranged start (start + n) m m' ∧
      Heap c m' start n := by
  have hcount : (toInt (wordSub sizeT (n / 2) 1) + 1).toNat = n / 2 := by
    rw [toInt_pred hn]
    omega
  rw [build, hcount]
  exact buildHeap_heap hw hw' (Nat.div_le_self n 2) (heapFrom_half c m start n)

theorem extractElements_eq (m : ℕ → α) (hn : n ≤ 2 ^ 31) :
    extractElements w c.cmp start n m = extractAll w c.cmp start (n - 1) m := by
  have hcount : (toInt (wordSub sizeT n 1)).toNat = n - 1 := by
    rw [toInt_pred hn]
    omega
  rw [extractElements, hcount]

theorem heapSort_spec (c : Comparitor α) (hw : w.start ≤ start) (hw' : start + n ≤ w.end_)
    (hn : n ≤ 2 ^ 31) : Sorts c start (start + n) m (heapSort w c.cmp start (start + n) m) := by
  obtain ⟨m₁, he, hr, hm⟩ := build_heap (c := c) (m := m) hw hw' (by omega)
  rw [heapSort, Nat.add_sub_cancel_left, he, Option.bind_eq_bind, Option.bind_some,
    extractElements_eq m₁ hn]
  rcases Nat.eq_zero_or_pos n with rfl | hpos
  · exact ⟨m₁, rfl, hr, sortedOn_of_le (Nat.le_succ _)⟩
  · refine (extractAll_sorts hw hw' (by omega) ?_ fun a b _ _ _ _ => by omega).of_rearranged hr
    rwa [Nat.sub_add_cancel hpos]

/-! ## Longer ranges -/

/-- A counter that starts one below `x` does not start past it. -/
theorem toInt_pred_le (x : ℕ) : toInt (wordSub sizeT x 1) ≤ (x : ℤ) - 1 := by
  unfold wordSub toInt
  split <;> simp only [sizeT, Int.bmod_def] <;> omega

theorem buildHeap_returns (hw : w.start ≤ start) (hw' : start + n ≤ w.end_) (hk : k ≤ n)
    (m : ℕ → α) :
    ∃ m', buildHeap w c.cmp start n k m = some m' ∧ Rearranged start (start + n) m m' := by
  induction k generalizing m with
  | zero => exact ⟨m, rfl, .refl ..⟩
  | succ k ih =>
    obtain ⟨m₁, he, hr⟩ := heapify_returns c hw hw' (show k < n by omega) m
    obtain ⟨m', he', hr'⟩ := ih (by omega) m₁
    exact ⟨m', by rw [buildHeap, he, Option.bind_eq_bind, Option.bind_some, he'], hr.trans hr'⟩

theorem extractAll_returns (hw : w.start ≤ start) (hw' : start + n ≤ w.end_) (hk : k ≤ n - 1)
    (m : ℕ → α) :
    ∃ m', extractAll w c.cmp start k m = some m' ∧ Rearranged start (start + n) m m' := by
  induction k generalizing m with
  | zero => exact ⟨m, rfl, .refl ..⟩
  | succ k ih =>
    have hswap := swap_eq (w := w) m hw (by omega) (show w.start ≤ start + (k + 1) by omega)
      (by omega)
    obtain ⟨m₁, he, hr⟩ := heapify_returns c hw (show start + (k + 1) ≤ w.end_ by omega)
      (Nat.succ_pos k) (swapped m start (start + (k + 1)))
    obtain ⟨m', he', hr'⟩ := ih (by omega) m₁
    refine ⟨m', ?_, (rearranged_swapped m (Nat.le_refl _) (by omega) (by omega) (by omega)).trans
      ((hr.mono (Nat.le_refl _) (by omega)).trans hr')⟩
    rw [extractAll, extract, hswap, Option.bind_eq_bind, Option.bind_some, he, Option.bind_some,
      he']

/-- Whatever the counters start from, the range is only rearranged. -/
theorem heapSort_returns (c : Comparitor α) (hw : w.start ≤ start) (hw' : start + n ≤ w.end_)
    (m : ℕ → α) :
    ∃ m', heapSort w c.cmp start (start + n) m = some m' ∧ Rearranged start (start + n) m m' := by
  have hcount := toInt_pred_le (n / 2)
  have hcount' := toInt_pred_le n
  obtain ⟨m₁, he, hr⟩ := buildHeap_returns (w := w) (c := c)
    (k := (toInt (wordSub sizeT (n / 2) 1) + 1).toNat) hw hw' (by omega) m
  obtain ⟨m', he', hr'⟩ := extractAll_returns (w := w) (c := c)
    (k := (toInt (wordSub sizeT n 1)).toNat) hw hw' (by omega) m₁
  exact ⟨m', by rw [heapSort, Nat.add_sub_cancel_left, build, he, Option.bind_eq_bind,
    Option.bind_some, extractElements, he'], hr.trans hr'⟩

/-- From `2 ^ 31 + 1` values on nothing is extracted. -/
theorem heapSort_long (c : Comparitor α) (hw : w.start ≤ start) (hw' : start + n ≤ w.end_)
    (m : ℕ → α) (hn : 2 ^ 31 < n) (hn' : n / 2 ≤ 2 ^ 31) :
    ∃ m', heapSort w c.cmp start (start + n) m = some m' ∧ Heap c m' start n := by
  obtain ⟨m', he, -, hm⟩ := build_heap (c := c) (m := m) hw hw' hn'
  have hcount : toInt (wordSub sizeT n 1) ≤ 0 := by
    unfold wordSub toInt
    split <;> simp only [sizeT, Int.bmod_def] <;> omega
  refine ⟨m', ?_, hm⟩
  rw [heapSort, Nat.add_sub_cancel_left, he, Option.bind_eq_bind, Option.bind_some,
    extractElements, Int.toNat_of_nonpos hcount, extractAll]

/-- **Heap sort sorts.** With all accesses in the range, `heapify` returns from every node,
the first loop makes the whole range a heap, each turn of the second one leaves the rest a
heap, and the result is the range, sorted. -/
theorem heapSort_sorts (c : Comparitor α) (start n : ℕ) (m : ℕ → α) (hn : n < 2 ^ 31) :
    (∀ n' i m₁, n' ≤ n → i < n' →
      ∃ m₂, heapify ⟨start, start + n⟩ c.cmp start n' i m₁ = some m₂) ∧
    (∃ m₁, build ⟨start, start + n⟩ c.cmp start n m = some m₁ ∧
      Rearranged start (start + n) m m₁ ∧ Heap c m₁ start n) ∧
    (∀ i m₁, 0 < i → i < n → Heap c m₁ start (i + 1) →
      ∃ m₂, extract ⟨start, start + n⟩ c.cmp start i m₁ = some m₂ ∧
        Rearranged start (start + i + 1) m₁ m₂ ∧ Heap c m₂ start i) ∧
    Sorts c start (start + n) m (heapSort ⟨start, start + n⟩ c.cmp start (start + n) m) := by
  refine ⟨fun n' i m₁ hn' hi => ?_, build_heap (Nat.le_refl _) (Nat.le_refl _) (by omega),
    fun i m₁ hpos hi hheap => ?_, heapSort_spec c (Nat.le_refl _) (Nat.le_refl _) (by omega)⟩
  · obtain ⟨m₂, he, -⟩ := heapify_returns (w := ⟨start, start + n⟩) c (Nat.le_refl _)
      (show start + n' ≤ start + n by omega) hi m₁
    exact ⟨m₂, he⟩
  · obtain ⟨m₂, he, hr, hm, -⟩ := extract_heap (w := ⟨start, start + n⟩) (Nat.le_refl _)
      (show start + i < start + n by omega) hpos hheap
    exact ⟨m₂, he, hr, hm⟩

theorem heapSort_sorts_three :
    Sorts lessThan 0 3 (fun p => 3 - p) (heapSort ⟨0, 3⟩ lessThan.cmp 0 3 fun p => 3 - p) :=
  (heapSort_sorts lessThan 0 3 (fun p => 3 - p) (by decide)).2.2.2

end HermesShm.Ipc.Algorithm
