import HermesShm.Base.Sorting
import Mathlib.Order.Lattice
import Mathlib.Order.RelClasses

/-! # Insertion sort and quick sort

The sorts of `algorithm.h` over random-access iterators, which are positions in a memory of
values. A call is given a range, and there is no result where it touches a value that is not
of that range. -/
namespace HermesShm.Ipc.Algorithm
open HermesShm.Base

variable {α : Type}

/-- A comparison that may be sorted by. -/
structure Comparitor (α : Type) where
  cmp : α → α → Bool
  order : IsStrictWeakOrder α fun a b => cmp a b = true

abbrev Comparitor.Rel (c : Comparitor α) (a b : α) : Prop := c.cmp a b = true

instance (c : Comparitor α) : IsStrictWeakOrder α c.Rel := c.order

/-- The default, `HSHM_DEFAULT_SORT_CMP`. -/
def lessThan [LinearOrder α] : Comparitor α where
  cmp a b := decide (a < b)
  order := by
    simp only [decide_eq_true_eq]
    exact isStrictWeakOrder_of_isOrderConnected

/-- The range of the outermost call. -/
structure Bounds where
  start : ℕ
  end_ : ℕ

def deref (w : Bounds) (m : ℕ → α) (p : ℕ) : Option α :=
  if w.start ≤ p ∧ p < w.end_ then some (m p) else none

def swap (w : Bounds) (m : ℕ → α) (a b : ℕ) : Option (ℕ → α) := do
  let tmp ← deref w m a
  let y ← deref w m b
  some (Function.update (Function.update m a y) b tmp)

section
variable (w : Bounds) (cmp : α → α → Bool)

/-! ## Insertion sort -/

/-- The `while` loop, from `j = start + k` on. -/
def sink (start : ℕ) : ℕ → (ℕ → α) → Option (ℕ → α)
  | 0, m => some m
  | k + 1, m => do
    let x ← deref w m (start + k + 1)
    let y ← deref w m (start + k)
    if cmp x y then
      let m ← swap w m (start + k + 1) (start + k)
      sink start k m
    else some m

/-- The `for` loop, with `n` turns left. -/
def insertionLoop (start : ℕ) : ℕ → ℕ → (ℕ → α) → Option (ℕ → α)
  | 0, _, m => some m
  | n + 1, i, m => do
    let m ← sink w cmp start (i - start) m
    insertionLoop start n (i + 1) m

def insertionSort (start end_ : ℕ) (m : ℕ → α) : Option (ℕ → α) :=
  if start = end_ then some m else insertionLoop w cmp start (end_ - start) start m

/-! ## Quick sort -/

/-- The `for` loop over the values before the pivot at `last`, with `n` turns left. -/
def partition (last : ℕ) : ℕ → ℕ → ℕ → (ℕ → α) → Option (ℕ × (ℕ → α))
  | 0, _, store, m => some (store, m)
  | n + 1, i, store, m => do
    let x ← deref w m i
    let pivot ← deref w m last
    if cmp x pivot then
      let m ← swap w m store i
      partition last n (i + 1) (store + 1) m
    else partition last n (i + 1) store m

theorem partition_store {last n i store s : ℕ} {m m' : ℕ → α}
    (h : partition w cmp last n i store m = some (s, m')) : store ≤ s ∧ s ≤ store + n := by
  induction n generalizing i store m with
  | zero =>
    cases h
    exact ⟨Nat.le_refl _, Nat.le_refl _⟩
  | succ n ih =>
    obtain ⟨x, -, h⟩ := Option.bind_eq_some_iff.mp h
    obtain ⟨pivot, -, h⟩ := Option.bind_eq_some_iff.mp h
    split at h
    · obtain ⟨m₁, -, h⟩ := Option.bind_eq_some_iff.mp h
      have := ih h
      omega
    · have := ih h
      omega

def INSERT_SORT_CUTOFF : ℤ := 32

mutual

/-- The calls of `quick_sort` take the default cutoff. -/
def sort (cutoff : ℤ) (start end_ : ℕ) (m : ℕ → α) : Option (ℕ → α) :=
  if (end_ : ℤ) - start < cutoff then insertionSort w cmp start end_ m
  else quickSort start end_ m
termination_by (end_ - start, 1)

def quickSort (start end_ : ℕ) (m : ℕ → α) : Option (ℕ → α) :=
  if start ≥ end_ - 1 then some m
  else do
    let pivot := start + (end_ - start) / 2
    let _pivot_val ← deref w m pivot
    let m ← swap w m pivot (end_ - 1)
    match h : partition w cmp (end_ - 1) (end_ - 1 - start) start start m with
    | none => none
    | some (store, m) => do
      let m ← swap w m store (end_ - 1)
      let m ← sort INSERT_SORT_CUTOFF start store m
      sort INSERT_SORT_CUTOFF (store + 1) end_ m
termination_by (end_ - start, 0)
decreasing_by
  all_goals
    have hstore := partition_store w cmp h
    omega

end

end

/-- The call returns; it has sorted the range and touched nothing else. -/
def Sorts (c : Comparitor α) (start end_ : ℕ) (m : ℕ → α) (res : Option (ℕ → α)) : Prop :=
  ∃ m', res = some m' ∧ Rearranged start end_ m m' ∧ SortedOn c.Rel m' start end_

variable {w : Bounds} {c : Comparitor α} {start end_ n i k store a b : ℕ} {m m' : ℕ → α}

theorem deref_eq {p : ℕ} (m : ℕ → α) (h : w.start ≤ p) (h' : p < w.end_) :
    deref w m p = some (m p) := if_pos ⟨h, h'⟩

theorem swap_eq (m : ℕ → α) (ha : w.start ≤ a) (ha' : a < w.end_) (hb : w.start ≤ b)
    (hb' : b < w.end_) : swap w m a b = some (swapped m a b) := by
  simp only [swap, deref_eq m ha ha', deref_eq m hb hb', Option.bind_eq_bind, Option.bind_some,
    swapped]

theorem Sorts.of_rearranged {m₁ : ℕ → α} {res : Option (ℕ → α)} (h : Sorts c start end_ m₁ res)
    (hm : Rearranged start end_ m m₁) : Sorts c start end_ m res := by
  obtain ⟨m', he, hr, hs⟩ := h
  exact ⟨m', he, hm.trans hr, hs⟩

/-! ## Insertion sort sorts -/

/-- The values are in order, but that at `j` may come before those in front of it. -/
def SortedBut (c : Comparitor α) (m : ℕ → α) (start end_ j : ℕ) : Prop :=
  ∀ a b, start ≤ a → a < b → b < end_ → b ≠ j → ¬ c.Rel (m b) (m a)

/-- A turn of the `while` loop brings the value one position further to the front. -/
theorem SortedBut.swap_down (h : SortedBut c m start end_ (start + k + 1))
    (hrel : c.Rel (m (start + k + 1)) (m (start + k))) (hk : start + k + 1 < end_) :
    SortedBut c (swapped m (start + k + 1) (start + k)) start end_ (start + k) := by
  intro a b ha hab hb hne
  by_cases hbk : b = start + k + 1
  · subst hbk
    rw [swapped_left]
    by_cases hak : a = start + k
    · rw [hak, swapped_right]
      exact not_rel_symm hrel
    · rw [swapped_of_ne (by omega) hak]
      exact h a (start + k) ha (by omega) (by omega) (by omega)
  rw [swapped_of_ne hbk hne]
  by_cases hak : a = start + k
  · rw [hak, swapped_right]
    exact h (start + k + 1) b (by omega) (by omega) hb hbk
  by_cases hak' : a = start + k + 1
  · rw [hak', swapped_left]
    exact h (start + k) b (by omega) (by omega) hb hbk
  rw [swapped_of_ne hak' hak]
  exact h a b ha hab hb hbk

theorem sink_sorts (hw : w.start ≤ start) (hw' : end_ ≤ w.end_) (hk : start + k < end_)
    (h : SortedBut c m start end_ (start + k)) : Sorts c start end_ m (sink w c.cmp start k m) := by
  induction k generalizing m with
  | zero =>
    exact ⟨m, rfl, .refl .., fun a b ha hab hb => h a b ha hab hb (by omega)⟩
  | succ k ih =>
    have hx := deref_eq (w := w) m (show w.start ≤ start + k + 1 by omega) (by omega)
    have hy := deref_eq (w := w) m (show w.start ≤ start + k by omega) (by omega)
    have hswap := swap_eq (w := w) m (show w.start ≤ start + k + 1 by omega) (by omega)
      (show w.start ≤ start + k by omega) (by omega)
    simp only [sink, hx, hy, Option.bind_eq_bind, Option.bind_some, hswap]
    by_cases hrel : c.cmp (m (start + k + 1)) (m (start + k)) = true
    · rw [if_pos hrel]
      exact (ih (by omega) (h.swap_down hrel hk)).of_rearranged
        (rearranged_swapped m (by omega) hk (by omega) (by omega))
    · rw [if_neg hrel]
      refine ⟨m, rfl, .refl .., fun a b ha hab hb => ?_⟩
      by_cases hbk : b = start + (k + 1)
      · subst hbk
        by_cases hak : a = start + k
        · rw [hak]
          exact hrel
        · exact not_rel_trans hrel (h a (start + k) ha (by omega) (by omega) (by omega))
      · exact h a b ha hab hb hbk

theorem insertionLoop_sorts (hw : w.start ≤ start) (hw' : i + n ≤ w.end_) (hi : start ≤ i)
    (h : SortedOn c.Rel m start i) :
    Sorts c start (i + n) m (insertionLoop w c.cmp start n i m) := by
  induction n generalizing i m with
  | zero => exact ⟨m, rfl, .refl .., h⟩
  | succ n ih =>
    obtain ⟨k, rfl⟩ := Nat.exists_eq_add_of_le hi
    obtain ⟨m₁, he, hr, hs⟩ := sink_sorts (k := k) (m := m) hw
      (show start + k + 1 ≤ w.end_ by omega) (Nat.lt_succ_self _)
      fun a b ha hab hb hne => h a b ha hab (by omega)
    obtain ⟨m', he', hr', hs'⟩ := ih (i := start + k + 1) (by omega) (by omega) hs
    rw [show start + k + 1 + n = start + k + (n + 1) by omega] at hr' hs'
    refine ⟨m', ?_, (hr.mono (Nat.le_refl _) (by omega)).trans hr', hs'⟩
    simp only [insertionLoop, Nat.add_sub_cancel_left, he, Option.bind_eq_bind, Option.bind_some,
      he']

theorem insertionSort_sorts (hw : w.start ≤ start) (hw' : end_ ≤ w.end_) (h : start ≤ end_) :
    Sorts c start end_ m (insertionSort w c.cmp start end_ m) := by
  unfold insertionSort
  by_cases he : start = end_
  · rw [if_pos he]
    exact ⟨m, rfl, .refl .., sortedOn_of_le (by omega)⟩
  · rw [if_neg he]
    have hsorts := insertionLoop_sorts (w := w) (c := c) (m := m) (n := end_ - start) hw (by omega)
      (Nat.le_refl start) (sortedOn_of_le (by omega))
    rwa [Nat.add_sub_cancel' h] at hsorts

/-! ## Quick sort sorts -/

/-- Up to `i`, the values that come before the one at `last` are those before `store`. -/
structure Parted (c : Comparitor α) (m : ℕ → α) (start store i last : ℕ) : Prop where
  less : ∀ x, start ≤ x → x < store → c.Rel (m x) (m last)
  more : ∀ x, store ≤ x → x < i → ¬ c.Rel (m x) (m last)

theorem Parted.swap_store {last : ℕ} (h : Parted c m start store i last)
    (hrel : c.Rel (m i) (m last)) (hstore : store ≤ i) (hi : i < last) :
    Parted c (swapped m store i) start (store + 1) (i + 1) last := by
  have hlast : swapped m store i last = m last := swapped_of_ne (by omega) (by omega)
  refine ⟨fun x hx hx' => ?_, fun x hx hx' => ?_⟩ <;> rw [hlast]
  · by_cases hxs : x = store
    · rw [hxs, swapped_left]
      exact hrel
    · rw [swapped_of_ne hxs (by omega)]
      exact h.less x hx (by omega)
  · by_cases hxi : x = i
    · rw [hxi, swapped_right]
      exact h.more store (Nat.le_refl _) (by omega)
    · rw [swapped_of_ne (by omega) hxi]
      exact h.more x (by omega) (by omega)

theorem partition_parts {last : ℕ} (hw : w.start ≤ start) (hw' : last < w.end_)
    (hstart : start ≤ store) (hstore : store ≤ i) (hn : i + n = last)
    (h : Parted c m start store i last) :
    ∃ s m', partition w c.cmp last n i store m = some (s, m') ∧ store ≤ s ∧ s ≤ last ∧
      Rearranged start last m m' ∧ Parted c m' start s last last := by
  induction n generalizing i store m with
  | zero =>
    obtain rfl : i = last := hn
    exact ⟨store, m, rfl, Nat.le_refl _, hstore, .refl .., h⟩
  | succ n ih =>
    have hx := deref_eq (w := w) m (show w.start ≤ i by omega) (by omega)
    have hy := deref_eq (w := w) m (show w.start ≤ last by omega) hw'
    have hswap := swap_eq (w := w) m (show w.start ≤ store by omega) (by omega)
      (show w.start ≤ i by omega) (by omega)
    simp only [partition, hx, hy, Option.bind_eq_bind, Option.bind_some, hswap]
    by_cases hrel : c.cmp (m i) (m last) = true
    · rw [if_pos hrel]
      obtain ⟨s, m', he, hs, hs', hr, hp⟩ := ih (by omega) (by omega) (by omega)
        (h.swap_store hrel hstore (by omega))
      exact ⟨s, m', he, by omega, hs', (rearranged_swapped m (by omega) (by omega) (by omega)
        (by omega)).trans hr, hp⟩
    · rw [if_neg hrel]
      refine ih hstart (by omega) (by omega) ⟨h.less, fun x hx hx' => ?_⟩
      by_cases hxi : x = i
      · rw [hxi]
        exact hrel
      · exact h.more x hx (by omega)

/-- The pivot goes back between the two parts. -/
theorem Parted.pivot {last : ℕ} (h : Parted c m start store last last) (hstore : store ≤ last) :
    (∀ x, start ≤ x → x < store → c.Rel (swapped m store last x) (swapped m store last store)) ∧
      ∀ x, store < x → x < last + 1 →
        ¬ c.Rel (swapped m store last x) (swapped m store last store) := by
  rw [swapped_left]
  refine ⟨fun x hx hx' => ?_, fun x hx hx' => ?_⟩
  · rw [swapped_of_ne (by omega) (by omega)]
    exact h.less x hx hx'
  · by_cases hxl : x = last
    · rw [hxl, swapped_right]
      exact h.more store (Nat.le_refl _) (by omega)
    · rw [swapped_of_ne (by omega) hxl]
      exact h.more x (by omega) (by omega)

/-- The parts are sorted on their own. -/
theorem sorts_parts {m₁ : ℕ → α} {res₁ : Option (ℕ → α)} {res₂ : (ℕ → α) → Option (ℕ → α)}
    (hstart : start ≤ store) (hend : store < end_)
    (hless : ∀ x, start ≤ x → x < store → c.Rel (m₁ x) (m₁ store))
    (hmore : ∀ x, store < x → x < end_ → ¬ c.Rel (m₁ x) (m₁ store))
    (h₁ : Sorts c start store m₁ res₁) (h₂ : ∀ m₂, Sorts c (store + 1) end_ m₂ (res₂ m₂)) :
    Sorts c start end_ m₁ (res₁.bind res₂) := by
  obtain ⟨m₂, rfl, hr₂, hs₂⟩ := h₁
  obtain ⟨m₃, he₃, hr₃, hs₃⟩ := h₂ m₂
  refine ⟨m₃, he₃, (hr₂.mono (Nat.le_refl _) (by omega)).trans
    (hr₃.mono (by omega) (Nat.le_refl _)), ?_⟩
  have hpivot : m₃ store = m₁ store :=
    (hr₃.outside (by omega)).trans (hr₂.outside (by omega))
  refine SortedOn.join (p := store) (hs₂.congr fun x hx hx' => hr₃.outside (by omega)) hs₃
    (fun x hx hx' => ?_) fun x hx hx' => ?_
  · rw [hpivot, hr₃.outside (by omega)]
    exact hr₂.forall_range (P := fun v => c.Rel v (m₁ store)) hless x hx hx'
  · rw [hpivot]
    refine hr₃.forall_range (P := fun v => ¬ c.Rel v (m₁ store)) (fun y hy hy' => ?_) x hx hx'
    rw [hr₂.outside (by omega)]
    exact hmore y hy hy'

/-- By induction on the length, with `sort` and `quick_sort` calling each other. -/
theorem quickSort_sorts_of {fuel : ℕ} (hw : w.start ≤ start) (hw' : end_ ≤ w.end_)
    (h : start ≤ end_) (hfuel : end_ - start ≤ fuel) :
    Sorts c start end_ m (quickSort w c.cmp start end_ m) := by
  induction fuel generalizing start end_ m with
  | zero =>
    rw [quickSort, if_pos (by omega)]
    exact ⟨m, rfl, .refl .., sortedOn_of_le (by omega)⟩
  | succ fuel ih =>
    have hsort : ∀ lo hi m', w.start ≤ lo → hi ≤ w.end_ → lo ≤ hi → hi - lo ≤ fuel →
        Sorts c lo hi m' (sort w c.cmp INSERT_SORT_CUTOFF lo hi m') := by
      intro lo hi m' hlo hhi hle hf
      rw [sort]
      split
      · exact insertionSort_sorts hlo hhi hle
      · exact ih hlo hhi hle hf
    rw [quickSort]
    by_cases hlen : start ≥ end_ - 1
    · rw [if_pos hlen]
      exact ⟨m, rfl, .refl .., sortedOn_of_le (by omega)⟩
    rw [if_neg hlen]
    obtain ⟨last, rfl⟩ : ∃ last, end_ = last + 1 := ⟨end_ - 1, by omega⟩
    rw [Nat.add_sub_cancel] at hlen
    obtain ⟨pivot, hpivot⟩ : ∃ pivot, pivot = start + (last + 1 - start) / 2 := ⟨_, rfl⟩
    have hread := deref_eq (w := w) m (show w.start ≤ pivot by omega) (by omega)
    have hswap := swap_eq (w := w) m (show w.start ≤ pivot by omega) (by omega)
      (show w.start ≤ last by omega) (by omega)
    have hr₁ := rearranged_swapped m (show start ≤ pivot by omega)
      (show pivot < last + 1 by omega) (show start ≤ last by omega) (Nat.lt_succ_self last)
    obtain ⟨store, m₂, hpart, hs, hs', hr₂, hp⟩ := partition_parts (w := w) (c := c)
      (m := swapped m pivot last) (n := last - start) hw (Nat.lt_of_succ_le hw')
      (Nat.le_refl start) (Nat.le_refl start) (by omega) ⟨fun x _ _ => by omega,
        fun x _ _ => by omega⟩
    have hswap₂ := swap_eq (w := w) m₂ (show w.start ≤ store by omega) (by omega)
      (show w.start ≤ last by omega) (by omega)
    have hr₃ := rearranged_swapped m₂ hs (show store < last + 1 by omega)
      (show start ≤ last by omega) (Nat.lt_succ_self last)
    obtain ⟨hless, hmore⟩ := hp.pivot hs'
    have hparts := sorts_parts hs (show store < last + 1 by omega) hless hmore
      (hsort start store _ hw (by omega) hs (by omega))
      fun m₃ => hsort (store + 1) (last + 1) m₃ (by omega) hw' (by omega) (by omega)
    simp only [← hpivot, Nat.add_sub_cancel, hread, hswap, Option.bind_eq_bind, Option.bind_some]
    split
    · rename_i hnone
      rw [Nat.add_sub_cancel, hpart] at hnone
      cases hnone
    · rename_i hsome
      rw [Nat.add_sub_cancel, hpart] at hsome
      cases hsome
      rw [hswap₂, Option.bind_some]
      exact hparts.of_rearranged
        ((hr₁.trans (hr₂.mono (Nat.le_refl _) (Nat.le_succ _))).trans hr₃)

theorem quickSort_sorts (c : Comparitor α) (hw : w.start ≤ start) (hw' : end_ ≤ w.end_)
    (h : start ≤ end_) : Sorts c start end_ m (quickSort w c.cmp start end_ m) :=
  quickSort_sorts_of hw hw' h (Nat.le_refl _)

theorem sort_spec (c : Comparitor α) (cutoff : ℤ) (hw : w.start ≤ start) (hw' : end_ ≤ w.end_)
    (h : start ≤ end_) : Sorts c start end_ m (sort w c.cmp cutoff start end_ m) := by
  rw [sort]
  split
  · exact insertionSort_sorts hw hw' h
  · exact quickSort_sorts c hw hw' h

/-- **The sort sorts.** For every cutoff and every range, also an empty one, the call
returns; it rearranges the range so that no later value comes before an earlier one, and
touches nothing else. -/
theorem sort_sorts (c : Comparitor α) (cutoff : ℤ) (start n : ℕ) (m : ℕ → α) :
    Sorts c start (start + n) m
      (sort ⟨start, start + n⟩ c.cmp cutoff start (start + n) m) :=
  sort_spec c cutoff (Nat.le_refl _) (Nat.le_refl _) (Nat.le_add_right ..)

end HermesShm.Ipc.Algorithm
