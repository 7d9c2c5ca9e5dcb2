import HermesShm.Base.Chain
import HermesShm.Memory.HeapAllocator

/-! # Free lists

`lifo_list_queue` and `mpsc_lifo_list_queue`, with every operation atomic: pages
linked through `next_shm_`, which holds offsets from the buffer of the list's own
allocator. -/
namespace HermesShm.Memory
open HermesShm.Base MpPage

/-- Both lists; `count_` is called `length_` in `lifo_list_queue`. -/
structure ListQueue where
  tail_shm_ : Nat := nullOff
  count_ : Nat := 0

namespace ListQueue

/-! ## Offsets, for an allocator whose buffer is at `buf` -/

def toShm (buf p : Nat) : Nat := wordSub sizeT p buf

def convert (buf off : Nat) : Option Nat := (offset? off).map (wordAdd sizeT buf)

/-- The page after `p`, null at the end of its list. -/
def nextPage (buf : Nat) (m : ByteMem) (p : Nat) : Option Nat := convert buf (next_shm_.get m p)

/-! ## Operations -/

def enqueue (buf : Nat) (m : ByteMem) (q : ListQueue) (p : Nat) : ByteMem × ListQueue :=
  (next_shm_.set m p q.tail_shm_, { tail_shm_ := toShm buf p, count_ := q.count_ + 1 })

def pop (buf : Nat) (m : ByteMem) (q : ListQueue) : Option Nat × ListQueue :=
  if q.count_ = 0 then (none, q)
  else match convert buf q.tail_shm_ with
    | none => (none, q)
    | some p => (some p, { tail_shm_ := next_shm_.get m p, count_ := q.count_ - 1 })

def begin_ (buf : Nat) (q : ListQueue) : Option Nat :=
  if q.count_ = 0 then none else convert buf q.tail_shm_

/-- The search of `AllocateMpsc` for a page of at least `round` bytes, with the
entry before it; no result where the list does not end. -/
def findFit (buf : Nat) (m : ByteMem) (round : Nat) :
    Nat → Option Nat → Option Nat → Option (Option (Option Nat × Nat))
  | _, _, none => some none
  | 0, _, some _ => none
  | fuel + 1, prior, some p =>
    if page_size_.get m p ≥ round then some (some (prior, p))
    else findFit buf m round fuel (some p) (nextPage buf m p)

/-- `dequeue(it)` for an iterator at `p`. -/
def dequeueAt (buf : Nat) (m : ByteMem) (q : ListQueue) (prior : Option Nat) (p : Nat) :
    ByteMem × ListQueue :=
  match prior with
  | none => (m, (pop buf m q).2)
  | some r => (next_shm_.set m r (next_shm_.get m p), { q with count_ := q.count_ - 1 })

/-! ## The pages of a list -/

/-- Addresses that offsets of the allocator can name. -/
def Reachable (buf p : Nat) : Prop := buf ≤ p ∧ p - buf < nullOff ∧ p < sizeT

structure Represents (buf : Nat) (m : ByteMem) (q : ListQueue) (ps : List Nat) : Prop where
  next : Chain (fun p => some (nextPage buf m p)) (convert buf q.tail_shm_) ps none
  tail_lt : q.tail_shm_ < sizeT
  count : q.count_ = ps.length

variable {buf : Nat} {m m' : ByteMem} {q : ListQueue} {p : Nat} {ps : List Nat}

@[simp] theorem enqueue_fst (buf : Nat) (m : ByteMem) (q : ListQueue) (p : Nat) :
    (enqueue buf m q p).1 = next_shm_.set m p q.tail_shm_ := rfl

theorem convert_toShm (hp : Reachable buf p) : convert buf (toShm buf p) = some p := by
  obtain ⟨hle, hnull, hlt⟩ := hp
  rw [convert, toShm, wordSub_of_le hle, offset?, if_neg (Nat.ne_of_lt hnull), Option.map_some,
    wordAdd_of_lt (by omega), Nat.add_sub_cancel' hle]

theorem toShm_lt (hp : Reachable buf p) : toShm buf p < sizeT := by
  rw [toShm, wordSub_of_le hp.1]
  exact Nat.lt_of_le_of_lt (Nat.sub_le ..) hp.2.2

theorem nextPage_congr (h : m.SameOn m' p mpPage) : nextPage buf m' p = nextPage buf m p := by
  rw [nextPage, nextPage, next_shm_.get_congr h]

theorem pop_none {q' : ListQueue} (h : pop buf m q = (none, q')) : q' = q := by
  unfold pop at h
  split at h
  · exact (congrArg Prod.snd h).symm
  · split at h <;> cases h
    rfl

theorem represents_empty (buf : Nat) (m : ByteMem) : Represents buf m {} [] :=
  ⟨rfl, by decide, rfl⟩

namespace Represents

theorem nodup (hr : Represents buf m q ps) : ps.Nodup := hr.next.nodup

/-- A list looks at the headers of its own pages. -/
theorem congr (hr : Represents buf m q ps) (h : ∀ p ∈ ps, m.SameOn m' p mpPage) :
    Represents buf m' q ps :=
  { hr with next := hr.next.congr fun p hp => by rw [nextPage_congr (h p hp)] }

theorem enqueue (hr : Represents buf m q ps) (hp : Reachable buf p)
    (hother : ∀ q ∈ ps, p + mpPage ≤ q ∨ q + mpPage ≤ p) :
    Represents buf (enqueue buf m q p).1 (enqueue buf m q p).2 (p :: ps) where
  next := by
    refine ⟨convert_toShm hp, nextPage buf (next_shm_.set m p q.tail_shm_) p, rfl, ?_⟩
    rw [nextPage, Field.get_set hr.tail_lt]
    refine hr.next.congr fun r hr' => ?_
    exact congrArg some (nextPage_congr ((next_shm_.set_sameOff m p _).sameOn (hother r hr')))
  tail_lt := toShm_lt hp
  count := congrArg (· + 1) hr.count

theorem pop_nil (hr : Represents buf m q []) : pop buf m q = (none, q) := if_pos hr.count

theorem pop_congr (hr : Represents buf m q ps) (h : ∀ p ∈ ps, m.SameOn m' p mpPage) :
    pop buf m' q = pop buf m q := by
  unfold pop
  cases ps with
  | nil =>
    have h0 : q.count_ = 0 := hr.count
    rw [if_pos h0, if_pos h0]
  | cons p ps => simp only [hr.next.1, next_shm_.get_congr (h p List.mem_cons_self)]

theorem pop_cons (hr : Represents buf m q (p :: ps)) :
    ∃ q', pop buf m q = (some p, q') ∧ Represents buf m q' ps := by
  obtain ⟨htail, n, hn, hc⟩ := hr.next
  obtain rfl := Option.some.inj hn
  have h0 : ¬ q.count_ = 0 := by rw [hr.count]; exact Nat.succ_ne_zero _
  refine ⟨{ tail_shm_ := next_shm_.get m p, count_ := q.count_ - 1 }, ?_, hc,
    next_shm_.get_lt m p, ?_⟩
  · simp only [ListQueue.pop, if_neg h0, htail]
  · rw [hr.count]
    rfl

theorem begin_ (hr : Represents buf m q ps) : begin_ buf q = ps.head? := by
  unfold ListQueue.begin_
  split
  · rename_i h0
    rw [List.eq_nil_of_length_eq_zero (hr.count.symm.trans h0)]
    rfl
  · exact hr.next.head_none

theorem findFit_spec {pos : Option Nat} {fuel : Nat} (round : Nat) (prior : Option Nat)
    (hc : Chain (fun p => some (nextPage buf m p)) pos ps none) (hf : ps.length ≤ fuel) :
    (findFit buf m round fuel prior pos = some none ∧ ∀ p ∈ ps, page_size_.get m p < round) ∨
    ∃ as p cs, findFit buf m round fuel prior pos = some (some (as.getLast?.or prior, p)) ∧
      ps = as ++ p :: cs ∧ round ≤ page_size_.get m p := by
  induction ps generalizing prior pos fuel with
  | nil =>
    obtain rfl := hc
    exact .inl ⟨by cases fuel <;> rfl, nofun⟩
  | cons p ps ih =>
    obtain ⟨rfl, n, hn, hc⟩ := hc
    obtain rfl := Option.some.inj hn
    cases fuel with
    | zero => cases hf
    | succ fuel =>
      rw [findFit]
      by_cases hfit : page_size_.get m p ≥ round
      · exact .inr ⟨[], p, ps, if_pos hfit, rfl, hfit⟩
      · rw [if_neg hfit]
        rcases ih (some p) hc (Nat.le_of_succ_le_succ hf) with
          ⟨he, hall⟩ | ⟨as, r, cs, he, rfl, hr⟩
        · refine .inl ⟨he, fun r hr => ?_⟩
          rcases List.mem_cons.mp hr with rfl | hr
          · exact Nat.not_le.mp hfit
          · exact hall r hr
        · refine .inr ⟨p :: as, r, cs, ?_, rfl, hr⟩
          rw [he]
          cases as <;> simp [List.getLast?_cons]

theorem findFit_congr {pos : Option Nat} (round fuel : Nat) (prior : Option Nat)
    (hc : Chain (fun p => some (nextPage buf m p)) pos ps none)
    (h : ∀ p ∈ ps, m.SameOn m' p mpPage) :
    findFit buf m' round fuel prior pos = findFit buf m round fuel prior pos := by
  induction ps generalizing prior pos fuel with
  | nil =>
    obtain rfl := hc
    cases fuel <;> rfl
  | cons p ps ih =>
    obtain ⟨rfl, n, hn, hc⟩ := hc
    obtain rfl := Option.some.inj hn
    have hp := h p List.mem_cons_self
    cases fuel with
    | zero => rfl
    | succ fuel =>
      rw [findFit, findFit, page_size_.get_congr hp, nextPage_congr hp,
        ih fuel (some p) hc fun r hr => h r (List.mem_cons_of_mem _ hr)]

/-- Removing a page in the middle writes the link before it, and nothing else. -/
theorem dequeueAt {as cs : List Nat} (hr : Represents buf m q (as ++ p :: cs))
    (hapart : ∀ r ∈ as ++ p :: cs, ∀ s ∈ as ++ p :: cs, r ≠ s →
      r + mpPage ≤ s ∨ s + mpPage ≤ r) :
    ∃ m' q', dequeueAt buf m q as.getLast? p = (m', q') ∧ Represents buf m' q' (as ++ cs) ∧
      (as = [] ∧ m' = m ∨ ∃ r ∈ as, nextPage buf m r = some p ∧
        m' = next_shm_.set m r (next_shm_.get m p)) := by
  rcases List.eq_nil_or_concat' as with rfl | ⟨as, r, rfl⟩
  · obtain ⟨q', hq', hr'⟩ := hr.pop_cons
    exact ⟨m, q', by rw [List.getLast?_nil, ListQueue.dequeueAt, hq'], hr', .inl ⟨rfl, rfl⟩⟩
  · have hnd := hr.nodup
    rw [List.append_assoc] at hnd
    have hrne : ∀ s ∈ as ++ cs, s ≠ r := by
      rintro s hs rfl
      rw [List.nodup_append] at hnd
      rcases List.mem_append.mp hs with hs | hs
      · exact hnd.2.2 s hs s (by simp) rfl
      · have := (List.nodup_cons.mp hnd.2.1).1
        exact this (List.mem_cons_of_mem _ hs)
    obtain ⟨a, hcas, hca⟩ := Chain.append_iff.mp hr.next
    have hrp : nextPage buf m r = a := Option.some.inj hcas.last
    obtain ⟨rfl, n, hn, hcs⟩ := hca
    obtain rfl := Option.some.inj hn
    let m' := next_shm_.set m r (next_shm_.get m p)
    have hsame : ∀ s ∈ as ++ cs, m.SameOn m' s mpPage := fun s hs => by
      refine (next_shm_.set_sameOff m r _).sameOn (hapart r (by simp) s ?_ (hrne s hs).symm)
      rcases List.mem_append.mp hs with hs | hs <;> simp [hs]
    refine ⟨m', { q with count_ := q.count_ - 1 }, by rw [List.getLast?_concat]; rfl,
      ⟨?_, hr.tail_lt, ?_⟩, .inr ⟨r, by simp, hrp, rfl⟩⟩
    · obtain ⟨b, hcb, rfl, -⟩ := Chain.append_iff.mp hcas
      refine Chain.append (Chain.snoc (hcb.congr fun s hs => ?_) ?_) (hcs.congr fun s hs => ?_)
      · exact congrArg some (nextPage_congr (hsame s (List.mem_append_left _ hs)))
      · exact congrArg (some <| convert buf ·) (Field.get_set (next_shm_.get_lt m p))
      · exact congrArg some (nextPage_congr (hsame s (List.mem_append_right _ hs)))
    · rw [hr.count]
      simp

end Represents

end ListQueue
end HermesShm.Memory
