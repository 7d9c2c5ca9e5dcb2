import HermesShm.Base.ByteMem
import HermesShm.Base.Word
import Mathlib.Data.Nat.Log

/-! # Page headers and size classes

An `MpPage` is the header of every page, kept in shared memory. `PageId` rounds
a size to its class. -/
namespace HermesShm.Memory
open HermesShm.Base

/-- `size_t` -/
def sizeT : Nat := 2 ^ 64

/-- `sizeof(MpPage)` -/
def mpPage : Nat := 32

/-- A field of `MpPage`, `width` bytes at `off`. -/
structure Field where
  off : Nat
  width : Nat
  fits : off + width ≤ mpPage := by decide

namespace MpPage

def next_shm_ : Field := { off := 0, width := 8 }
def flags_ : Field := { off := 8, width := 4 }
def off_ : Field := { off := 12, width := 4 }
def tid_ : Field := { off := 16, width := 8 }
def page_size_ : Field := { off := 24, width := 8 }

end MpPage

namespace Field

def get (f : Field) (m : ByteMem) (p : Nat) : Nat := m.load (p + f.off) f.width

def set (f : Field) (m : ByteMem) (p v : Nat) : ByteMem := m.store (p + f.off) f.width v

/-- Two fields without a common byte. -/
def Apart (f g : Field) : Prop := f.off + f.width ≤ g.off ∨ g.off + g.width ≤ f.off

instance (f g : Field) : Decidable (f.Apart g) := by unfold Apart; infer_instance

variable {f g : Field} {m m' : ByteMem} {p v : Nat}

theorem get_congr (f : Field) (h : m.SameOn m' p mpPage) : f.get m' p = f.get m p :=
  ByteMem.load_congr fun x _ _ => h x (by omega) (by have := f.fits; omega)

theorem get_lt (f : Field) (m : ByteMem) (p : Nat) : f.get m p < 256 ^ f.width :=
  ByteMem.load_lt ..

theorem set_sameOff_field (f : Field) (m : ByteMem) (p v : Nat) :
    m.SameOff (f.set m p v) (p + f.off) f.width := ByteMem.store_sameOff m _ _ v

/-- Setting a field changes its header only. -/
theorem set_sameOff (f : Field) (m : ByteMem) (p v : Nat) : m.SameOff (f.set m p v) p mpPage :=
  (set_sameOff_field f m p v).mono (by omega) (by have := f.fits; omega)

theorem get_set (hv : v < 256 ^ f.width) : f.get (f.set m p v) p = v := ByteMem.load_store hv

theorem get_set_apart (h : f.Apart g) : f.get (g.set m p v) p = f.get m p :=
  ByteMem.load_congr <| (set_sameOff_field g m p v).sameOn <| by
    unfold Apart at h
    omega

-- the bytes of a field are looked at by these lemmas only
attribute [irreducible] get set

end Field

namespace MpPage

def setAllocated (m : ByteMem) (p : Nat) : ByteMem := flags_.set m p (flags_.get m p ||| 1)

/-- `UnsetAllocated` clears all flags. -/
def unsetAllocated (m : ByteMem) (p : Nat) : ByteMem := flags_.set m p 0

def isAllocated (m : ByteMem) (p : Nat) : Bool := flags_.get m p &&& 1 == 1

variable {m m' : ByteMem} {p : Nat}

theorem setAllocated_sameOff (m : ByteMem) (p : Nat) : m.SameOff (setAllocated m p) p mpPage :=
  flags_.set_sameOff m p _

theorem unsetAllocated_sameOff (m : ByteMem) (p : Nat) : m.SameOff (unsetAllocated m p) p mpPage :=
  flags_.set_sameOff m p 0

@[simp] theorem isAllocated_setAllocated : isAllocated (setAllocated m p) p = true := by
  have hlt : flags_.get m p ||| 1 < 256 ^ 4 :=
    Nat.or_lt_two_pow (n := 32) (Field.get_lt flags_ m p) (by decide)
  rw [isAllocated, setAllocated, Field.get_set hlt, Nat.and_or_distrib_right]
  have h : (flags_.get m p &&& 1) ||| 1 = 1 := by
    rw [Nat.and_one_is_mod]
    rcases Nat.mod_two_eq_zero_or_one (flags_.get m p) with h | h <;> rw [h] <;> rfl
  rw [show 1 &&& 1 = 1 from rfl, h]
  rfl

@[simp] theorem isAllocated_unsetAllocated : isAllocated (unsetAllocated m p) p = false := by
  rw [isAllocated, unsetAllocated, Field.get_set (by decide)]
  rfl

theorem isAllocated_congr (h : m.SameOn m' p mpPage) : isAllocated m' p = isAllocated m p := by
  rw [isAllocated, isAllocated, flags_.get_congr h]

theorem isAllocated_set_apart {f : Field} {v : Nat} (h : flags_.Apart f) :
    isAllocated (f.set m p v) p = isAllocated m p := by
  rw [isAllocated, isAllocated, Field.get_set_apart h]

end MpPage

/-! ## Size classes -/

/-- The integer ceiling of `log2`. -/
def ceilLog2 (n : Nat) : Nat := if n ≤ 1 then 0 else Nat.log2 (n - 1) + 1

theorem le_two_pow_ceilLog2 (n : Nat) : n ≤ 2 ^ ceilLog2 n := by
  unfold ceilLog2
  split
  · simpa using ‹n ≤ 1›
  · have := Nat.lt_log2_self (n := n - 1)
    omega

theorem ceilLog2_le {n e : Nat} (h : n ≤ 2 ^ e) : ceilLog2 n ≤ e := by
  unfold ceilLog2
  split
  · exact Nat.zero_le e
  · exact (Nat.log2_lt (by omega)).mpr (by omega)

theorem ceilLog2_two_pow (e : Nat) : ceilLog2 (2 ^ e) = e :=
  Nat.le_antisymm (ceilLog2_le (Nat.le_refl _))
    ((Nat.pow_le_pow_iff_right (by decide)).mp (le_two_pow_ceilLog2 _))

theorem lt_ceilLog2 {n e : Nat} (h : 2 ^ e < n) : e < ceilLog2 n :=
  (Nat.pow_lt_pow_iff_right (a := 2) (by decide)).mp (Nat.lt_of_lt_of_le h (le_two_pow_ceilLog2 n))

structure PageId where
  orig_ : Nat
  round_ : Nat
  exp_ : Nat

namespace PageId

def min_cached_size_exp_ : Nat := 6
def min_cached_size_ : Nat := 2 ^ min_cached_size_exp_ + mpPage
def max_cached_size_exp_ : Nat := 24
def num_caches_ : Nat := max_cached_size_exp_ - min_cached_size_exp_ + 1

/-- The constructor; a size below the smallest class keeps the exponent of that
class where the others are counted from it. -/
def ofSize (size : Nat) : PageId :=
  let exp := ceilLog2 (wordSub sizeT size mpPage)
  if exp < min_cached_size_exp_ then
    { orig_ := size, round_ := min_cached_size_, exp_ := min_cached_size_exp_ }
  else if exp > max_cached_size_exp_ then
    { orig_ := size, round_ := size, exp_ := max_cached_size_exp_ }
  else { orig_ := size, round_ := 2 ^ exp + mpPage, exp_ := exp - min_cached_size_exp_ }

end PageId

/-- A free list of a `PageAllocator`. -/
inductive Slot
  | cls (i : Nat)
  | fallback
  deriving DecidableEq

def PageId.slot (id : PageId) : Slot := if id.exp_ < num_caches_ then .cls id.exp_ else .fallback

/-- The sizes that pages have: a class, or larger than every class. -/
inductive PageSize : Nat → Slot → Prop
  | cls {i : Nat} (hi : i < PageId.num_caches_) : PageSize (2 ^ (i + 6) + mpPage) (.cls i)
  | large {n : Nat} (hn : 2 ^ 24 + mpPage < n) (hlt : n < sizeT) : PageSize n .fallback

theorem PageSize.lt {n : Nat} {sl : Slot} (h : PageSize n sl) : n < sizeT := by
  cases h with
  | @cls i hi =>
    have : 2 ^ (i + 6) ≤ 2 ^ 24 := Nat.pow_le_pow_right (by decide) (by
      have : PageId.num_caches_ = 19 := rfl
      omega)
    have : mpPage = 32 := rfl
    have : sizeT = 2 ^ 64 := rfl
    omega
  | large _ hlt => exact hlt

theorem PageSize.header_le {n : Nat} {sl : Slot} (h : PageSize n sl) : mpPage ≤ n := by
  cases h with
  | cls => exact Nat.le_add_left ..
  | large hn => omega

namespace PageId

/-- A page goes to the slot of its size. -/
theorem slot_pageSize {n : Nat} {sl : Slot} (h : PageSize n sl) : (ofSize n).slot = sl := by
  have hn := h.header_le
  cases h with
  | @cls i hi =>
    have hi' : i < 19 := hi
    unfold ofSize slot
    rw [wordSub_of_le hn, Nat.add_sub_cancel, ceilLog2_two_pow]
    have h1 : ¬ i + 6 < min_cached_size_exp_ := by unfold min_cached_size_exp_; omega
    have h2 : ¬ i + 6 > max_cached_size_exp_ := by unfold max_cached_size_exp_; omega
    simp only [if_neg h1, if_neg h2]
    rw [show i + 6 - min_cached_size_exp_ = i from Nat.add_sub_cancel .., if_pos hi]
  | large hl =>
    unfold ofSize slot
    rw [wordSub_of_le hn]
    have h2 : max_cached_size_exp_ < ceilLog2 (n - mpPage) := lt_ceilLog2 (by
      unfold max_cached_size_exp_
      omega)
    have h1 : ¬ ceilLog2 (n - mpPage) < min_cached_size_exp_ := by
      unfold max_cached_size_exp_ at h2
      unfold min_cached_size_exp_
      omega
    simp only [if_neg h1, if_pos h2]
    rfl

/-- A request is rounded up to a page size, and the pages of its slot are no smaller. -/
theorem ofSize_request {size : Nat} (hs : size + mpPage < sizeT) :
    (∃ sl, PageSize (ofSize (size + mpPage)).round_ sl) ∧
      size + mpPage ≤ (ofSize (size + mpPage)).round_ ∧
      ∀ n, PageSize n (ofSize (size + mpPage)).slot →
        (ofSize (size + mpPage)).slot ≠ .fallback → (ofSize (size + mpPage)).round_ ≤ n := by
  have hle := le_two_pow_ceilLog2 size
  unfold ofSize slot
  rw [wordSub_of_le (Nat.le_add_left ..), Nat.add_sub_cancel]
  by_cases h1 : ceilLog2 size < min_cached_size_exp_
  · -- the small requests, whose slot is the seventh
    simp only [if_pos h1]
    refine ⟨⟨.cls 0, .cls (i := 0) (by decide)⟩, ?_, fun n hn _ => ?_⟩
    · have : 2 ^ ceilLog2 size ≤ 2 ^ min_cached_size_exp_ :=
        Nat.pow_le_pow_right (by decide) (Nat.le_of_lt h1)
      unfold min_cached_size_
      omega
    · rw [if_pos (by decide)] at hn
      cases hn
      decide
  · simp only [if_neg h1]
    by_cases h2 : ceilLog2 size > max_cached_size_exp_
    · simp only [if_pos h2]
      refine ⟨⟨.fallback, .large ?_ hs⟩, Nat.le_refl _, fun n hn hne => absurd rfl hne⟩
      have : ¬ size ≤ 2 ^ 24 := fun h => Nat.not_lt.mpr (ceilLog2_le h) h2
      omega
    · simp only [if_neg h2]
      unfold min_cached_size_exp_ at h1 ⊢
      unfold max_cached_size_exp_ at h2
      have hc : ceilLog2 size - 6 < num_caches_ := by
        have : num_caches_ = 19 := rfl
        omega
      refine ⟨⟨.cls (ceilLog2 size - 6), ?_⟩, by omega, fun n hn _ => ?_⟩
      · have := PageSize.cls hc
        rwa [Nat.sub_add_cancel (by omega)] at this
      · rw [if_pos hc] at hn
        cases hn
        rw [Nat.sub_add_cancel (by omega)]

/-- A page of a request that is no smaller than the smallest class goes to the slot of
the request. -/
theorem slot_round {size : Nat} (h : 32 < size) :
    (ofSize (ofSize (size + mpPage)).round_).slot = (ofSize (size + mpPage)).slot := by
  have h1 : ¬ ceilLog2 size < min_cached_size_exp_ :=
    Nat.not_lt.mpr (lt_ceilLog2 (show 2 ^ 5 < size from h))
  by_cases h2 : ceilLog2 size > max_cached_size_exp_
  · -- a page as long as the request
    have hround : (ofSize (size + mpPage)).round_ = size + mpPage := by
      unfold ofSize
      simp only [wordSub_of_le (Nat.le_add_left ..), Nat.add_sub_cancel, if_neg h1, if_pos h2]
    rw [hround]
  · have hid : ofSize (size + mpPage) =
        ⟨size + mpPage, 2 ^ ceilLog2 size + mpPage, ceilLog2 size - min_cached_size_exp_⟩ := by
      unfold ofSize
      simp only [wordSub_of_le (Nat.le_add_left ..), Nat.add_sub_cancel, if_neg h1, if_neg h2]
    unfold min_cached_size_exp_ at h1 hid
    unfold max_cached_size_exp_ at h2
    have hc : ceilLog2 size - 6 < num_caches_ := by
      have : num_caches_ = 19 := rfl
      omega
    have hs := PageSize.cls hc
    rw [Nat.sub_add_cancel (Nat.not_lt.mp h1)] at hs
    rw [hid, slot_pageSize hs, slot, if_pos hc]

end PageId

/-- The class of a request, with its header. -/
def requestId (size : Nat) : PageId := .ofSize (wordAdd sizeT size mpPage)

/-- The size with its header does not overflow. -/
def NoWrap (size : Nat) : Prop := size + mpPage < sizeT

instance (size : Nat) : Decidable (NoWrap size) := inferInstanceAs (Decidable (_ < _))

theorem requestId_eq {size : Nat} (h : NoWrap size) : requestId size = .ofSize (size + mpPage) := by
  rw [requestId, wordAdd_of_lt h]

end HermesShm.Memory
