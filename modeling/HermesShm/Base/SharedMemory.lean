import HermesShm.Base.ByteMem
import Mathlib.Logic.Function.Basic

/-! # Shared memory objects

Objects have names, sizes and bytes. A process opens an object by its name, maps pages of
it and reaches its bytes through addresses; an object outlives its name and its
descriptors. Pages and descriptors carry a tag that only an observer reads. -/
namespace HermesShm.Base

/-- A number is stored byte by byte. -/
theorem ByteMem.store_succ (m : ByteMem) (a n v : Nat) :
    ByteMem.store (Function.update m a (UInt8.ofNat v)) (a + 1) n (v / 256) =
      m.store a (n + 1) v := by
  funext x
  simp only [ByteMem.store]
  by_cases hx : a + 1 ≤ x ∧ x < a + 1 + n
  · rw [if_pos hx, if_pos (by omega), Nat.div_div_eq_div_mul,
      show x - a = x - (a + 1) + 1 by omega, Nat.pow_succ, Nat.mul_comm]
  · rw [if_neg hx]
    by_cases hxa : x = a
    · rw [hxa, Function.update_self, if_pos (by omega), Nat.sub_self, Nat.pow_zero, Nat.div_one]
    · rw [Function.update_of_ne hxa, if_neg (by omega)]

/-- Pages of `bytes` bytes, `count` of them in an address space. -/
structure Paging where
  bytes : Nat
  count : Nat
  pos : 0 < bytes

/-- What a page of a process stands for. -/
inductive Frame (τ : Type)
  | anon
  | shm (object index : Nat) (tag : τ)
  deriving DecidableEq

abbrev PageTable (τ : Type) := Nat → Option (Frame τ)

namespace PageTable

variable {τ : Type} {t : PageTable τ} {tag : τ} {v n f k w : Nat}

def map (t : PageTable τ) (v n f k : Nat) (tag : τ) : PageTable τ := fun w =>
  if v ≤ w ∧ w < v + n then some (.shm f (k + (w - v)) tag) else t w

def unmap (t : PageTable τ) (v n : Nat) : PageTable τ := fun w =>
  if v ≤ w ∧ w < v + n then none else t w

def Free (t : PageTable τ) (v n : Nat) : Prop := ∀ w, w < n → t (v + w) = none

instance : Decidable (t.Free v n) := inferInstanceAs (Decidable (∀ w, w < n → _))

theorem Free.apply (h : t.Free v n) (hv : v ≤ w) (hw : w < v + n) : t w = none := by
  have hfree := h (w - v) (by omega)
  rwa [Nat.add_sub_cancel' hv] at hfree

theorem map_in (hv : v ≤ w) (hw : w < v + n) :
    t.map v n f k tag w = some (.shm f (k + (w - v)) tag) := if_pos ⟨hv, hw⟩

/-- What was mapped stays. -/
theorem map_of_some (h : t.Free v n) {fr : Frame τ} (hw : t w = some fr) :
    t.map v n f k tag w = some fr := by
  refine (if_neg fun hin => ?_).trans hw
  rw [h.apply hin.1 hin.2] at hw
  cases hw

theorem map_cases {fr : Frame τ} (h : t.map v n f k tag w = some fr) :
    t w = some fr ∨ (v ≤ w ∧ w < v + n ∧ fr = .shm f (k + (w - v)) tag) := by
  rw [map] at h
  split at h
  · rename_i hin
    exact .inr ⟨hin.1, hin.2, (Option.some.inj h).symm⟩
  · exact .inl h

theorem unmap_out (h : w < v ∨ v + n ≤ w) : t.unmap v n w = t w := if_neg (by omega)

theorem unmap_cases {fr : Frame τ} (h : t.unmap v n w = some fr) :
    t w = some fr ∧ (w < v ∨ v + n ≤ w) := by
  rw [unmap] at h
  split at h
  · cases h
  · exact ⟨h, by omega⟩

end PageTable

structure ShmObject where
  size : Nat
  bytes : ByteMem

/-- `count` objects were made so far; `ι` are the processes, `N` the names, and `κ` and `τ`
the tags of descriptors and pages. -/
structure Kernel (ι N κ τ : Type) where
  names : N → Option Nat
  objects : Nat → ShmObject
  count : Nat
  tables : ι → PageTable τ
  fds : ι → Nat → Option (Nat × κ)

namespace Paging

/-- The pages that `len` bytes need. -/
def pagesOf (G : Paging) (len : Nat) : Nat := (len + G.bytes - 1) / G.bytes

variable {G : Paging} {len y : Nat}

theorem le_pagesOf (G : Paging) (len : Nat) : len ≤ G.pagesOf len * G.bytes := by
  have hpos := G.pos
  have hdiv := Nat.div_add_mod (len + G.bytes - 1) G.bytes
  have hmod := Nat.mod_lt (len + G.bytes - 1) hpos
  rw [pagesOf, Nat.mul_comm]
  omega

theorem div_lt_pagesOf (h : y < len) : y / G.bytes < G.pagesOf len := by
  refine (Nat.div_lt_iff_lt_mul G.pos).mpr (Nat.lt_of_lt_of_le h (G.le_pagesOf len))

theorem pagesOf_pos (h : 0 < len) : 0 < G.pagesOf len := by
  exact Nat.lt_of_le_of_lt (Nat.zero_le _) (div_lt_pagesOf h)

theorem pagesOf_bytes (G : Paging) : G.pagesOf G.bytes = 1 := by
  have hpos := G.pos
  exact Nat.div_eq_of_lt_le (by omega) (by omega)

end Paging

namespace Kernel

variable {ι N κ τ : Type} {G : Paging} {K : Kernel ι N κ τ} {i : ι} {a f x y n len : Nat}
  {byte : UInt8}

/-! ## Calls -/

/-- `shm_open` with `O_CREAT`: the object of the name, or a new one. -/
def create [DecidableEq N] (K : Kernel ι N κ τ) (name : N) : Kernel ι N κ τ × Nat :=
  match K.names name with
  | some f => (K, f)
  | none =>
    ({ K with
        names := Function.update K.names name (some K.count)
        objects := Function.update K.objects K.count ⟨0, fun _ => 0⟩
        count := K.count + 1 }, K.count)

def setObject (K : Kernel ι N κ τ) (f : Nat) (o : ShmObject) : Kernel ι N κ τ :=
  { K with objects := Function.update K.objects f o }

/-- What is cut off is gone, and what is added is zero. -/
def truncate (K : Kernel ι N κ τ) (f size : Nat) : Kernel ι N κ τ :=
  let o := K.objects f
  K.setObject f ⟨size, fun x => if x < o.size ∧ x < size then o.bytes x else 0⟩

def unlink [DecidableEq N] (K : Kernel ι N κ τ) (name : N) : Kernel ι N κ τ :=
  { K with names := Function.update K.names name none }

section

variable [DecidableEq ι]

/-- The descriptor table, which chooses a number that is free. -/
def openFd (K : Kernel ι N κ τ) (i : ι) (d f : Nat) (tag : κ) : Option (Kernel ι N κ τ) :=
  if (K.fds i d).isNone then
    some { K with fds := Function.update K.fds i (Function.update (K.fds i) d (some (f, tag))) }
  else none

def close (K : Kernel ι N κ τ) (i : ι) (d : Nat) : Kernel ι N κ τ :=
  { K with fds := Function.update K.fds i (Function.update (K.fds i) d none) }

def setTable (K : Kernel ι N κ τ) (i : ι) (t : PageTable τ) : Kernel ι N κ τ :=
  { K with tables := Function.update K.tables i t }

/-- `mmap` of `len` bytes of an object from `off` on, at the free pages from `v` on. -/
def mmap (G : Paging) (K : Kernel ι N κ τ) (i : ι) (f len off v : Nat) (tag : τ) :
    Option (Kernel ι N κ τ) :=
  if off % G.bytes = 0 ∧ 0 < len ∧ 0 < v ∧ v + G.pagesOf len ≤ G.count ∧
      (K.tables i).Free v (G.pagesOf len) then
    some (K.setTable i ((K.tables i).map v (G.pagesOf len) f (off / G.bytes) tag))
  else none

/-- `munmap` of whole pages; no page needs to be mapped. -/
def munmap (G : Paging) (K : Kernel ι N κ τ) (i : ι) (a len : Nat) : Kernel ι N κ τ :=
  if a % G.bytes = 0 ∧ 0 < len ∧ a / G.bytes + G.pagesOf len ≤ G.count then
    K.setTable i ((K.tables i).unmap (a / G.bytes) (G.pagesOf len))
  else K

variable {i j : ι} {a w len : Nat} {fr : Frame τ}

theorem munmap_old (h : (K.munmap G i a len).tables j w = some fr) : K.tables j w = some fr := by
  rw [munmap] at h
  split at h
  · simp only [setTable] at h
    obtain rfl | hne := eq_or_ne j i
    · rw [Function.update_self] at h
      exact (PageTable.unmap_cases h).1
    · rwa [Function.update_of_ne hne] at h
  · exact h

theorem munmap_out (ha : a % G.bytes = 0) (hlen : 0 < len)
    (hbound : a / G.bytes + G.pagesOf len ≤ G.count)
    (h : (K.munmap G i a len).tables i w = some fr) :
    w < a / G.bytes ∨ a / G.bytes + G.pagesOf len ≤ w := by
  rw [munmap, if_pos ⟨ha, hlen, hbound⟩] at h
  simp only [setTable, Function.update_self] at h
  exact (PageTable.unmap_cases h).2

theorem munmap_kept (h : K.tables j w = some fr)
    (hout : j = i → w < a / G.bytes ∨ a / G.bytes + G.pagesOf len ≤ w) :
    (K.munmap G i a len).tables j w = some fr := by
  rw [munmap]
  split
  · simp only [setTable]
    obtain rfl | hne := eq_or_ne j i
    · rw [Function.update_self, PageTable.unmap_out (hout rfl), h]
    · rw [Function.update_of_ne hne, h]
  · exact h

@[simp] theorem munmap_names : (K.munmap G i a len).names = K.names := by
  rw [munmap]; split <;> rfl

@[simp] theorem munmap_objects : (K.munmap G i a len).objects = K.objects := by
  rw [munmap]; split <;> rfl

@[simp] theorem munmap_count : (K.munmap G i a len).count = K.count := by
  rw [munmap]; split <;> rfl

@[simp] theorem munmap_fds : (K.munmap G i a len).fds = K.fds := by
  rw [munmap]; split <;> rfl

end

/-! ## Accesses -/

/-- The object and the place in it that an address stands for. -/
def translate (G : Paging) (K : Kernel ι N κ τ) (i : ι) (a : Nat) : Option (Nat × Nat) :=
  match K.tables i (a / G.bytes) with
  | some (.shm f k _) => some (f, k * G.bytes + a % G.bytes)
  | _ => none

/-- No result where the page is not mapped, or is past the end of the object. -/
def load (G : Paging) (K : Kernel ι N κ τ) (i : ι) (a : Nat) : Option UInt8 := do
  let (f, x) ← K.translate G i a
  if x / G.bytes < G.pagesOf (K.objects f).size then some ((K.objects f).bytes x) else none

def store (G : Paging) (K : Kernel ι N κ τ) (i : ι) (a : Nat) (byte : UInt8) :
    Option (Kernel ι N κ τ) := do
  let (f, x) ← K.translate G i a
  let o := K.objects f
  if x / G.bytes < G.pagesOf o.size then
    some (K.setObject f { o with bytes := Function.update o.bytes x byte })
  else none

/-- The number in the `n` bytes at an address. -/
def loadWord (G : Paging) (K : Kernel ι N κ τ) (i : ι) (a : Nat) : Nat → Option Nat
  | 0 => some 0
  | n + 1 => do
    let byte ← K.load G i a
    let rest ← K.loadWord G i (a + 1) n
    some (byte.toNat + 256 * rest)

def storeWord (G : Paging) (K : Kernel ι N κ τ) (i : ι) (a : Nat) :
    Nat → Nat → Option (Kernel ι N κ τ)
  | 0, _ => some K
  | n + 1, v => do
    let K ← K.store G i a (UInt8.ofNat v)
    K.storeWord G i (a + 1) n (v / 256)

/-- The `len` bytes at `a` are those of object `f` from `x` on. -/
def Mapped (G : Paging) (K : Kernel ι N κ τ) (i : ι) (a len f x : Nat) : Prop :=
  ∀ y, y < len → K.translate G i (a + y) = some (f, x + y)

/-- A row of pages maps what lies in it. -/
theorem mapped_of_pages (tag : τ) (ha : a % G.bytes = 0) (hx : x % G.bytes = 0)
    (h : ∀ w, a / G.bytes ≤ w → w < a / G.bytes + G.pagesOf len →
      K.tables i w = some (.shm f (x / G.bytes + (w - a / G.bytes)) tag)) :
    K.Mapped G i a len f x := by
  intro y hy
  have hpos := G.pos
  have hadiv := Nat.div_add_mod a G.bytes
  have hxdiv := Nat.div_add_mod x G.bytes
  have hydiv := Nat.div_add_mod y G.bytes
  have hdiv : (a + y) / G.bytes = a / G.bytes + y / G.bytes := by
    rw [← hadiv, ha, Nat.add_zero, Nat.mul_add_div hpos, Nat.mul_div_cancel_left _ hpos]
  have hmod : (a + y) % G.bytes = y % G.bytes := by
    rw [Nat.add_mod, ha, Nat.zero_add, Nat.mod_mod]
  have hpage := h (a / G.bytes + y / G.bytes) (Nat.le_add_right ..)
    (Nat.add_lt_add_left (Paging.div_lt_pagesOf hy) _)
  rw [translate, hdiv, hpage, hmod]
  refine congrArg (fun z => some (f, z)) ?_
  rw [Nat.add_sub_cancel_left, Nat.add_mul, Nat.mul_comm, Nat.mul_comm (y / G.bytes)]
  omega

namespace Mapped

theorem sub {z m : Nat} (h : K.Mapped G i a len f x) (hz : z + m ≤ len) :
    K.Mapped G i (a + z) m f (x + z) := by
  intro y hy
  have := h (z + y) (by omega)
  rwa [← Nat.add_assoc, ← Nat.add_assoc] at this

/-- Only the page table says what is mapped. -/
theorem congr {K' : Kernel ι N κ τ} (h : K.Mapped G i a len f x)
    (ht : K'.tables i = K.tables i) : K'.Mapped G i a len f x := by
  intro y hy
  rw [translate, ht]
  exact h y hy

theorem load (h : K.Mapped G i a len f x) (hx : x + len ≤ (K.objects f).size) (hy : y < len) :
    K.load G i (a + y) = some ((K.objects f).bytes (x + y)) := by
  simp only [Kernel.load, h y hy, Option.bind_eq_bind, Option.bind_some]
  exact if_pos (Paging.div_lt_pagesOf (by omega))

theorem store (h : K.Mapped G i a len f x) {K' : Kernel ι N κ τ} (hy : y < len)
    (hK : K.store G i (a + y) byte = some K') : K' = K.setObject f
      { K.objects f with bytes := Function.update (K.objects f).bytes (x + y) byte } := by
  simp only [Kernel.store, h y hy, Option.bind_eq_bind, Option.bind_some] at hK
  split at hK
  · exact (Option.some.inj hK).symm
  · cases hK

/-- A load that does not fault gives the number in the object. -/
theorem loadWord (h : K.Mapped G i a n f x) {v : Nat} (hv : K.loadWord G i a n = some v) :
    v = (K.objects f).bytes.load x n := by
  induction n generalizing a x v with
  | zero => exact (Option.some.inj hv).symm
  | succ n ih =>
    have hhead := h 0 n.succ_pos
    obtain ⟨byte, hbyte, hv⟩ := Option.bind_eq_some_iff.mp hv
    obtain ⟨rest, hrest, hv⟩ := Option.bind_eq_some_iff.mp hv
    rw [Nat.add_zero, Nat.add_zero] at hhead
    simp only [Kernel.load, hhead, Option.bind_eq_bind, Option.bind_some] at hbyte
    split at hbyte
    · cases hbyte
      rw [ByteMem.load, ← ih (h.sub (Nat.le_of_eq (Nat.add_comm 1 n))) hrest]
      exact (Option.some.inj hv).symm
    · cases hbyte

/-- A store that does not fault changes the bytes of the object. -/
theorem storeWord (h : K.Mapped G i a n f x) {v : Nat} {K' : Kernel ι N κ τ}
    (hK : K.storeWord G i a n v = some K') : K' = K.setObject f
      { K.objects f with bytes := (K.objects f).bytes.store x n v } := by
  induction n generalizing K a x v with
  | zero =>
    have hzero : (K.objects f).bytes.store x 0 v = (K.objects f).bytes :=
      funext fun y => if_neg (by omega)
    rw [hzero]
    simp only [setObject, Function.update_eq_self]
    exact (Option.some.inj hK).symm
  | succ n ih =>
    have hhead := h 0 n.succ_pos
    obtain ⟨K₁, hbyte, hrest⟩ := Option.bind_eq_some_iff.mp hK
    rw [Nat.add_zero, Nat.add_zero] at hhead
    simp only [Kernel.store, hhead, Option.bind_eq_bind, Option.bind_some] at hbyte
    split at hbyte
    · cases hbyte
      have htail : (K.setObject f { K.objects f with
            bytes := Function.update (K.objects f).bytes x (UInt8.ofNat v) }).Mapped G i
          (a + 1) n f (x + 1) := (h.sub (by omega)).congr rfl
      rw [ih htail hrest]
      simp only [setObject, Function.update_self, Function.update_idem, ByteMem.store_succ]
    · cases hbyte

end Mapped
end Kernel
end HermesShm.Base
