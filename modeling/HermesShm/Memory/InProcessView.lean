import HermesShm.Memory.InProcess

/-! # What a process does to the buffer

Reading and writing at an address inside the mapping of the buffer is reading and writing
the bytes of the buffer, for the words of the headers, the fields of the pages and the
links of the lists. -/
namespace HermesShm.Memory.InProcess
open HermesShm.Base MpPage

/-- The buffer is mapped behind the null address, with the address past its end. -/
def Mappable (size base : Nat) : Prop := 0 < base ∧ base + size < sizeT

instance (size base : Nat) : Decidable (Mappable size base) := by unfold Mappable; infer_instance

variable {size x y v n buf : Nat} {σ : ByteMem} {p : Mapping}

/-! ## Words -/

theorem getWord_lt (m : ByteMem) (a : Nat) : getWord m a < sizeT := m.load_lt a 8

theorem getWord_setWord (m : ByteMem) (a : Nat) (hv : v < sizeT) : getWord (setWord m a v) a = v :=
  ByteMem.load_store hv

theorem load_setWord_apart {m : ByteMem} {a b : Nat} (h : b + n ≤ a ∨ a + 8 ≤ b) :
    (setWord m a v).load b n = m.load b n := ByteMem.load_store_apart h

theorem getWord_setWord_apart {m : ByteMem} {a b : Nat} (h : b + 8 ≤ a ∨ a + 8 ≤ b) :
    getWord (setWord m a v) b = getWord m b := load_setWord_apart h

theorem setWord_sameOff (m : ByteMem) (a v : Nat) : m.SameOff (setWord m a v) a 8 :=
  m.store_sameOff a 8 v

theorem getWord_congr {m m' : ByteMem} {a : Nat} (h : m.SameOn m' a 8) :
    getWord m' a = getWord m a := ByteMem.load_congr h

theorem getWord_view (h : x + 8 ≤ size) : getWord (p.view size σ) (p.base + x) = getWord σ x :=
  Mapping.load_view h

theorem setWord_view (h : x + 8 ≤ size) :
    setWord (p.view size σ) (p.base + x) v = p.view size (setWord σ x v) := Mapping.store_view h

/-- A word at an offset from an address inside. -/
theorem getWord_view_add (h : x + y + 8 ≤ size) :
    getWord (p.view size σ) (p.base + x + y) = getWord σ (x + y) := by
  rw [Nat.add_assoc, getWord_view h]

theorem setWord_view_add (h : x + y + 8 ≤ size) :
    setWord (p.view size σ) (p.base + x + y) v = p.view size (setWord σ (x + y) v) := by
  rw [Nat.add_assoc, setWord_view h]

theorem idWord_lt (id : AllocatorRegistry.AllocatorId) : idWord id < sizeT := by
  have := id.major_.toUInt32.toNat_lt
  have := id.minor_.toUInt32.toNat_lt
  unfold idWord sizeT
  omega

theorem wordId_idWord (id : AllocatorRegistry.AllocatorId) : wordId (idWord id) = id := by
  obtain ⟨major, minor⟩ := id
  have hmajor := major.toUInt32.toNat_lt
  have hminor := minor.toUInt32.toNat_lt
  have h1 : UInt32.ofNat (major.toUInt32.toNat + 2 ^ 32 * minor.toUInt32.toNat) =
      major.toUInt32 := by
    apply UInt32.toNat_inj.mp
    rw [UInt32.toNat_ofNat']
    omega
  have h2 : UInt32.ofNat ((major.toUInt32.toNat + 2 ^ 32 * minor.toUInt32.toNat) / 2 ^ 32) =
      minor.toUInt32 := by
    apply UInt32.toNat_inj.mp
    rw [UInt32.toNat_ofNat']
    omega
  unfold wordId idWord
  simp only [h1, h2]
  rfl

/-! ## Pages -/

theorem field_get_view (f : Field) (h : x + mpPage ≤ size) :
    f.get (p.view size σ) (p.base + x) = f.get σ x := by
  have := f.fits
  unfold Field.get
  rw [Nat.add_assoc, Mapping.load_view (by omega)]

theorem field_set_view (f : Field) (h : x + mpPage ≤ size) :
    f.set (p.view size σ) (p.base + x) v = p.view size (f.set σ x v) := by
  have := f.fits
  unfold Field.set
  rw [Nat.add_assoc, Mapping.store_view (by omega)]

theorem setAllocated_view (h : x + mpPage ≤ size) :
    setAllocated (p.view size σ) (p.base + x) = p.view size (setAllocated σ x) := by
  unfold setAllocated
  rw [field_get_view _ h, field_set_view _ h]

theorem unsetAllocated_view (h : x + mpPage ≤ size) :
    unsetAllocated (p.view size σ) (p.base + x) = p.view size (unsetAllocated σ x) :=
  field_set_view _ h

theorem isAllocated_view (h : x + mpPage ≤ size) :
    isAllocated (p.view size σ) (p.base + x) = isAllocated σ x := by
  unfold isAllocated
  rw [field_get_view _ h]

/-! ## Memories that are the same from some offset on -/

/-- `m'` has the bytes of `m` from `lo` on. -/
def SameFrom (lo : Nat) (m m' : ByteMem) : Prop := ∀ x, lo ≤ x → m' x = m x

namespace SameFrom

variable {lo a : Nat} {m m' m'' : ByteMem}

theorem refl (lo : Nat) (m : ByteMem) : SameFrom lo m m := fun _ _ => rfl

theorem trans (h : SameFrom lo m m') (h' : SameFrom lo m' m'') : SameFrom lo m m'' :=
  fun x hx => (h' x hx).trans (h x hx)

theorem of_sameOff (h : m.SameOff m' a n) (ha : a + n ≤ lo) : SameFrom lo m m' :=
  fun x hx => h x (by omega)

theorem sameOn (h : SameFrom lo m m') (ha : lo ≤ a) : m.SameOn m' a n :=
  fun x hx _ => h x (Nat.le_trans ha hx)

theorem setWord (m : ByteMem) (v : Nat) (ha : a + 8 ≤ lo) : SameFrom lo m (setWord m a v) :=
  of_sameOff (setWord_sameOff m a v) ha

theorem field_set (f : Field) (h : SameFrom lo m m') :
    SameFrom lo (f.set m x v) (f.set m' x v) := by
  intro y hy
  unfold Field.set ByteMem.store
  rw [h y hy]

theorem setAllocated (h : SameFrom lo m m') (hx : lo ≤ x) :
    SameFrom lo (MpPage.setAllocated m x) (MpPage.setAllocated m' x) := by
  unfold MpPage.setAllocated
  rw [flags_.get_congr (h.sameOn hx)]
  exact h.field_set flags_

theorem unsetAllocated (h : SameFrom lo m m') :
    SameFrom lo (MpPage.unsetAllocated m x) (MpPage.unsetAllocated m' x) := h.field_set flags_

end SameFrom

/-! ## Headers -/

theorem addSize_view (h : 32 ≤ size) :
    addSize (p.view size σ) p.base n = p.view size (addSize σ 0 n) := by
  unfold addSize getTotal
  rw [getWord_view (by omega), setWord_view (by omega), Nat.zero_add]

theorem subSize_view (h : 32 ≤ size) :
    subSize (p.view size σ) p.base n = p.view size (subSize σ 0 n) := by
  unfold subSize getTotal
  rw [getWord_view (by omega), setWord_view (by omega), Nat.zero_add]

theorem heap_allocateOffset_view (h : x + 24 ≤ size) :
    HeapAllocator.allocateOffset (p.view size σ) (p.base + x) n =
      ((HeapAllocator.allocateOffset σ x n).1,
        p.view size (HeapAllocator.allocateOffset σ x n).2) := by
  unfold HeapAllocator.allocateOffset
  simp only [getWord_view_add (show x + 8 + 8 ≤ size by omega),
    setWord_view_add (show x + 8 + 8 ≤ size by omega),
    getWord_view_add (show x + 16 + 8 ≤ size by omega),
    getWord_view (show x + 8 ≤ size by omega)]
  split
  · simp only
  · simp only

theorem lock_view (h : x + 16 ≤ size) :
    Mutex.lock (p.view size σ) (p.base + x) = (Mutex.lock σ x).map fun m => p.view size m := by
  unfold Mutex.lock
  simp only [getWord_view (show x + 8 ≤ size by omega), setWord_view (show x + 8 ≤ size by omega),
    getWord_view_add (show x + 8 + 8 ≤ size by omega)]
  split <;> rfl

theorem unlock_view (h : x + 16 ≤ size) :
    Mutex.unlock (p.view size σ) (p.base + x) = p.view size (Mutex.unlock σ x) := by
  unfold Mutex.unlock
  rw [getWord_view_add (by omega), setWord_view_add (by omega)]

theorem listHeader_get_view (h : x + 24 ≤ size) :
    ListHeader.get (p.view size σ) (p.base + x) = ListHeader.get σ x := by
  unfold ListHeader.get
  rw [getWord_view_add (by omega), getWord_view_add (by omega)]

theorem listHeader_set_view {l : ListQueue} (h : x + 24 ≤ size) :
    ListHeader.set (p.view size σ) (p.base + x) l = p.view size (ListHeader.set σ x l) := by
  unfold ListHeader.set
  rw [setWord_view_add (by omega), setWord_view_add (by omega)]

/-! ## Offsets -/

/-- An offset that names a byte of the buffer names its address in each process. -/
theorem convert_base {off : Nat} (h : ListQueue.convert buf off = some x) (hoff : off < sizeT)
    (hx : buf ≤ x) (hlt : p.base + x < sizeT) :
    ListQueue.convert (p.base + buf) off = some (p.base + x) := by
  have h64 : sizeT = 2 ^ 64 := rfl
  unfold ListQueue.convert offset? at h ⊢
  split at h
  · cases h
  · rename_i hn
    rw [Option.map_some, Option.some.injEq, wordAdd] at h
    rw [if_neg hn, Option.map_some, Option.some.injEq, wordAdd]
    have hsum : buf + off = x := by
      by_cases hw : buf + off < sizeT
      · rwa [Nat.mod_eq_of_lt hw] at h
      · rw [Nat.mod_eq_sub_mod (by omega)] at h
        have := Nat.mod_le (buf + off - sizeT) sizeT
        omega
    rw [Nat.mod_eq_of_lt (by omega)]
    omega

theorem convert_none_base {off : Nat} (h : ListQueue.convert buf off = none) :
    ListQueue.convert (p.base + buf) off = none := by
  unfold ListQueue.convert offset? at h ⊢
  split at h
  · rename_i hn
    rw [if_pos hn]
    rfl
  · cases h

theorem toShm_base (h : buf ≤ x) : ListQueue.toShm (p.base + buf) (p.base + x) =
    ListQueue.toShm buf x := by
  unfold ListQueue.toShm
  rw [wordSub_of_le h, wordSub_of_le (by omega), Nat.add_sub_add_left]

/-! ## Lists of pages in the buffer -/

/-- The pages lie in the buffer, from `buf` on. -/
def Within (size buf : Nat) (ps : List Nat) : Prop := ∀ q ∈ ps, buf ≤ q ∧ q + mpPage ≤ size

variable {q : ListQueue} {ps : List Nat} {round : Nat}

theorem convert_link {pos : Option Nat} {off : Nat} (hm : Mappable size p.base)
    (hin : Within size buf ps) (hoff : off < sizeT) (hc : ListQueue.convert buf off = pos)
    (hps : ∀ x, pos = some x → x ∈ ps) :
    ListQueue.convert (p.base + buf) off = pos.map (p.base + ·) := by
  unfold Mappable at hm
  cases pos with
  | none => exact convert_none_base hc
  | some x =>
    obtain ⟨hle, hx⟩ := hin x (hps x rfl)
    have : mpPage = 32 := rfl
    exact convert_base hc hoff hle (by omega)

theorem pop_view (hm : Mappable size p.base) (hr : q.Represents buf σ ps)
    (hin : Within size buf ps) :
    q.pop (p.base + buf) (p.view size σ) =
      ((q.pop buf σ).1.map (p.base + ·), (q.pop buf σ).2) := by
  cases ps with
  | nil =>
    rw [hr.pop_nil]
    exact if_pos hr.count
  | cons x ps =>
    have h0 : ¬ q.count_ = 0 := by rw [hr.count]; exact Nat.succ_ne_zero _
    have hx := hin x List.mem_cons_self
    have htail := convert_link hm hin hr.tail_lt hr.next.1 fun y hy => by
      cases hy
      exact List.mem_cons_self
    unfold ListQueue.pop
    rw [if_neg h0, if_neg h0, htail, hr.next.1]
    simp only [Option.map_some, field_get_view _ hx.2]

theorem enqueue_view (h : buf ≤ x) (hx : x + mpPage ≤ size) :
    q.enqueue (p.base + buf) (p.view size σ) (p.base + x) =
      (p.view size (q.enqueue buf σ x).1, (q.enqueue buf σ x).2) := by
  unfold ListQueue.enqueue
  rw [field_set_view _ hx, toShm_base h]

theorem findFit_view (prior : Option Nat) (fuel : Nat) {pos : Option Nat}
    (hm : Mappable size p.base)
    (hc : Chain (fun x => some (ListQueue.nextPage buf σ x)) pos ps none)
    (hin : Within size buf ps) :
    ListQueue.findFit (p.base + buf) (p.view size σ) round fuel (prior.map (p.base + ·))
        (pos.map (p.base + ·)) =
      (ListQueue.findFit buf σ round fuel prior pos).map fun r =>
        r.map fun (prior, x) => (prior.map (p.base + ·), p.base + x) := by
  induction ps generalizing pos prior fuel with
  | nil =>
    obtain rfl := hc
    cases fuel <;> rfl
  | cons x ps ih =>
    obtain ⟨rfl, next, hn, hc⟩ := hc
    obtain rfl := Option.some.inj hn
    have hx := hin x List.mem_cons_self
    cases fuel with
    | zero => rfl
    | succ fuel =>
      rw [Option.map_some, ListQueue.findFit, ListQueue.findFit, field_get_view _ hx.2]
      split
      · rfl
      · have hin' : Within size buf ps := fun y hy => hin y (List.mem_cons_of_mem _ hy)
        have hnext : ListQueue.nextPage (p.base + buf) (p.view size σ) (p.base + x) =
            (ListQueue.nextPage buf σ x).map (p.base + ·) := by
          unfold ListQueue.nextPage
          rw [field_get_view _ hx.2]
          refine convert_link hm hin' (next_shm_.get_lt σ x) rfl fun y hy => ?_
          cases ps with
          | nil => rw [ListQueue.nextPage] at hc; rw [hc] at hy; cases hy
          | cons z ps =>
            have hz := hc.1
            rw [ListQueue.nextPage] at hz
            rw [hz] at hy
            cases hy
            exact List.mem_cons_self
        rw [hnext]
        exact ih (some x) fuel hc hin'

theorem dequeueAt_view {prior : Option Nat} (hm : Mappable size p.base)
    (hr : q.Represents buf σ ps) (hin : Within size buf ps) (hx : x ∈ ps)
    (hprior : ∀ r, prior = some r → r ∈ ps) :
    q.dequeueAt (p.base + buf) (p.view size σ) (prior.map (p.base + ·)) (p.base + x) =
      (p.view size (q.dequeueAt buf σ prior x).1, (q.dequeueAt buf σ prior x).2) := by
  cases prior with
  | none =>
    rw [Option.map_none, ListQueue.dequeueAt, ListQueue.dequeueAt, pop_view hm hr hin]
  | some r =>
    have hr' := (hin r (hprior r rfl)).2
    rw [Option.map_some, ListQueue.dequeueAt, ListQueue.dequeueAt,
      field_get_view _ (hin x hx).2, field_set_view _ hr']

end HermesShm.Memory.InProcess
