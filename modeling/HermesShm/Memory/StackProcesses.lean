import HermesShm.Memory.InProcessRuns

/-! # The stack allocator in all processes

What `shm_deserialize` makes of the header is what `shm_init` made, but for the base; and
a call takes the same page and writes the same bytes in every process. -/
namespace HermesShm.Memory.InProcess.StackAllocator
open HermesShm.Base MpPage
open AllocatorRegistry (AllocatorId)

/-- The object that a process has of an allocator, for its buffer at `base`. -/
def attached (id : AllocatorId) (size base : Nat) : StackAllocator :=
  { type_ := kStackAllocator, id_ := id, buffer_ := base, buffer_size_ := size
    custom_header_ := base + headerSize, header_ := base, heap_ := base + 32 }

/-- The heap that the bytes at `x` hold. -/
def heapAt (σ : ByteMem) (x : Nat) : Memory.HeapAllocator :=
  { region_off_ := getWord σ x, heap_off_ := getWord σ (x + 8), heap_size_ := getWord σ (x + 16) }

/-- What the bytes of the buffer hold. -/
def state (σ : ByteMem) (live : List Block) : Memory.StackAllocator.State :=
  { mem := σ, heap_ := heapAt σ 32, total_alloc_ := getWord σ 24, live }

structure Good (id : AllocatorId) (size : Nat) (σ : ByteMem) (live : List Block) : Prop where
  type : σ.load 0 4 = kStackAllocator
  id : getWord σ 8 = idWord id
  region : headerSize ≤ getWord σ 32
  region_end : getWord σ 32 + getWord σ 48 = size
  heap_off : getWord σ 40 ≤ getWord σ 48
  inv : Memory.StackAllocator.Inv (state σ live) live

/-- The heap is not exhausted by the request. -/
def Room (σ : ByteMem) (size : Nat) : Prop := getWord σ 40 + (size + mpPage) ≤ getWord σ 48

/-- The calls are made with blocks in use, and the program stores to its blocks. -/
def Ok (σ : ByteMem) (live : List Block) : Op → Prop
  | .allocate size => Room σ size
  | .free p => ∃ b ∈ live, b.off = p
  | .reallocate p new_size => (∃ b ∈ live, b.off = p) ∧ Room σ new_size
  | .write x _ => ∃ b ∈ live, b.off ≤ x ∧ x < b.off + capacity σ b.off

instance (σ : ByteMem) (size : Nat) : Decidable (Room σ size) :=
  inferInstanceAs (Decidable (_ ≤ _))

instance (σ : ByteMem) (live : List Block) (c : Op) : Decidable (Ok σ live c) :=
  match c with
  | .allocate size => inferInstanceAs (Decidable (Room σ size))
  | .free p => inferInstanceAs (Decidable (∃ b ∈ live, b.off = p))
  | .reallocate p new_size => inferInstanceAs
    (Decidable ((∃ b ∈ live, b.off = p) ∧ Room σ new_size))
  | .write x _ => inferInstanceAs (Decidable (∃ b ∈ live, b.off ≤ x ∧ x < b.off + _))

variable {id : AllocatorId} {size n base : Nat} {σ σ' : ByteMem} {live live' : List Block}
  {b : Block}

/-- `shm_deserialize` finds what `shm_init` made. -/
theorem shmDeserialize_eq {p : Mapping} {y len : Nat} (htype : σ.load y 4 = kStackAllocator)
    (hid : getWord σ (y + 8) = idWord id) (hy : y + headerSize ≤ size) :
    shmDeserialize ⟨p.base + y, len⟩ (p.view size σ) = attached id len (p.base + y) := by
  unfold headerSize at hy
  simp only [shmDeserialize, attached, Mapping.load_view (show y + 4 ≤ size by omega),
    getWord_view_add (show y + 8 + 8 ≤ size by omega), htype, hid, wordId_idWord]

/-! ## Initializing -/

theorem configure_view {p : Mapping} {y type custom : Nat} (hy : y + 32 ≤ size) :
    configure (p.view size σ) (p.base + y) id type custom =
      p.view size (configure σ y id type custom) := by
  simp only [configure, Mapping.store_view (show y + 4 ≤ size by omega),
    setWord_view_add (show y + 8 + 8 ≤ size by omega),
    setWord_view_add (show y + 16 + 8 ≤ size by omega),
    setWord_view_add (show y + 24 + 8 ≤ size by omega)]

theorem heap_shmInit_view {p : Mapping} {y off len : Nat} (hy : y + 24 ≤ size) :
    HeapAllocator.shmInit (p.view size σ) (p.base + y) off len =
      p.view size (HeapAllocator.shmInit σ y off len) := by
  simp only [HeapAllocator.shmInit, setWord_view (show y + 8 ≤ size by omega),
    setWord_view_add (show y + 8 + 8 ≤ size by omega),
    setWord_view_add (show y + 16 + 8 ≤ size by omega)]

/-- The header is written where the buffer of the allocator starts, at `y`. -/
theorem shmInit_view {p : Mapping} {y len custom : Nat} (hy : y + headerSize ≤ size) :
    shmInit id custom ⟨p.base + y, len⟩ (p.view size σ) =
      (attached id len (p.base + y), p.view size (shmInit id custom ⟨y, len⟩ σ).2) := by
  have h64 : headerSize = 64 := rfl
  have hsub : p.base + (y + headerSize) - (p.base + y) = headerSize := by omega
  simp only [shmInit, constructHeader, Mapping.store_view hy, Nat.add_sub_cancel_left, hsub,
    configure_view (show y + 32 ≤ size by omega), Nat.add_assoc p.base y,
    heap_shmInit_view (show y + 32 + 24 ≤ size by omega),
    setWord_view (show y + 56 + 8 ≤ size by omega), attached]

/-- The bytes of a header. -/
structure Header (id : AllocatorId) (σ : ByteMem) (y off len : Nat) : Prop where
  type : σ.load y 4 = kStackAllocator
  id : getWord σ (y + 8) = idWord id
  region_off : getWord σ (y + 32) = off
  heap_size : getWord σ (y + 48) = len

theorem Header.congr {y off len : Nat} (h : Header id σ y off len)
    (hσ : ∀ x, y ≤ x → x < y + 40 ∨ y + 48 ≤ x → x < y + headerSize → σ' x = σ x) :
    Header id σ' y off len := by
  unfold headerSize at hσ
  refine ⟨?_, ?_, ?_, ?_⟩
  · rw [ByteMem.load_congr fun x _ _ => hσ x (by omega) (by omega) (by omega)]
    exact h.type
  · rw [getWord_congr fun x _ _ => hσ x (by omega) (by omega) (by omega)]
    exact h.id
  · rw [getWord_congr fun x _ _ => hσ x (by omega) (by omega) (by omega)]
    exact h.region_off
  · rw [getWord_congr fun x _ _ => hσ x (by omega) (by omega) (by omega)]
    exact h.heap_size

/-- A request to the heap, told of the heap that the bytes hold. -/
theorem heap_allocateOffset_eq (σ : ByteMem) (y n : Nat) :
    HeapAllocator.allocateOffset σ y n = (((heapAt σ y).allocateOffset n).1,
      setWord σ (y + 8) (wordAdd sizeT (getWord σ (y + 8)) n)) := by
  unfold HeapAllocator.allocateOffset Memory.HeapAllocator.allocateOffset
  simp only [heapAt,
    getWord_setWord_apart (show y + 16 + 8 ≤ y + 8 ∨ y + 8 + 8 ≤ y + 16 by omega),
    getWord_setWord_apart (show y + 8 ≤ y + 8 ∨ y + 8 + 8 ≤ y by omega)]
  by_cases hfull : wordAdd sizeT (getWord σ (y + 8)) n > getWord σ (y + 16)
  · simp only [hfull, if_true]
  · simp only [hfull, if_false]

theorem configure_sameOff (σ : ByteMem) (y type custom : Nat) :
    σ.SameOff (configure σ y id type custom) y 32 :=
  ((((σ.store_sameOff y 4 type).mono (Nat.le_refl _) (by omega)).trans
    ((setWord_sameOff _ (y + 8) _).mono (by omega) (by omega))).trans
    ((setWord_sameOff _ (y + 16) _).mono (by omega) (by omega))).trans
    ((setWord_sameOff _ (y + 24) _).mono (by omega) (by omega))

theorem configure_words (σ : ByteMem) (id : AllocatorId) {y type custom : Nat}
    (htype : type < 256 ^ 4) (hcustom : custom < sizeT) :
    (configure σ y id type custom).load y 4 = type ∧
      getWord (configure σ y id type custom) (y + 8) = idWord id ∧
      getWord (configure σ y id type custom) (y + 16) = custom := by
  simp only [configure]
  refine ⟨?_, ?_, ?_⟩
  · rw [load_setWord_apart (by omega), load_setWord_apart (by omega),
      load_setWord_apart (by omega), ByteMem.load_store htype]
  · rw [getWord_setWord_apart (by omega), getWord_setWord_apart (by omega),
      getWord_setWord _ _ (idWord_lt id)]
  · rw [getWord_setWord_apart (by omega), getWord_setWord _ _ hcustom]

theorem heap_shmInit_sameOff (σ : ByteMem) (y off len : Nat) :
    σ.SameOff (HeapAllocator.shmInit σ y off len) y 24 :=
  (((setWord_sameOff σ y off).mono (Nat.le_refl _) (by omega)).trans
    ((setWord_sameOff _ (y + 8) 0).mono (by omega) (by omega))).trans
    ((setWord_sameOff _ (y + 16) len).mono (by omega) (by omega))

theorem heap_shmInit_words (σ : ByteMem) {y off len : Nat} (hoff : off < sizeT)
    (hlen : len < sizeT) :
    getWord (HeapAllocator.shmInit σ y off len) y = off ∧
      getWord (HeapAllocator.shmInit σ y off len) (y + 8) = 0 ∧
      getWord (HeapAllocator.shmInit σ y off len) (y + 16) = len := by
  simp only [HeapAllocator.shmInit]
  refine ⟨?_, ?_, getWord_setWord _ _ hlen⟩
  · rw [getWord_setWord_apart (by omega), getWord_setWord_apart (by omega),
      getWord_setWord _ _ hoff]
  · rw [getWord_setWord_apart (by omega), getWord_setWord _ _ (by decide)]

theorem shmInit_header (id : AllocatorId) (σ : ByteMem) {y len custom : Nat}
    (hfit : headerSize + custom ≤ len) (hlen : len < sizeT) :
    Header id (shmInit id custom ⟨y, len⟩ σ).2 y (headerSize + custom)
        (len - (headerSize + custom)) ∧
      getWord (shmInit id custom ⟨y, len⟩ σ).2 (y + 40) = 0 ∧
      σ.SameOff (shmInit id custom ⟨y, len⟩ σ).2 y headerSize := by
  have h64 : headerSize = 64 := rfl
  have hoff : wordAdd sizeT headerSize custom = headerSize + custom := wordAdd_of_lt (by omega)
  simp only [shmInit, constructHeader, Nat.add_sub_cancel_left, hoff, wordSub_of_le hfit]
  generalize hσ₁ : σ.store y headerSize 0 = σ₁
  generalize hσ₂ : configure σ₁ y id kStackAllocator custom = σ₂
  generalize hσ₃ : HeapAllocator.shmInit σ₂ (y + 32) (headerSize + custom)
    (len - (headerSize + custom)) = σ₃
  obtain ⟨htype, hid, -⟩ := hσ₂ ▸ configure_words σ₁ id (y := y)
    (show kStackAllocator < 256 ^ 4 by decide) (show custom < sizeT by omega)
  obtain ⟨hreg, hzero, hsize⟩ := hσ₃ ▸ heap_shmInit_words σ₂ (y := y + 32)
    (show headerSize + custom < sizeT by omega)
    (show len - (headerSize + custom) < sizeT by omega)
  have h₁ : σ.SameOff σ₁ y headerSize := hσ₁ ▸ σ.store_sameOff y headerSize 0
  have h₂ : σ₁.SameOff σ₂ y 32 := hσ₂ ▸ configure_sameOff σ₁ y _ custom
  have h₃ : σ₂.SameOff σ₃ (y + 32) 24 := hσ₃ ▸ heap_shmInit_sameOff σ₂ _ _ _
  have h₄ := setWord_sameOff σ₃ (y + 56) 0
  refine ⟨⟨?_, ?_, ?_, ?_⟩, ?_, ?_⟩
  · rw [load_setWord_apart (by omega), ByteMem.load_congr (h₃.sameOn (by omega))]
    exact htype
  · rw [getWord_setWord_apart (by omega), getWord_congr (h₃.sameOn (by omega))]
    exact hid
  · rw [getWord_setWord_apart (by omega)]
    exact hreg
  · rw [getWord_setWord_apart (by omega)]
    exact hsize
  · rw [getWord_setWord_apart (by omega)]
    exact hzero
  · exact ((h₁.trans (h₂.mono (by omega) (by omega))).trans (h₃.mono (by omega) (by omega))).trans
      (h₄.mono (by omega) (by omega))

/-! ## The invariant, told of the bytes -/

/-- The allocator looks at the headers of the blocks in use, and at its heap. -/
theorem inv_congr {s s' : Memory.StackAllocator.State} (h : Memory.StackAllocator.Inv s live)
    (hh : s'.heap_ = s.heap_)
    (hm : ∀ c ∈ live, s.mem.SameOn s'.mem (c.off - mpPage) mpPage) :
    Memory.StackAllocator.Inv s' live where
  off_le := hh ▸ h.off_le
  page_size := fun c hc => (page_size_.get_congr (hm c hc)).trans (h.page_size c hc)
  allocated := fun c hc => (isAllocated_congr (hm c hc)).trans (h.allocated c hc)
  below := hh ▸ h.below
  apart := h.apart
  nodup := h.nodup
  end_lt := hh ▸ h.end_lt

namespace Good

theorem off_le (hg : Good id size σ live) (hb : b ∈ live) : headerSize + mpPage ≤ b.off := by
  have := hg.region
  have : getWord σ 32 + mpPage ≤ b.off := hg.inv.off_le b hb
  omega

/-- A block lies in the buffer. -/
theorem inside (hg : Good id size σ live) (hb : b ∈ live) : b.off + b.size ≤ size := by
  have : b.off + b.size ≤ getWord σ 32 + getWord σ 40 := hg.inv.below b hb
  have := hg.region_end
  have := hg.heap_off
  omega

theorem capacity_eq (hg : Good id size σ live) (hb : b ∈ live) : capacity σ b.off = b.size :=
  hg.inv.capacity_eq hb

/-- The total of the header is not looked at, and of the pages only the headers. -/
theorem relive (hg : Good id size σ live) {s : Memory.StackAllocator.State}
    (hlo : ∀ x, x < 24 ∨ 32 ≤ x → x < headerSize → σ' x = σ x)
    (hinv : Memory.StackAllocator.Inv s live') (hh : s.heap_ = heapAt σ 32)
    (hm : ∀ c ∈ live', s.mem.SameOn σ' (c.off - mpPage) mpPage) : Good id size σ' live' := by
  unfold headerSize at hlo
  have hword : ∀ a, a + 8 ≤ 24 ∨ 32 ≤ a → a + 8 ≤ 64 → getWord σ' a = getWord σ a :=
    fun a ha ha' => getWord_congr fun x _ _ => hlo x (by omega) (by omega)
  have hheap : heapAt σ' 32 = heapAt σ 32 := by
    simp only [heapAt, hword 32 (by omega) (by omega), hword 40 (by omega) (by omega),
      hword 48 (by omega) (by omega)]
  refine ⟨?_, ?_, ?_, ?_, ?_, inv_congr hinv (hheap.trans hh.symm) hm⟩
  · rw [ByteMem.load_congr fun x _ _ => hlo x (by omega) (by omega)]
    exact hg.type
  · rw [hword 8 (by omega) (by omega)]
    exact hg.id
  · rw [hword 32 (by omega) (by omega)]
    exact hg.region
  · rw [hword 32 (by omega) (by omega), hword 48 (by omega) (by omega)]
    exact hg.region_end
  · rw [hword 40 (by omega) (by omega), hword 48 (by omega) (by omega)]
    exact hg.heap_off

/-- The data of blocks is not looked at. -/
theorem data (hg : Good id size σ live) (hlo : ∀ x, x < headerSize → σ' x = σ x)
    (hm : ∀ c ∈ live, σ.SameOn σ' (c.off - mpPage) mpPage) : Good id size σ' live :=
  hg.relive (fun x _ hx => hlo x hx) hg.inv rfl hm

end Good

/-! ## Calls -/

/-- A request with room takes the next page, in every process the same. -/
theorem allocate_call (hg : Good id size σ live) (hsize : size < sizeT) (hr : Room σ n) :
    ∃ q σ', Good id size σ' (⟨q, n⟩ :: live) ∧ (∀ b ∈ live, b.off + b.size + mpPage ≤ q) ∧
      (∀ x, headerSize ≤ x → x < q - mpPage ∨ q ≤ x → σ' x = σ x) ∧
      (∀ x, size ≤ x → σ' x = σ x) ∧
      ∀ p : Mapping, Mappable size p.base →
        allocateOffset (attached id size p.base) (p.view size σ) n = some (q, p.view size σ') := by
  have hreg := hg.region
  have hend := hg.region_end
  have h32 : mpPage = 32 := rfl
  have h64 : headerSize = 64 := rfl
  unfold Room at hr
  have hpos : 0 < n + mpPage := by omega
  have hoff : getWord σ 40 + (n + mpPage) < sizeT := by omega
  have hwrap : n + mpPage < sizeT := by omega
  -- what the call does to the state
  have hheap : (heapAt σ 32).allocateOffset (n + mpPage) = (some (getWord σ 32 + getWord σ 40),
      { heapAt σ 32 with heap_off_ := getWord σ 40 + (n + mpPage) }) := by
    rcases HeapAllocator.allocateOffset_spec (h := heapAt σ 32) hpos hoff
      (show getWord σ 32 + getWord σ 48 < sizeT by omega) with ⟨hfull, -⟩ | ⟨-, he⟩
    · exact absurd hfull (Nat.not_lt.mpr hr)
    · exact he
  obtain ⟨P, hP⟩ : ∃ P, P = getWord σ 32 + getWord σ 40 := ⟨_, rfl⟩
  rw [← hP] at hheap
  have hstate : Memory.StackAllocator.allocateOffset (state σ live) n = some (P + mpPage,
      { state σ live with
        mem := off_.set (page_size_.set (setAllocated σ P) P (n + mpPage)) P 0
        heap_ := { heapAt σ 32 with heap_off_ := getWord σ 40 + (n + mpPage) }
        total_alloc_ := wordAdd sizeT (getWord σ 24) (n + mpPage) }) := by
    simp only [Memory.StackAllocator.allocateOffset, state, wordAdd_of_lt hwrap, hheap,
      Option.bind_eq_bind, Option.bind_some]
  obtain ⟨hinv, -, -, -, -, hbelow⟩ := hg.inv.allocate_of_lt hwrap hoff hstate
  simp only at hinv hbelow
  -- the bytes that it leaves
  let σ₁ := setWord σ 40 (getWord σ 40 + (n + mpPage))
  let σ₂ := off_.set (page_size_.set (setAllocated σ₁ P) P (n + mpPage)) P 0
  have hpage : σ₁.SameOff σ₂ P mpPage :=
    ((setAllocated_sameOff σ₁ P).trans (page_size_.set_sameOff _ P _)).trans
      (off_.set_sameOff _ P 0)
  have hfrom : SameFrom 64 (off_.set (page_size_.set (setAllocated σ P) P (n + mpPage)) P 0)
      (addSize σ₂ 0 (n + mpPage)) := by
    refine .trans ?_ (SameFrom.setWord σ₂ _ (by omega))
    exact (((SameFrom.setWord σ _ (by omega)).setAllocated (by omega)).field_set _).field_set _
  have hframe : ∀ x, x < 24 ∨ 32 ≤ x ∧ x < 40 ∨ 48 ≤ x → x < P ∨ P + mpPage ≤ x →
      addSize σ₂ 0 (n + mpPage) x = σ x := fun x hx hxP => by
    rw [addSize, setWord_sameOff σ₂ _ _ x (by omega), hpage x hxP]
    exact setWord_sameOff σ 40 _ x (by omega)
  have hword : ∀ a, a + 8 ≤ 24 ∨ a = 32 ∨ a = 48 →
      getWord (addSize σ₂ 0 (n + mpPage)) a = getWord σ a := fun a ha =>
    getWord_congr fun x _ _ => hframe x (by omega) (by omega)
  have hw40 : getWord (addSize σ₂ 0 (n + mpPage)) 40 = getWord σ 40 + (n + mpPage) := by
    rw [addSize, getWord_setWord_apart (by omega), getWord_congr (hpage.sameOn (by omega))]
    exact getWord_setWord σ 40 hoff
  have hheap' : heapAt (addSize σ₂ 0 (n + mpPage)) 32 =
      { heapAt σ 32 with heap_off_ := getWord σ 40 + (n + mpPage) } := by
    simp only [heapAt, hword 32 (by omega), hword 48 (by omega), hw40]
  refine ⟨P + mpPage, addSize σ₂ 0 (n + mpPage), ⟨?_, ?_, ?_, ?_, ?_, ?_⟩, hbelow, ?_, ?_,
    fun p hm => ?_⟩
  · rw [ByteMem.load_congr fun x _ _ => hframe x (by omega) (by omega)]
    exact hg.type
  · rw [hword 8 (by omega)]
    exact hg.id
  · rw [hword 32 (by omega)]
    exact hreg
  · rw [hword 32 (by omega), hword 48 (by omega)]
    exact hend
  · rw [hw40, hword 48 (by omega)]
    exact hr
  · refine inv_congr hinv hheap' fun c hc => hfrom.sameOn ?_
    have : getWord σ 32 + mpPage ≤ c.off := hinv.off_le c hc
    omega
  · intro x hx hxP
    have := hfrom x (by omega)
    rw [this]
    exact (((setAllocated_sameOff σ P).trans (page_size_.set_sameOff _ P _)).trans
      (off_.set_sameOff _ P 0)) x (by omega)
  · intro x hx
    exact hframe x (by omega) (by omega)
  · unfold Mappable at hm
    have hconv : (attached id size p.base).convert P = some (p.base + P) := by
      have hnull : ¬ P = nullOff := by
        have : nullOff = sizeT - 1 := rfl
        omega
      simp only [Allocator.convert, attached, ListQueue.convert, offset?, if_neg hnull,
        Option.map_some, wordAdd_of_lt (show p.base + P < sizeT by omega)]
    have hbytes : HeapAllocator.allocateOffset σ 32 (n + mpPage) = (some P, σ₁) := by
      have hfit : ¬ getWord σ 40 + (n + mpPage) > getWord σ 48 := by omega
      have hnull : ¬ P = nullOff := by
        have : nullOff = sizeT - 1 := rfl
        omega
      simp only [HeapAllocator.allocateOffset, wordAdd_of_lt hoff,
        getWord_setWord_apart (show 48 + 8 ≤ 40 ∨ 40 + 8 ≤ 48 by omega),
        getWord_setWord_apart (show 32 + 8 ≤ 40 ∨ 40 + 8 ≤ 32 by omega), if_neg hfit, σ₁,
        wordAdd_of_lt (show getWord σ 32 + getWord σ 40 < sizeT by omega), ← hP, offset?,
        if_neg hnull]
    have hin : P + mpPage ≤ size := by omega
    have hheader : (attached id size p.base).header_ = p.base := rfl
    have hheap : (attached id size p.base).heap_ = p.base + 32 := rfl
    simp only [allocateOffset, wordAdd_of_lt hwrap, hheap,
      heap_allocateOffset_view (show 32 + 24 ≤ size by omega), hbytes, Option.bind_eq_bind,
      Option.bind_some, hconv, setAllocated_view hin, field_set_view _ hin, hheader,
      addSize_view (show 32 ≤ size by omega), wordAdd_of_lt (show P + mpPage < sizeT by omega)]
    rfl

theorem ne_nullOff {x : Nat} (h : x + 1 < sizeT) : x ≠ nullOff := by
  have : nullOff = sizeT - 1 := rfl
  omega

theorem convert_attached {p : Mapping} {x : Nat} (hm : Mappable size p.base) (hx : x ≤ size)
    (hnull : x ≠ nullOff) : (attached id size p.base).convert x = some (p.base + x) := by
  unfold Mappable at hm
  simp only [Allocator.convert, attached, ListQueue.convert, offset?, if_neg hnull,
    Option.map_some, wordAdd_of_lt (show p.base + x < sizeT by omega)]

theorem free_call (hg : Good id size σ live) (hsize : size < sizeT) (hb : b ∈ live) :
    ∃ σ', Good id size σ' (dropBlock live b.off) ∧
      (∀ x, headerSize ≤ x → x < b.off - mpPage ∨ b.off ≤ x → σ' x = σ x) ∧
      (∀ x, size ≤ x → σ' x = σ x) ∧
      ∀ p : Mapping, Mappable size p.base →
        freeOffsetNoNullCheck (attached id size p.base) (p.view size σ) b.off =
          some (.ok (p.view size σ')) := by
  have hoff := hg.off_le hb
  have hin := hg.inside hb
  have h32 : mpPage = 32 := rfl
  have h64 : headerSize = 64 := rfl
  obtain ⟨hdr, hhdr⟩ : ∃ hdr, hdr = b.off - mpPage := ⟨_, rfl⟩
  obtain ⟨s', hs', -, hinv, -⟩ := hg.inv.free hb
  have halloc : isAllocated σ hdr = true := hhdr ▸ hg.inv.allocated b hb
  simp only [Memory.StackAllocator.freeOffsetNoNullCheck, state, ← hhdr, halloc, Bool.not_true,
    Bool.false_eq_true, if_false, Except.ok.injEq] at hs'
  subst hs'
  let σ₁ := unsetAllocated σ hdr
  have hpage : σ.SameOff σ₁ hdr mpPage := unsetAllocated_sameOff σ hdr
  have hword := setWord_sameOff σ₁ 24 (wordSub sizeT (getTotal σ₁ 0) (page_size_.get σ₁ hdr))
  refine ⟨subSize σ₁ 0 (page_size_.get σ₁ hdr), hg.relive (fun x hx hx' => ?_) hinv rfl
    fun c hc => ?_, fun x hx hxp => ?_, fun x hx => ?_, fun p hm => ?_⟩
  · exact (hword x (by omega)).trans (hpage x (by omega))
  · have hco := hg.off_le (List.mem_of_mem_filter hc)
    exact hword.sameOn (by omega)
  · exact (hword x (by omega)).trans (hpage x (by omega))
  · exact (hword x (by omega)).trans (hpage x (by omega))
  · have hconv : (attached id size p.base).convert hdr = some (p.base + hdr) :=
      convert_attached hm (by omega) (ne_nullOff (by omega))
    have hsub : wordSub sizeT b.off mpPage = hdr := by rw [hhdr]; exact wordSub_of_le (by omega)
    have hin' : hdr + mpPage ≤ size := by omega
    have hheader : (attached id size p.base).header_ = p.base := rfl
    simp only [freeOffsetNoNullCheck, hsub, hconv, Option.bind_eq_bind, Option.bind_some,
      isAllocated_view hin', halloc, Bool.not_true, Bool.false_eq_true, if_false,
      unsetAllocated_view hin', field_get_view _ hin', hheader,
      subSize_view (show 32 ≤ size by omega)]
    rfl

/-- The copy of a reallocation may go past the new block, where no block is. -/
theorem reallocate_call (hg : Good id size σ live) (hsize : size < sizeT) (hb : b ∈ live)
    (hr : Room σ n) :
    ∃ q σ', Good id size σ' (⟨q, n⟩ :: dropBlock live b.off) ∧
      (∀ c ∈ live, c.off ≠ b.off → ∀ x, c.off ≤ x → x < c.off + c.size → σ' x = σ x) ∧
      (∀ x, size ≤ x → σ' x = σ x) ∧
      ∀ p : Mapping, Mappable size p.base → ∃ p' : Mapping, p'.base = p.base ∧
        reallocateOffsetNoNullCheck (attached id size p.base) (p.view size σ) b.off n =
          some (.ok q, p'.view size σ') := by
  have hoff := hg.off_le hb
  have hin := hg.inside hb
  have h32 : mpPage = 32 := rfl
  have h64 : headerSize = 64 := rfl
  obtain ⟨q, σ₁, hg₁, hbelow, hσ₁, hend₁, hcall₁⟩ := allocate_call hg hsize hr
  have hq := hg₁.off_le List.mem_cons_self
  have hq' := hg₁.inside List.mem_cons_self
  simp only at hq hq'
  let σ₂ := Mapping.copyIn size σ₁ q b.off b.size
  have hσ₂ : ∀ x, x < q → σ₂ x = σ₁ x := fun x hx => by
    by_cases hxs : x < size
    · exact (if_pos hxs).trans (if_neg (by omega))
    · exact if_neg hxs
  have hg₂ : Good id size σ₂ (⟨q, n⟩ :: live) := hg₁.data (fun x hx => hσ₂ x (by omega))
    fun c hc x hx hx' => by
      refine hσ₂ x ?_
      rcases List.mem_cons.mp hc with rfl | hc
      · simp only at hx'
        omega
      · have := hbelow c hc
        have := hg.off_le hc
        omega
  obtain ⟨σ₃, hg₃, hσ₃, hend₃, hcall₃⟩ := free_call hg₂ hsize (List.mem_cons_of_mem _ hb)
  have hqb := hbelow b hb
  rw [dropBlock, List.filter_cons_of_pos (by simp only [ne_eq, decide_eq_true_eq]; omega)] at hg₃
  refine ⟨q, σ₃, hg₃, fun c hc hcb x hx hx' => ?_, fun x hx => ?_, fun p hm => ?_⟩
  · have hco := hg.off_le hc
    have := hbelow c hc
    have := hg.inv.apart c hc b hb hcb
    rw [hσ₃ x (by omega) (by omega), hσ₂ x (by omega), hσ₁ x (by omega) (by omega)]
  · rw [hend₃ x hx, ← hend₁ x hx]
    exact if_neg (Nat.not_lt.mpr hx)
  · let p' := p.leave size ((p.view size σ₁).copy (p.base + q) (p.base + b.off) b.size)
    refine ⟨p', rfl, ?_⟩
    have hsub : wordSub sizeT b.off mpPage = b.off - mpPage := wordSub_of_le (by omega)
    have hold : page_size_.get σ (b.off - mpPage) = b.size + mpPage := hg.inv.page_size b hb
    have hfree := hcall₃ p' hm
    rw [show attached id size p'.base = attached id size p.base from rfl] at hfree
    have hcopy : (p.view size σ₁).copy (p.base + q) (p.base + b.off) b.size = p'.view size σ₂ :=
      Mapping.copy_view_over hin
    have hend : size + 1 < sizeT := by
      unfold Mappable at hm
      omega
    have hsrc : (attached id size p.base).convert b.off = some (p.base + b.off) :=
      convert_attached hm (by omega) (ne_nullOff (by omega))
    have hhdr : (attached id size p.base).convert (b.off - mpPage) =
        some (p.base + (b.off - mpPage)) := convert_attached hm (by omega) (ne_nullOff (by omega))
    have hdst : (attached id size p.base).convert q = some (p.base + q) :=
      convert_attached hm (by omega) (ne_nullOff (by omega))
    simp only [reallocateOffsetNoNullCheck, hsub, hsrc, hhdr, Option.bind_eq_bind,
      Option.bind_some, field_get_view page_size_ (show b.off - mpPage + mpPage ≤ size by omega),
      hold, wordSub_of_le (Nat.le_add_left mpPage b.size), Nat.add_sub_cancel, hcall₁ p hm, hdst,
      hcopy, hfree]

theorem write_call {x : Nat} (byte : UInt8) (hg : Good id size σ live) (hb : b ∈ live)
    (hx : b.off ≤ x) (hx' : x < b.off + capacity σ b.off) :
    Good id size (Function.update σ x byte) live ∧ x < size ∧
      ∀ p : Mapping, Mappable size p.base →
        call (attached id size p.base) (p.view size σ) (.write x byte) =
          some (.done, p.view size (Function.update σ x byte)) := by
  rw [hg.capacity_eq hb] at hx'
  have hoff := hg.off_le hb
  have hin := hg.inside hb
  have hxs : x < size := by omega
  refine ⟨hg.data (fun y hy => Function.update_of_ne (by omega) ..) fun c hc y hy hy' => ?_, hxs,
    fun p hm => ?_⟩
  · refine Function.update_of_ne ?_ ..
    have hco := hg.off_le hc
    by_cases hcb : c.off = b.off
    · omega
    · have := hg.inv.apart c hc b hb hcb
      omega
  · have hconv : (attached id size p.base).convert x = some (p.base + x) :=
      convert_attached hm (Nat.le_of_lt hxs) (ne_nullOff (by unfold Mappable at hm; omega))
    simp only [call, hconv, Option.map_some, Mapping.update_view byte hxs]

/-- A block that a call keeps has its size and its bytes. -/
theorem effect {c : Op} {o : Out} (hg : Good id size σ live) (hg' : Good id size σ' live')
    (hl : live' = record live c o)
    (hkeep : ∀ b ∈ live, ¬ Ends c b → b ∈ live' ∧
      ∀ x, b.off ≤ x → x < b.off + b.size → ¬ Writes c x → σ' x = σ x)
    (hwrite : ∀ x byte, c = .write x byte → σ' x = byte) : Effect σ live c o σ' := by
  refine ⟨fun b hb hc => ?_, hwrite⟩
  obtain ⟨hb', hbytes⟩ := hkeep b hb hc
  rw [hg'.capacity_eq hb', hg.capacity_eq hb, ← hl]
  exact ⟨hb', rfl, hbytes⟩

/-- **The stack allocator is position independent.** -/
theorem independent (id : AllocatorId) (custom : Nat) (hsize : size < sizeT)
    (hfit : headerSize ≤ size) :
    Independent (stackProgram id custom size) (Mappable size)
      (fun base _ a => a = attached id size base) (Good id size) Ok Effect where
  attach := fun σ g hg p _ _ => by
    refine ⟨attached id size p.base, (), ?_, rfl⟩
    have h : shmDeserialize ⟨p.base + 0, size⟩ (p.view size σ) = attached id size (p.base + 0) :=
      shmDeserialize_eq hg.type hg.id (by omega)
    exact congrArg (fun a => some (a, ())) h
  call := fun σ live c hg hok => by
    cases c with
    | allocate n =>
      obtain ⟨q, σ', hg', hbelow, hσ, hend, hcall⟩ := allocate_call hg hsize hok
      refine ⟨.offset q, σ', hg', effect hg hg' rfl (fun b hb _ => ⟨List.mem_cons_of_mem _ hb,
        fun x hx hx' _ => ?_⟩) nofun, hend, fun p tab a hm ha => ⟨p, rfl, ?_⟩⟩
      · have := hbelow b hb
        have := hg.off_le hb
        exact hσ x (by omega) (by omega)
      · subst ha
        exact congrArg (Option.map fun r : Nat × ByteMem => (Out.offset r.1, r.2)) (hcall p hm)
    | free q =>
      obtain ⟨b, hb, rfl⟩ := hok
      obtain ⟨σ', hg', hσ, hend, hcall⟩ := free_call hg hsize hb
      refine ⟨.done, σ', hg', effect hg hg' rfl (fun c hc hne => ?_) nofun, hend,
        fun p tab a hm ha => ⟨p, rfl, ?_⟩⟩
      · have hcb : c.off ≠ b.off := fun he => hne he.symm
        refine ⟨List.mem_filter.mpr ⟨hc, by simpa using hcb⟩, fun x hx hx' _ => ?_⟩
        have := hg.inv.apart c hc b hb hcb
        have := hg.off_le hc
        exact hσ x (by omega) (by omega)
      · subst ha
        simp only [stackProgram, call, hcall p hm, Option.map_some]
    | reallocate q n =>
      obtain ⟨⟨b, hb, rfl⟩, hr⟩ := hok
      obtain ⟨q, σ', hg', hσ, hend, hcall⟩ := reallocate_call hg hsize hb hr
      refine ⟨.offset q, σ', hg', effect hg hg' rfl (fun c hc hne => ?_) nofun, hend,
        fun p tab a hm ha => ?_⟩
      · have hcb : c.off ≠ b.off := fun he => hne he.symm
        exact ⟨List.mem_cons_of_mem _ (List.mem_filter.mpr ⟨hc, by simpa using hcb⟩),
          fun x hx hx' _ => hσ c hc hcb x hx hx'⟩
      · subst ha
        obtain ⟨p', hp', he⟩ := hcall p hm
        refine ⟨p', hp', ?_⟩
        simp only [stackProgram, call, he, Option.map_some]
    | write x byte =>
      obtain ⟨b, hb, hx, hx'⟩ := hok
      obtain ⟨hg', hxs, hcall⟩ := write_call byte hg hb hx hx'
      refine ⟨.done, Function.update σ x byte, hg', effect hg hg' rfl (fun c hc _ => ⟨hc,
        fun y _ _ hy => Function.update_of_ne (fun h => hy h.symm) ..⟩) (fun y v he => ?_),
        fun y hy => Function.update_of_ne ?_ .., fun p tab a hm ha => ⟨p, rfl, ?_⟩⟩
      · cases he
        exact Function.update_self ..
      · have hy : size ≤ y := hy
        omega
      · subst ha
        exact hcall p hm

/-- What `shm_init` leaves in the buffer, whoever runs it. -/
theorem init_call {custom : Nat} (id : AllocatorId) (σ : ByteMem) (hsize : size < sizeT)
    (hfit : headerSize + custom ≤ size) :
    ∃ σ', Good id size σ' [] ∧ (∀ x, size ≤ x → σ' x = σ x) ∧
      ∀ (p : Mapping), shmInit id custom ⟨p.base, size⟩ (p.view size σ) =
        (attached id size p.base, p.view size σ') := by
  have h64 : headerSize = 64 := rfl
  obtain ⟨⟨htype, hid, hreg, hlen⟩, hzero, hσ⟩ := shmInit_header id σ (y := 0) hfit hsize
  rw [Nat.zero_add] at hid hreg hlen hzero
  have hview : ∀ p : Mapping, shmInit id custom ⟨p.base + 0, size⟩ (p.view size σ) =
      (attached id size (p.base + 0), p.view size (shmInit id custom ⟨0, size⟩ σ).2) :=
    fun p => shmInit_view (by omega)
  refine ⟨(shmInit id custom ⟨0, size⟩ σ).2, ⟨htype, hid, ?_, ?_, ?_, ?_⟩, fun x hx => ?_, hview⟩
  · rw [hreg]
    exact Nat.le_add_right ..
  · rw [hreg, hlen]
    omega
  · rw [hzero]
    exact Nat.zero_le _
  · refine ⟨nofun, nofun, nofun, nofun, nofun, List.nodup_nil, ?_⟩
    simp only [state, heapAt, hreg, hlen]
    omega
  · exact hσ x (by omega)

/-! ## Runs of any processes -/

section

variable {custom : Nat} {procs : ι → Process Unit StackAllocator} {i j k : ι} {x : Nat}
  [DecidableEq ι] {s t u v : System ι Unit StackAllocator Out (List Block)}
  {as bs : List (Label ι Op)}

/-- The buffer is mapped everywhere, and attached nowhere. -/
def Unattached (size : Nat) (procs : ι → Process Unit StackAllocator) : Prop :=
  ∀ i, Mappable size (procs i).map.base ∧ (procs i).obj = none

/-- What process `j` finds at an offset, at the address that the offset converts to. -/
def read (size : Nat) (s : System ι Unit StackAllocator Out (List Block)) (j : ι) (x : Nat) :
    Option UInt8 := do
  let a ← (s.procs j).obj
  let ptr ← a.convert x
  some ((s.procs j).map.view size s.shared ptr)

instance (s : System ι Unit StackAllocator Out (List Block)) (l : Label ι Op) :
    Decidable (Program.Ok Ok s l) :=
  match l with
  | .attach _ => .isTrue trivial
  | .call _ c => inferInstanceAs (Decidable (Ok s.shared s.ghost c))

/-- Whoever initializes the buffer, the run starts soundly and with the same bytes. -/
theorem starts (id : AllocatorId) (σ : ByteMem) (hsize : size < sizeT)
    (hfit : headerSize + custom ≤ size) :
    ∃ σ', Starts (stackProgram id custom size) (Mappable size)
      (fun base _ a => a = attached id size base) (Good id size) [] σ σ' := by
  obtain ⟨σ', hg, htail, hinit⟩ := init_call id σ hsize hfit
  refine ⟨σ', hg, htail, fun p _ _ => ⟨attached id size p.base, (), ?_, rfl⟩⟩
  simp only [stackProgram, hinit]

/-- **One process can do it all.** However many processes share the buffer, wherever they
map it and whoever makes which call, the offsets returned and the bytes of the buffer are
those of one process that makes all calls. -/
theorem run_as_one {q : Process Unit StackAllocator} (hsize : size < sizeT)
    (hfit : headerSize + custom ≤ size) (hun : Unattached size procs)
    (hq : Unattached size fun _ : Unit => q)
    (hs : (stackProgram id custom size).start σ procs [] i = some s)
    (hr : Run (stackProgram id custom size).step (Program.Ok Ok) s as t) :
    ∃ s' t', (stackProgram id custom size).start σ (fun _ => q) [] () = some s' ∧
      exec (stackProgram id custom size).step s' (as.filterMap Label.single) = some t' ∧
      t'.shared = t.shared ∧ t'.out = t.out := by
  obtain ⟨σ', h₀⟩ := starts id σ hsize hfit
  exact (independent id custom hsize (by omega)).run_start h₀ hun hq hs hr

deriving instance DecidableEq for Memory.Error, Out

/-- Two processes, with the buffer at bases of their own. -/
def twoBases (i : Fin 2) : Process Unit StackAllocator :=
  { map := ⟨if i = ⟨0, Nat.zero_lt_two⟩ then 1000 else 5000, fun _ => 0⟩, tab := () }

theorem twoBases_unattached : Unattached 256 twoBases :=
  fun i => ⟨by revert i; decide, rfl⟩

/-- The second process attaches, and makes the second and the third call. -/
def threeCalls : List (Label (Fin 2) Op) :=
  [.call ⟨0, Nat.zero_lt_two⟩ (.allocate 16), .attach ⟨1, Nat.one_lt_two⟩,
    .call ⟨1, Nat.one_lt_two⟩ (.reallocate 104 24), .call ⟨1, Nat.one_lt_two⟩ (.free 152)]

theorem run_as_one_twoBases : ∃ s' t' : System Unit Unit StackAllocator Out (List Block),
    (stackProgram ⟨1, 0⟩ 8 256).start (fun _ => 7) (fun _ => twoBases 1) [] () = some s' ∧
      exec (stackProgram ⟨1, 0⟩ 8 256).step s' (threeCalls.filterMap Label.single) = some t' ∧
      t'.out = [.offset 104, .offset 152, .done] := by
  have hrun : (((stackProgram ⟨1, 0⟩ 8 256).start (fun _ => 7) twoBases [] 0).bind fun s =>
      (execOk (stackProgram ⟨1, 0⟩ 8 256).step (Program.Ok Ok) s threeCalls).map (·.out)) =
      some [.offset 104, .offset 152, .done] := by decide +kernel
  obtain ⟨s, hs, hrun⟩ := Option.bind_eq_some_iff.mp hrun
  obtain ⟨t, ht, hout⟩ := Option.map_eq_some_iff.mp hrun
  obtain ⟨s', t', hs', ht', -, hres⟩ := run_as_one (q := twoBases 1) (by decide) (by decide)
    twoBases_unattached (fun _ => twoBases_unattached 1) hs (run_of_execOk ht)
  exact ⟨s', t', hs', ht', hres.trans hout⟩

/-- **What one process writes, all read.** A byte that process `k` stores to a block in
use is what every attached process finds at its own address of that byte, until a call ends
the block or stores to that byte again. -/
theorem written_read (hsize : size < sizeT) (hfit : headerSize + custom ≤ size)
    (hun : Unattached size procs)
    (hs : (stackProgram id custom size).start σ procs [] i = some s)
    (hr : Run (stackProgram id custom size).step (Program.Ok Ok) s as t)
    (hb : b ∈ t.ghost) (hx : b.off ≤ x) (hx' : x < b.off + b.size) {byte : UInt8}
    (hw : (stackProgram id custom size).step t (.call k (.write x byte)) = some u)
    (hr' : Run (stackProgram id custom size).step
      (fun s l => Program.Ok Ok s l ∧ Leaves b x l) u bs v)
    (hj : (v.procs j).obj.isSome) : read size v j x = some byte := by
  obtain ⟨σ', h₀⟩ := starts id σ hsize hfit
  have h := independent id custom hsize (Nat.le_of_add_right_le hfit)
  obtain ⟨hsound, hg⟩ := h.sound_start h₀ hun hs hr
  have hx' : x < b.off + capacity t.shared b.off := by rwa [hg.capacity_eq hb]
  obtain ⟨hsoundv, hgv, hbv, -, -, hbyte⟩ :=
    hasByte_run rfl h hsound hg ⟨b, hb, hx, hx'⟩ hb hx hx' hw hr'
  obtain ⟨a, ha⟩ := Option.isSome_iff_exists.mp hj
  obtain ⟨hm, hat⟩ := hsoundv j
  have hin := hgv.inside hbv
  have hxs : x < size := by omega
  have hconv : a.convert x = some ((v.procs j).map.base + x) := by
    rw [hat a ha]
    exact convert_attached hm (Nat.le_of_lt hxs) (ne_nullOff (by unfold Mappable at hm; omega))
  rw [read, ha]
  simp only [Option.bind_eq_bind, Option.bind_some, hconv, Mapping.view_apply hxs, hbyte]

theorem written_read_twoBases : ∃ v : System (Fin 2) Unit StackAllocator Out (List Block),
    v.ghost = [⟨152, 8⟩, ⟨104, 16⟩] ∧ read 256 v 0 110 = some 9 := by
  have hrun : (((stackProgram ⟨1, 0⟩ 8 256).start (fun _ => 7) twoBases [] 0).bind fun s =>
      (execOk (stackProgram ⟨1, 0⟩ 8 256).step (Program.Ok Ok) s
          [.attach 1, .call 0 (.allocate 16)]).bind fun t =>
        ((stackProgram ⟨1, 0⟩ 8 256).step t (.call 1 (.write 110 9))).bind fun u =>
          (execOk (stackProgram ⟨1, 0⟩ 8 256).step
              (fun s l => Program.Ok Ok s l ∧ Leaves ⟨104, 16⟩ 110 l) u
              [.call 1 (.allocate 8)]).map fun v =>
            (t.ghost, v.ghost, (v.procs 0).obj.isSome)) =
      some ([⟨104, 16⟩], [⟨152, 8⟩, ⟨104, 16⟩], true) := by decide +kernel
  obtain ⟨s, hs, hrun⟩ := Option.bind_eq_some_iff.mp hrun
  obtain ⟨t, ht, hrun⟩ := Option.bind_eq_some_iff.mp hrun
  obtain ⟨u, hu, hrun⟩ := Option.bind_eq_some_iff.mp hrun
  obtain ⟨v, hv, heq⟩ := Option.map_eq_some_iff.mp hrun
  simp only [Prod.mk.injEq] at heq
  obtain ⟨htb, hvb, hat⟩ := heq
  exact ⟨v, hvb, written_read (b := ⟨104, 16⟩) (by decide) (by decide) twoBases_unattached hs
    (run_of_execOk ht) (by rw [htb]; decide) (by decide) (by decide) hu (run_of_execOk hv) hat⟩

end

end HermesShm.Memory.InProcess.StackAllocator
