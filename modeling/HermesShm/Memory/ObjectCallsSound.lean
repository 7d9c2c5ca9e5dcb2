import HermesShm.Memory.ObjectCalls
import HermesShm.Base.Transition

/-! # Objects keep what they were given

The arrays are the blocks in use of the core allocator. What a call writes is inside one of them,
so the objects of the others are as they were, and a reallocation moves the objects of one. -/
namespace HermesShm.Memory.ObjectCalls
open HermesShm.Base MpPage

section
variable {σ : Type} {A : CoreAllocT σ}

/-- The blocks in use have the bytes that they had. -/
def CoreAllocT.Keeps (A : CoreAllocT σ) (live : List Block) (s s' : σ) : Prop :=
  ∀ b ∈ live, (A.mem s).SameOn (A.mem s') b.off b.size

/-- What a core allocator gives its users, with `live` in use: blocks that are apart, below `top`,
and keep their bytes. `Request` and `Grows` are the requests it is fit for. -/
structure CoreAllocT.Lawful (A : CoreAllocT σ) where
  Inv : σ → List Block → Prop
  Request : σ → Nat → Nat → Prop
  Grows : σ → Nat → Nat → Nat → Prop
  top : Nat
  top_lt : top < sizeT
  mem_setMem : ∀ s m, A.mem (A.setMem s m) = m
  request_pos : ∀ s ctx n, Request s ctx n → 0 < n
  inside : ∀ s live b, Inv s live → b ∈ live → b.off + b.size ≤ top
  apart : ∀ s live b c, Inv s live → b ∈ live → c ∈ live → b.off ≠ c.off →
    b.off + b.size ≤ c.off ∨ c.off + c.size ≤ b.off
  nodup : ∀ s live, Inv s live → (live.map (·.off)).Nodup
  write : ∀ s live b m, Inv s live → b ∈ live → (A.mem s).SameOff m b.off b.size →
    Inv (A.setMem s m) live
  allocate : ∀ s live ctx n r s', Inv s live → Request s ctx n →
    A.allocateOffset s ctx n = some (r, s') → A.Keeps live s s' ∧
      ((∃ e, r = .error e ∧ Inv s' live) ∨ ∃ p, r = .ok p ∧ Inv s' (⟨p, n⟩ :: live))
  reallocate : ∀ s live b ctx n r s', Inv s live → b ∈ live → Request s ctx n →
    Grows s ctx b.off n → A.reallocateOffsetNoNullCheck s ctx b.off n = some (r, s') →
      (∃ e, r = .error e ∧ Inv s' live ∧ A.Keeps live s s') ∨
      ∃ q, r = .ok q ∧ Inv s' (⟨q, n⟩ :: dropBlock live b.off) ∧
        A.Keeps (dropBlock live b.off) s s' ∧
        ∀ k < min b.size n, A.mem s' (q + k) = A.mem s (b.off + k)
  free : ∀ s live b, Inv s live → b ∈ live → ∃ s',
    A.freeOffsetNoNullCheck s b.off = some (.ok s') ∧ Inv s' (dropBlock live b.off) ∧
      A.Keeps (dropBlock live b.off) s s'

/-- A store inside one block leaves the others. -/
theorem CoreAllocT.Lawful.kept (L : A.Lawful) {s : σ} {live : List Block} {b c : Block}
    {m : ByteMem} (hi : L.Inv s live) (hb : b ∈ live) (hc : c ∈ live) (hbc : b.off ≠ c.off)
    (hm : (A.mem s).SameOff m b.off b.size) : (A.mem s).SameOn m c.off c.size :=
  hm.sameOn (L.apart s live b c hi hb hc hbc)

end

/-! ## Addresses -/

section
variable {T : ObjType} {buffer_ x i n : Nat} {m : ByteMem} {make : Nat → Cell T.sizeof_}

theorem place_eq (hbuf : buffer_ ≤ sizeT) (hx : x + i * T.sizeof_ < sizeT) :
    place T buffer_ (wordAdd sizeT buffer_ x) i = x + i * T.sizeof_ := by
  have hsum : wordAdd sizeT (wordAdd sizeT buffer_ x) (i * T.sizeof_) =
      wordAdd sizeT (x + i * T.sizeof_) buffer_ := by
    simp only [wordAdd, Nat.mod_add_mod]
    exact congrArg (· % sizeT) (by omega)
  rw [place, hsum, wordSub_wordAdd hx hbuf]

theorem constructLoop_eq (hbuf : buffer_ ≤ sizeT) (hx : x + (i + n) * T.sizeof_ < sizeT) :
    constructLoop T buffer_ m (wordAdd sizeT buffer_ x) make i n = m.fill x make i n := by
  induction n generalizing m i with
  | zero => rfl
  | succ n ih =>
    have hle : i * T.sizeof_ ≤ (i + (n + 1)) * T.sizeof_ :=
      Nat.mul_le_mul_right _ (Nat.le_add_right ..)
    rw [constructLoop, place_eq hbuf (by omega), ByteMem.fill, ih]
    rwa [Nat.add_right_comm, Nat.add_assoc]

theorem destructLoop_sameOff (hbuf : buffer_ ≤ sizeT) (hx : x + (i + n) * T.sizeof_ < sizeT) :
    m.SameOff (destructLoop T buffer_ m (wordAdd sizeT buffer_ x) i n) (x + i * T.sizeof_)
      (n * T.sizeof_) := by
  induction n generalizing m i with
  | zero => exact fun y _ => rfl
  | succ n ih =>
    have hle : i * T.sizeof_ ≤ (i + (n + 1)) * T.sizeof_ :=
      Nat.mul_le_mul_right _ (Nat.le_add_right ..)
    have hplace : place T buffer_ (wordAdd sizeT buffer_ x) i = x + i * T.sizeof_ :=
      place_eq hbuf (by omega)
    have hrest := ih (m := m.putCell (x + i * T.sizeof_)
      (T.destruct (m.readCell T.sizeof_ (x + i * T.sizeof_)))) (i := i + 1)
      (by rwa [Nat.add_right_comm, Nat.add_assoc])
    have hstep : x + (i + 1) * T.sizeof_ = x + i * T.sizeof_ + T.sizeof_ := by
      rw [Nat.succ_mul, Nat.add_assoc]
    rw [hstep] at hrest
    rw [destructLoop, Nat.succ_mul, hplace]
    exact ((ByteMem.putCell_sameOff m _ _).mono (Nat.le_refl _) (by omega)).trans
      (hrest.mono (by omega) (by omega))

end

/-! ## The invariant -/

section
variable {σ : Type} {A : CoreAllocT σ} {T : ObjType} {buffer_ : Nat}

def ObjArray.block (a : ObjArray T) : Block := ⟨a.p.shm_, a.objs.length * T.sizeof_⟩

/-- The objects in use. -/
def alive (arrays : List (ObjArray T)) : Nat := (arrays.map (·.objs.length)).sum

structure Good (L : A.Lawful) (buffer_ : Nat) (s : State σ T) : Prop where
  core : L.Inv s.core (s.arrays.map ObjArray.block)
  ptr : ∀ a ∈ s.arrays, a.p.ptr_ = wordAdd sizeT buffer_ a.p.shm_
  pos : ∀ a ∈ s.arrays, 0 < a.objs.length * T.sizeof_
  cells : ∀ a ∈ s.arrays, (A.mem s.core).Cells a.p.shm_ a.objs
  balance : s.constructed = s.destructed + s.dropped + alive s.arrays

def Holds (s : State σ T) (shm_ : Nat) : Prop := ∃ a ∈ s.arrays, a.p.shm_ = shm_

/-- The calls are for arrays in use and for numbers of objects whose bytes fit a word. -/
def Guarded (L : A.Lawful) (s : State σ T) : Nat × Op T → Prop
  | (ctx, .newObjs count _) => count * T.sizeof_ < sizeT ∧ L.Request s.core ctx (count * T.sizeof_)
  | (ctx, .reallocateConstructObjs shm_ new_count _) => Holds s shm_ ∧
      new_count * T.sizeof_ < sizeT ∧ L.Request s.core ctx (new_count * T.sizeof_) ∧
      L.Grows s.core ctx shm_ (new_count * T.sizeof_)
  | (_, .assign shm_ i _) => ∃ a ∈ s.arrays, a.p.shm_ = shm_ ∧ i < a.objs.length
  | (_, .delObjs shm_) | (_, .delObjsLocal shm_) => Holds s shm_

instance (s : State σ T) (shm_ : Nat) : Decidable (Holds s shm_) := by
  unfold Holds
  infer_instance

instance (L : A.Lawful) [∀ s ctx n, Decidable (L.Request s ctx n)]
    [∀ s ctx p n, Decidable (L.Grows s ctx p n)] (s : State σ T) (op : Nat × Op T) :
    Decidable (Guarded L s op) :=
  match op with
  | (ctx, .newObjs count _) => inferInstanceAs
    (Decidable (count * T.sizeof_ < sizeT ∧ L.Request s.core ctx (count * T.sizeof_)))
  | (ctx, .reallocateConstructObjs shm_ new_count _) => inferInstanceAs
    (Decidable (Holds s shm_ ∧ new_count * T.sizeof_ < sizeT ∧
      L.Request s.core ctx (new_count * T.sizeof_) ∧
      L.Grows s.core ctx shm_ (new_count * T.sizeof_)))
  | (_, .assign shm_ i _) => inferInstanceAs
    (Decidable (∃ a ∈ s.arrays, a.p.shm_ = shm_ ∧ i < a.objs.length))
  | (_, .delObjs shm_) | (_, .delObjsLocal shm_) => inferInstanceAs (Decidable (Holds s shm_))

variable {L : A.Lawful} {s s' : State σ T} {a b : ObjArray T} {shm_ : Nat}

theorem mem_blocks {arrays : List (ObjArray T)} (ha : a ∈ arrays) :
    a.block ∈ arrays.map ObjArray.block := List.mem_map_of_mem ha

theorem blocks_drop (arrays : List (ObjArray T)) (shm_ : Nat) :
    (drop arrays shm_).map ObjArray.block = dropBlock (arrays.map ObjArray.block) shm_ := by
  rw [drop, dropBlock, List.filter_map]
  rfl

theorem mem_drop {arrays : List (ObjArray T)} :
    a ∈ drop arrays shm_ ↔ a ∈ arrays ∧ a.p.shm_ ≠ shm_ := by
  simp [drop]

theorem Good.offs_nodup (h : Good L buffer_ s) : (s.arrays.map (·.p.shm_)).Nodup := by
  have hnd := L.nodup _ _ h.core
  rwa [List.map_map] at hnd

/-- The array that a call finds. -/
theorem Holds.find (h : Holds s shm_) :
    ∃ a, s.arrays.find? (·.p.shm_ = shm_) = some a ∧ a ∈ s.arrays ∧ a.p.shm_ = shm_ := by
  obtain ⟨b, hb, hshm⟩ := h
  cases hf : s.arrays.find? (·.p.shm_ = shm_) with
  | none => exact absurd (by simpa using hshm) (List.find?_eq_none.mp hf b hb)
  | some a =>
    exact ⟨a, rfl, List.mem_of_find?_eq_some hf, by simpa using List.find?_some hf⟩

/-- One array is the only one at its offset. -/
theorem Good.eq_of_shm (h : Good L buffer_ s) (ha : a ∈ s.arrays) (hb : b ∈ s.arrays)
    (hab : a.p.shm_ = b.p.shm_) : a = b :=
  List.inj_on_of_nodup_map h.offs_nodup ha hb hab

theorem alive_drop {arrays : List (ObjArray T)} (hnd : (arrays.map (·.p.shm_)).Nodup)
    (ha : a ∈ arrays) : alive arrays = a.objs.length + alive (drop arrays a.p.shm_) := by
  induction arrays with
  | nil => cases ha
  | cons c arrays ih =>
    rw [List.map_cons, List.nodup_cons] at hnd
    rcases List.mem_cons.mp ha with rfl | hmem
    · have hrest : drop arrays a.p.shm_ = arrays := by
        refine List.filter_eq_self.mpr fun b hb => ?_
        have hne : b.p.shm_ ≠ a.p.shm_ := fun he => hnd.1 (List.mem_map.mpr ⟨b, hb, he⟩)
        simpa using hne
      rw [drop, List.filter_cons_of_neg (by simp), ← drop, hrest]
      rfl
    · have hne : c.p.shm_ ≠ a.p.shm_ := fun he =>
        hnd.1 (List.mem_map.mpr ⟨a, hmem, he.symm⟩)
      have hrest := ih hnd.2 hmem
      simp only [alive, drop] at hrest ⊢
      rw [List.filter_cons_of_pos (by simpa using hne), List.map_cons, List.map_cons,
        List.sum_cons, List.sum_cons, hrest]
      omega

theorem Good.shm_lt (h : Good L buffer_ s) (ha : a ∈ s.arrays) :
    a.p.shm_ + a.objs.length * T.sizeof_ < sizeT :=
  Nat.lt_of_le_of_lt (L.inside _ _ _ h.core (mem_blocks ha)) L.top_lt

/-- The arrays that stay keep their objects where their blocks keep their bytes. -/
theorem Good.cells_kept (h : Good L buffer_ s) {arrays : List (ObjArray T)}
    (hsub : ∀ a ∈ arrays, a ∈ s.arrays) {core : σ}
    (hk : A.Keeps (arrays.map ObjArray.block) s.core core) :
    ∀ a ∈ arrays, (A.mem core).Cells a.p.shm_ a.objs :=
  fun a ha => (h.cells a (hsub a ha)).congr (hk a.block (mem_blocks ha))

end

/-! ## What the calls do -/

section
variable {σ : Type} {A : CoreAllocT σ} {T : ObjType} {buffer_ : Nat} {L : A.Lawful}
  {s s' s₁ : σ} {live : List Block} {q ctx count old new : Nat} {make : Nat → Cell T.sizeof_}

theorem CoreAllocT.Keeps.trans {s₂ : σ} (h : A.Keeps live s s₁) (h' : A.Keeps live s₁ s₂) :
    A.Keeps live s s₂ := fun b hb => (h b hb).trans (h' b hb)

/-- The buffer is mapped at an address, whole. -/
def Mapped (L : A.Lawful) (buffer_ : Nat) : Prop := 0 < buffer_ ∧ buffer_ + L.top ≤ sizeT

/-- A block has an address. -/
theorem convert_eq (hbuf : Mapped L buffer_) {n : Nat} (hin : q + n ≤ L.top) (hn : 0 < n) :
    convert buffer_ q = wordAdd sizeT buffer_ q ∧ wordAdd sizeT buffer_ q = buffer_ + q ∧
      convert buffer_ q ≠ 0 ∧ q ≠ nullOff := by
  obtain ⟨hpos, hend⟩ := hbuf
  have htop := L.top_lt
  have hnull : q ≠ nullOff := by
    unfold nullOff
    unfold sizeT at htop
    omega
  have hsum : wordAdd sizeT buffer_ q = buffer_ + q := wordAdd_of_lt (by omega)
  have hconv : convert buffer_ q = wordAdd sizeT buffer_ q := if_neg hnull
  exact ⟨hconv, hsum, by omega, hnull⟩

/-- The objects that are constructed behind the ones that are there. -/
theorem construct_spec (hbuf : Mapped L buffer_) {cs : List (Cell T.sizeof_)}
    (hi : L.Inv s (⟨q, new * T.sizeof_⟩ :: live)) (hn : 0 < new * T.sizeof_)
    (hcs : cs.length = min old new) (hcells : (A.mem s).Cells q cs)
    (hs' : s' = A.setMem s
      (constructObjs T buffer_ (A.mem s) (convert buffer_ q) old new make)) :
    L.Inv s' (⟨q, new * T.sizeof_⟩ :: live) ∧ A.Keeps live s s' ∧
      (A.mem s').Cells q (cs ++ (List.range' old (new - old)).map make) := by
  have hin := L.inside _ _ _ hi List.mem_cons_self
  obtain ⟨hconv, -, hne, -⟩ := convert_eq hbuf hin hn
  have htop := L.top_lt
  -- where nothing is constructed the loop does not start, wherever it would
  have hfill : constructObjs T buffer_ (A.mem s) (convert buffer_ q) old new make =
      (A.mem s).fill q make cs.length (new - old) := by
    rw [constructObjs, if_neg hne, hconv]
    rcases Nat.le_total old new with hle | hle
    · rw [hcs, Nat.min_eq_left hle]
      refine constructLoop_eq (Nat.le_trans (Nat.le_add_right ..) hbuf.2) ?_
      rw [Nat.add_sub_cancel' hle]
      exact Nat.lt_of_le_of_lt hin htop
    · rw [Nat.sub_eq_zero_of_le hle]
      rfl
  have hmake : (List.range' old (new - old)).map make =
      (List.range' cs.length (new - old)).map make := by
    rcases Nat.le_total old new with hle | hle
    · rw [hcs, Nat.min_eq_left hle]
    · rw [Nat.sub_eq_zero_of_le hle]
      rfl
  have hoff : (A.mem s).SameOff ((A.mem s).fill q make cs.length (new - old)) q
      (new * T.sizeof_) := by
    refine (ByteMem.fill_sameOff _ _ _ _ _).mono (Nat.le_add_right ..) ?_
    rw [Nat.add_assoc, ← Nat.add_mul]
    rcases Nat.le_total old new with hle | hle
    · rw [hcs, Nat.min_eq_left hle, Nat.add_sub_cancel' hle]
    · rw [hcs, Nat.min_eq_right hle, Nat.sub_eq_zero_of_le hle, Nat.add_zero]
  subst hs'
  rw [hfill]
  refine ⟨L.write _ _ _ _ hi List.mem_cons_self hoff, fun b hb => ?_, ?_⟩
  · have hne : q ≠ b.off := fun he =>
      (List.nodup_cons.mp (L.nodup _ _ hi)).1 (List.mem_map.mpr ⟨b, hb, he.symm⟩)
    rw [L.mem_setMem]
    exact L.kept hi List.mem_cons_self (List.mem_cons_of_mem _ hb) hne hoff
  · rw [L.mem_setMem, hmake]
    exact hcells.fill _

theorem newObjs_spec (hbuf : Mapped L buffer_) (hi : L.Inv s live)
    (hfit : count * T.sizeof_ < sizeT) (hreq : L.Request s ctx (count * T.sizeof_))
    {r : Except Thrown FullPtr} (h : newObjs A T buffer_ s ctx count make = some (r, s')) :
    (∃ e, r = .error e ∧ L.Inv s' live ∧ A.Keeps live s s') ∨
    ∃ q, r = .ok ⟨wordAdd sizeT buffer_ q, q⟩ ∧ L.Inv s' (⟨q, count * T.sizeof_⟩ :: live) ∧
      A.Keeps live s s' ∧ (A.mem s').Cells q ((List.range' 0 count).map make) := by
  obtain ⟨⟨r₁, s₁⟩, hallocObjs, h⟩ := Option.bind_eq_some_iff.mp h
  obtain ⟨⟨r₀, s₀⟩, halloc, hallocObjs⟩ := Option.bind_eq_some_iff.mp hallocObjs
  rw [bytes, Nat.mod_eq_of_lt hfit] at halloc
  obtain ⟨hkeep, ⟨e, rfl, hi₀⟩ | ⟨q, rfl, hi₀⟩⟩ := L.allocate _ _ _ _ _ _ hi hreq halloc
  · cases hallocObjs
    cases h
    exact .inl ⟨_, rfl, hi₀, hkeep⟩
  · cases hallocObjs
    have hn := L.request_pos _ _ _ hreq
    obtain ⟨hconv, -⟩ := convert_eq hbuf (L.inside _ _ _ hi₀ List.mem_cons_self) hn
    simp only [Option.some.injEq, Prod.mk.injEq] at h
    obtain ⟨rfl, hs'⟩ := h
    have hnone : ([] : List (Cell T.sizeof_)).length = min 0 count := (Nat.zero_min count).symm
    obtain ⟨hi', hkeep', hcells⟩ := construct_spec hbuf hi₀ hn hnone (.nil _ _) hs'.symm
    exact .inr ⟨q, by rw [hconv], hi', hkeep.trans hkeep', hcells⟩

theorem reallocateConstructObjs_spec (hbuf : Mapped L buffer_) (hi : L.Inv s live) {b : Block}
    (hb : b ∈ live) (hfit : new * T.sizeof_ < sizeT)
    (hreq : L.Request s ctx (new * T.sizeof_)) (hgrow : L.Grows s ctx b.off (new * T.sizeof_))
    {cs : List (Cell T.sizeof_)} (hb' : b.size = cs.length * T.sizeof_) (hpos : 0 < b.size)
    (hcells : (A.mem s).Cells b.off cs) {r : Except Thrown FullPtr}
    (h : reallocateConstructObjs A T buffer_ s ctx b.off cs.length new make = some (r, s')) :
    (∃ e, r = .error e ∧ L.Inv s' live ∧ A.Keeps live s s') ∨
    ∃ q, r = .ok ⟨wordAdd sizeT buffer_ q, q⟩ ∧
      L.Inv s' (⟨q, new * T.sizeof_⟩ :: dropBlock live b.off) ∧
      A.Keeps (dropBlock live b.off) s s' ∧ (A.mem s').Cells q
        (cs.take new ++ (List.range' cs.length (new - cs.length)).map make) := by
  obtain ⟨⟨r₁, s₁⟩, hobjs, h⟩ := Option.bind_eq_some_iff.mp h
  obtain ⟨⟨r₀, s₀⟩, hrealloc, hobjs⟩ := Option.bind_eq_some_iff.mp hobjs
  obtain ⟨-, -, -, hnull⟩ := convert_eq hbuf (L.inside _ _ _ hi hb) hpos
  rw [bytes, Nat.mod_eq_of_lt hfit, reallocate, if_neg hnull] at hrealloc
  obtain ⟨e, rfl, hi₀, hkeep⟩ | ⟨q, rfl, hi₀, hkeep, hmoved⟩ :=
    L.reallocate _ _ _ _ _ _ _ hi hb hreq hgrow hrealloc
  · cases hobjs
    cases h
    exact .inl ⟨_, rfl, hi₀, hkeep⟩
  · cases hobjs
    have hn := L.request_pos _ _ _ hreq
    obtain ⟨hconv, -⟩ := convert_eq hbuf (L.inside _ _ _ hi₀ List.mem_cons_self) hn
    simp only [Option.some.injEq, Prod.mk.injEq] at h
    obtain ⟨rfl, hs'⟩ := h
    have htake : (A.mem s₁).Cells q (cs.take new) := by
      refine (hcells.take new).moved fun k hk => hmoved k ?_
      rw [List.length_take] at hk
      have hle := Nat.mul_le_mul_right T.sizeof_ (Nat.min_le_left new cs.length)
      have hle' := Nat.mul_le_mul_right T.sizeof_ (Nat.min_le_right new cs.length)
      omega
    obtain ⟨hi', hkeep', hcells'⟩ := construct_spec hbuf hi₀ hn
      (by rw [List.length_take, Nat.min_comm]) htake hs'.symm
    exact .inr ⟨q, by rw [hconv], hi', hkeep.trans hkeep', hcells'⟩

/-- An array is destructed and freed, by its address or by its pointer. -/
theorem destruct_spec (hbuf : Mapped L buffer_) (hi : L.Inv s live) {b : Block} (hb : b ∈ live)
    (hb' : b.size = count * T.sizeof_) (hpos : 0 < b.size) :
    ∃ s', freeDestructObjs A T buffer_ s (wordAdd sizeT buffer_ b.off) count =
        some (.ok (), s') ∧
      freeDestructObjsLocal A T buffer_ s ⟨wordAdd sizeT buffer_ b.off, b.off⟩ count =
        some (.ok (), s') ∧
      L.Inv s' (dropBlock live b.off) ∧ A.Keeps (dropBlock live b.off) s s' := by
  have hin := L.inside _ _ _ hi hb
  obtain ⟨hconv, hsum, hne, hnull⟩ := convert_eq hbuf hin hpos
  rw [hconv] at hne
  have hbufT : buffer_ ≤ sizeT := Nat.le_trans (Nat.le_add_right ..) hbuf.2
  have htop := L.top_lt
  have hoff : toOffset buffer_ (wordAdd sizeT buffer_ b.off) = b.off := by
    rw [toOffset, if_neg hne, hsum, wordSub_of_le (Nat.le_add_right ..), Nat.add_sub_cancel_left]
  have hsame : (A.mem s).SameOff
      (destructObjs T buffer_ (A.mem s) (wordAdd sizeT buffer_ b.off) count) b.off b.size := by
    rw [destructObjs, if_neg hne, hb']
    have h := destructLoop_sameOff (T := T) (m := A.mem s) (i := 0) (n := count) hbufT
      (x := b.off) (by rw [Nat.zero_add, ← hb']; omega)
    rwa [Nat.zero_mul, Nat.add_zero] at h
  have hi₁ := L.write _ _ _ _ hi hb hsame
  obtain ⟨s', hfree, hi', hkeep⟩ := L.free _ _ _ hi₁ hb
  have hrun : free A (A.setMem s
      (destructObjs T buffer_ (A.mem s) (wordAdd sizeT buffer_ b.off) count)) b.off =
        some (.ok (), s') := by
    simp only [free, hnull, if_false, hfree, Option.bind_eq_bind, Option.bind_some]
  refine ⟨s', by rw [freeDestructObjs, hoff, hrun], by rw [freeDestructObjsLocal, hrun], hi',
    fun c hc => ?_⟩
  obtain ⟨hcl, hcb⟩ := List.mem_filter.mp hc
  have hbc : b.off ≠ c.off := fun he => by simp [he] at hcb
  refine ByteMem.SameOn.trans ?_ (hkeep c hc)
  rw [L.mem_setMem]
  exact L.kept hi hb hcl hbc hsame

end

/-! ## Runs -/

section
variable {σ : Type} {A : CoreAllocT σ} {T : ObjType} {buffer_ : Nat} {L : A.Lawful}
  {s s' : State σ T} {a : ObjArray T} {ctx : Nat}

/-- A call that has thrown. -/
theorem Good.thrown (h : Good L buffer_ s) {core : σ}
    (hi : L.Inv core (s.arrays.map ObjArray.block))
    (hk : A.Keeps (s.arrays.map ObjArray.block) s.core core) :
    Good L buffer_ { s with core } :=
  { h with core := hi, cells := h.cells_kept (fun _ => id) hk }

/-- An array has come to the arrays that stay. -/
theorem Good.cons (h : Good L buffer_ s) {arrays : List (ObjArray T)}
    (hsub : ∀ a ∈ arrays, a ∈ s.arrays) {core : σ} {q constructed destructed dropped : Nat}
    {objs : List (Cell T.sizeof_)} (hpos : 0 < objs.length * T.sizeof_)
    (hi : L.Inv core (⟨q, objs.length * T.sizeof_⟩ :: arrays.map ObjArray.block))
    (hk : A.Keeps (arrays.map ObjArray.block) s.core core) (hcells : (A.mem core).Cells q objs)
    (hsum : constructed = destructed + dropped + (objs.length + alive arrays)) :
    Good L buffer_ ⟨core, ⟨⟨wordAdd sizeT buffer_ q, q⟩, objs⟩ :: arrays, constructed, destructed,
      dropped⟩ where
  core := hi
  ptr b hb := by
    rcases List.mem_cons.mp hb with rfl | hb
    · rfl
    · exact h.ptr b (hsub b hb)
  pos b hb := by
    rcases List.mem_cons.mp hb with rfl | hb
    · exact hpos
    · exact h.pos b (hsub b hb)
  cells b hb := by
    rcases List.mem_cons.mp hb with rfl | hb
    · exact hcells
    · exact h.cells_kept hsub hk b hb
  balance := by
    rw [hsum, alive, alive, List.map_cons, List.sum_cons]

theorem Good.newObjs (h : Good L buffer_ s) (hbuf : Mapped L buffer_) {count : Nat}
    {make : Nat → Cell T.sizeof_} (hg : Guarded L s (ctx, .newObjs count make))
    (hs : step A T buffer_ s (ctx, .newObjs count make) = some s') : Good L buffer_ s' := by
  obtain ⟨⟨r, core⟩, hnew, hs⟩ := Option.bind_eq_some_iff.mp hs
  obtain ⟨e, rfl, hi, hk⟩ | ⟨q, rfl, hi, hk, hcells⟩ :=
    newObjs_spec hbuf h.core hg.1 hg.2 hnew
  · cases hs
    exact h.thrown hi hk
  · cases hs
    have hlen : ((List.range' 0 count).map make).length = count := by simp
    refine h.cons (fun _ => id) ?_ ?_ hk hcells ?_
    · rw [hlen]
      exact L.request_pos _ _ _ hg.2
    · rwa [hlen]
    · rw [hlen, h.balance]
      omega

theorem Good.reallocate (h : Good L buffer_ s) (hbuf : Mapped L buffer_) {shm_ new : Nat}
    {make : Nat → Cell T.sizeof_}
    (hg : Guarded L s (ctx, .reallocateConstructObjs shm_ new make))
    (hs : step A T buffer_ s (ctx, .reallocateConstructObjs shm_ new make) = some s') :
    Good L buffer_ s' := by
  obtain ⟨hheld, hfit, hreq, hgrow⟩ := hg
  obtain ⟨a, hfind, ha, rfl⟩ := hheld.find
  obtain ⟨a', hfind', hs⟩ := Option.bind_eq_some_iff.mp hs
  obtain rfl : a = a' := Option.some.inj (hfind.symm.trans hfind')
  obtain ⟨⟨r, core⟩, hrealloc, hs⟩ := Option.bind_eq_some_iff.mp hs
  obtain ⟨e, rfl, hi, hk⟩ | ⟨q, rfl, hi, hk, hcells⟩ := reallocateConstructObjs_spec hbuf h.core
    (mem_blocks ha) hfit hreq hgrow rfl (h.pos a ha) (h.cells a ha) hrealloc
  · cases hs
    exact h.thrown hi hk
  · cases hs
    have hlen : (a.objs.take new ++
        (List.range' a.objs.length (new - a.objs.length)).map make).length = new := by
      simp only [List.length_append, List.length_take, List.length_map, List.length_range']
      omega
    have hblock : a.block.off = a.p.shm_ := rfl
    rw [hblock, ← blocks_drop] at hi hk
    refine h.cons (fun b hb => (mem_drop.mp hb).1) ?_ ?_ hk hcells ?_
    · rw [hlen]
      exact L.request_pos _ _ _ hreq
    · rwa [hlen]
    · have hsum := alive_drop h.offs_nodup ha
      have hbal := h.balance
      rw [hlen]
      omega

theorem Good.assign (h : Good L buffer_ s) (hbuf : Mapped L buffer_) {shm_ i : Nat}
    {obj : Cell T.sizeof_} (hg : Guarded L s (ctx, .assign shm_ i obj))
    (hs : step A T buffer_ s (ctx, .assign shm_ i obj) = some s') : Good L buffer_ s' := by
  obtain ⟨b, hb, hshm, hlt⟩ := hg
  obtain ⟨a, hfind, ha, rfl⟩ := Holds.find ⟨b, hb, hshm⟩
  obtain rfl := h.eq_of_shm hb ha hshm
  obtain ⟨a', hfind', hs⟩ := Option.bind_eq_some_iff.mp hs
  obtain rfl : b = a' := Option.some.inj (hfind.symm.trans hfind')
  have hin := ByteMem.place_inside (w := T.sizeof_) b.p.shm_ hlt
  have hplace : place T buffer_ b.p.ptr_ i = b.p.shm_ + i * T.sizeof_ := by
    rw [h.ptr b hb]
    refine place_eq (Nat.le_trans (Nat.le_add_right ..) hbuf.2) ?_
    have := h.shm_lt hb
    omega
  have hsame : (A.mem s.core).SameOff ((A.mem s.core).putCell (b.p.shm_ + i * T.sizeof_) obj)
      b.p.shm_ (b.objs.length * T.sizeof_) :=
    (ByteMem.putCell_sameOff _ _ obj).mono (Nat.le_add_right ..) (by omega)
  cases hs
  have hmem (P : ObjArray T → Prop) (heq : P { b with objs := b.objs.set i obj })
      (hne : ∀ c ∈ s.arrays, c.p.shm_ ≠ b.p.shm_ → P c) :
      ∀ c ∈ s.arrays.map fun c => if c.p.shm_ = b.p.shm_ then { c with objs := c.objs.set i obj }
        else c, P c := by
    intro c hc
    obtain ⟨d, hd, rfl⟩ := List.mem_map.mp hc
    split
    · rename_i he
      obtain rfl := h.eq_of_shm hd hb he
      exact heq
    · rename_i he
      exact hne d hd he
  have hblocks : (s.arrays.map fun c =>
      if c.p.shm_ = b.p.shm_ then { c with objs := c.objs.set i obj } else c).map
        ObjArray.block = s.arrays.map ObjArray.block := by
    rw [List.map_map]
    refine List.map_congr_left fun c _ => ?_
    simp only [Function.comp_apply, ObjArray.block]
    split <;> simp
  have halive : alive (s.arrays.map fun c =>
      if c.p.shm_ = b.p.shm_ then { c with objs := c.objs.set i obj } else c) =
        alive s.arrays := by
    simp only [alive, List.map_map]
    refine congrArg List.sum (List.map_congr_left fun c _ => ?_)
    simp only [Function.comp_apply]
    split <;> simp
  refine ⟨?_, hmem _ (h.ptr b hb) fun c hc _ => h.ptr c hc,
    hmem _ (by simpa using h.pos b hb) fun c hc _ => h.pos c hc, hmem _ ?_ fun c hc hne => ?_,
    by rw [halive]; exact h.balance⟩
  · rw [hblocks, hplace]
    exact L.write _ _ _ _ h.core (mem_blocks hb) hsame
  · simp only [L.mem_setMem, hplace]
    exact (h.cells b hb).set i obj
  · simp only [L.mem_setMem, hplace]
    exact (h.cells c hc).congr
      (L.kept h.core (mem_blocks hb) (mem_blocks hc) (Ne.symm hne) hsame)

theorem Good.deleted (h : Good L buffer_ s) (ha : a ∈ s.arrays) {core : σ}
    (hi : L.Inv core (dropBlock (s.arrays.map ObjArray.block) a.p.shm_))
    (hk : A.Keeps (dropBlock (s.arrays.map ObjArray.block) a.p.shm_) s.core core) :
    Good L buffer_ (deleted T s a (.ok (), core)) := by
  rw [← blocks_drop] at hi hk
  have hsub (b : ObjArray T) (hb : b ∈ drop s.arrays a.p.shm_) : b ∈ s.arrays :=
    (mem_drop.mp hb).1
  refine ⟨hi, fun b hb => h.ptr b (hsub b hb), fun b hb => h.pos b (hsub b hb),
    h.cells_kept hsub hk, ?_⟩
  have hsum := alive_drop h.offs_nodup ha
  have hbal := h.balance
  simp only [ObjectCalls.deleted]
  omega

/-- A delete does not throw. -/
theorem Good.delete (h : Good L buffer_ s) (hbuf : Mapped L buffer_) (ha : a ∈ s.arrays) :
    ∃ core, freeDestructObjs A T buffer_ s.core a.p.ptr_ a.objs.length = some (.ok (), core) ∧
      freeDestructObjsLocal A T buffer_ s.core a.p a.objs.length = some (.ok (), core) ∧
      Good L buffer_ (ObjectCalls.deleted T s a (.ok (), core)) := by
  obtain ⟨core, hdel, hlocal, hi, hk⟩ :=
    destruct_spec hbuf h.core (mem_blocks ha) rfl (h.pos a ha)
  have hptr : wordAdd sizeT buffer_ a.block.off = a.p.ptr_ := (h.ptr a ha).symm
  rw [hptr] at hdel hlocal
  exact ⟨core, hdel, hlocal, h.deleted ha hi hk⟩

theorem Good.step (h : Good L buffer_ s) (hbuf : Mapped L buffer_) {op : Nat × Op T}
    (hg : Guarded L s op) (hs : step A T buffer_ s op = some s') : Good L buffer_ s' := by
  obtain ⟨ctx, op⟩ := op
  cases op with
  | newObjs count make => exact h.newObjs hbuf hg hs
  | reallocateConstructObjs shm_ new make => exact h.reallocate hbuf hg hs
  | assign shm_ i obj => exact h.assign hbuf hg hs
  | delObjs shm_ =>
    obtain ⟨a, hfind, ha, rfl⟩ := Holds.find hg
    obtain ⟨core, hdel, -, hgood⟩ := h.delete hbuf ha
    simp only [ObjectCalls.step, hfind, hdel, Option.bind_eq_bind, Option.bind_some,
      Option.some.injEq] at hs
    exact hs ▸ hgood
  | delObjsLocal shm_ =>
    obtain ⟨a, hfind, ha, rfl⟩ := Holds.find hg
    obtain ⟨core, -, hdel, hgood⟩ := h.delete hbuf ha
    simp only [ObjectCalls.step, hfind, hdel, Option.bind_eq_bind, Option.bind_some,
      Option.some.injEq] at hs
    exact hs ▸ hgood

/-- What a program finds: every object is as it was given, the arrays are apart, a delete goes
through by the address and by the pointer alike, and no constructor is without its destructor but
for the objects in use and those that a shorter reallocation left behind. -/
structure Sound (A : CoreAllocT σ) (T : ObjType) (buffer_ : Nat) (s : State σ T) : Prop where
  reads : ∀ a ∈ s.arrays, ∀ i obj, a.objs[i]? = some obj →
    (A.mem s.core).readCell T.sizeof_ (place T buffer_ a.p.ptr_ i) = obj
  apart : s.arrays.Pairwise fun a b => a.p.ptr_ + a.objs.length * T.sizeof_ ≤ b.p.ptr_ ∨
    b.p.ptr_ + b.objs.length * T.sizeof_ ≤ a.p.ptr_
  deletes : ∀ a ∈ s.arrays, ∃ core,
    freeDestructObjs A T buffer_ s.core a.p.ptr_ a.objs.length = some (.ok (), core) ∧
      freeDestructObjsLocal A T buffer_ s.core a.p a.objs.length = some (.ok (), core)
  balance : s.constructed = s.destructed + s.dropped + alive s.arrays

theorem Good.sound (h : Good L buffer_ s) (hbuf : Mapped L buffer_) : Sound A T buffer_ s where
  reads a ha i obj hi := by
    obtain ⟨hlt, -⟩ := List.getElem?_eq_some_iff.mp hi
    have hin := ByteMem.place_inside (w := T.sizeof_) a.p.shm_ hlt
    have := h.shm_lt ha
    rw [h.ptr a ha, place_eq (Nat.le_trans (Nat.le_add_right ..) hbuf.2) (by omega)]
    exact h.cells a ha i obj hi
  apart := by
    have hnd := h.offs_nodup
    rw [List.Nodup, List.pairwise_map] at hnd
    refine hnd.imp_of_mem fun {a b} ha hb hne => ?_
    have hapart := L.apart _ _ _ _ h.core (mem_blocks ha) (mem_blocks hb) hne
    obtain ⟨-, hsum, -⟩ := convert_eq hbuf (L.inside _ _ _ h.core (mem_blocks ha)) (h.pos a ha)
    obtain ⟨-, hsum', -⟩ := convert_eq hbuf (L.inside _ _ _ h.core (mem_blocks hb)) (h.pos b hb)
    simp only [ObjArray.block] at hapart hsum hsum'
    rw [h.ptr a ha, h.ptr b hb, hsum, hsum']
    omega
  deletes a ha := by
    obtain ⟨core, hdel, hlocal, -⟩ := h.delete hbuf ha
    exact ⟨core, hdel, hlocal⟩
  balance := h.balance

/-- **Objects over any core allocator** that keeps its blocks. -/
theorem sound_of_lawful (hbuf : Mapped L buffer_) {core : σ} (hi : L.Inv core [])
    {ops : List (Nat × Op T)}
    (hr : Run (ObjectCalls.step A T buffer_) (Guarded L) { core } ops s) :
    Sound A T buffer_ s := by
  have hgood : Good L buffer_ s := hr.invariant (I := Good L buffer_)
    ⟨hi, nofun, nofun, nofun, rfl⟩ fun _ _ _ h hg hs => h.step hbuf hg hs
  exact hgood.sound hbuf

end
end HermesShm.Memory.ObjectCalls
