import HermesShm.Memory.InProcessView
import HermesShm.Memory.PosixShmMmapRuns

/-! # What backends share

Backends of one object see one another's stores and nothing else changes what they see:
not the end of the other backends, nor the end of the name. -/
namespace HermesShm.Memory.PosixShmMmap
open HermesShm.Base

variable {ι N κ : Type} [DecidableEq ι] [DecidableEq N] [DecidableEq κ] {G : Paging}
  {home : κ → ι} {K K' : System ι N κ} {i : ι} {o p : κ} {b b' : Backend N} {a : Act N}
  {out : Outcome} {f n w x y : Nat} {byte : UInt8} {url : N} {st st' : Nat → Stage κ}
  {s₀ s t u : State ι N κ} {l : κ × Act N} {ls ms : List (κ × Act N)}

omit [DecidableEq ι] [DecidableEq N] [DecidableEq κ] in
/-- The object has room for all of the data: no size wraps that can be mapped. -/
theorem DataPages.size_eq (h : DataPages G K st i o b) (hw : World K st)
    (hG : G.count * G.bytes + hdr_size_ < sizeT) (hf : b.object < K.count) :
    (K.objects b.object).size = b.data_size_ + hdr_size_ := by
  have hs := hw.staged _ hf
  rw [h.formatted] at hs
  have hle : b.data_size_ ≤ G.count * G.bytes := Nat.le_trans (G.le_pagesOf b.data_size_)
    (Nat.mul_le_mul_right _ (Nat.le_trans (Nat.le_add_left ..) h.bound))
  rw [hs.1, wordAdd_of_lt (by omega)]

/-! ## What a step does to objects and names -/

/-- Objects that are finished, and names, are left alone. -/
structure Spares (o : κ) (st : Nat → Stage κ) (K K' : System ι N κ) : Prop where
  objects : ∀ f, f < K.count → K'.objects f = K.objects f ∨ (st f).Of o
  names : ∀ u f, K.names u = some f → K'.names u = some f

omit [DecidableEq ι] [DecidableEq N] [DecidableEq κ] in
theorem Spares.of_eq (hobj : K'.objects = K.objects) (hn : K'.names = K.names) :
    Spares o st K K' :=
  ⟨fun f _ => .inl (by rw [hobj]), fun u f h => by rw [hn, h]⟩

omit [DecidableEq ι] [DecidableEq N] [DecidableEq κ] in
theorem Spares.setObject {ob : ShmObject} (h : (st f).Of o) :
    Spares o st K (K.setObject f ob) := by
  refine ⟨fun g _ => ?_, fun u f h => h⟩
  obtain rfl | hne := eq_or_ne g f
  · exact .inr h
  · exact .inl (Function.update_of_ne hne ..)

omit [DecidableEq N] [DecidableEq κ] in
theorem shmMap_spares {len off v : Nat} {tag : Tag κ}
    (h : shmMap G i K b len off v tag = some K') : Spares o st K K' := by
  obtain ⟨d, -, h⟩ := Option.bind_eq_some_iff.mp h
  obtain ⟨e, -, h⟩ := Option.bind_eq_some_iff.mp h
  simp only [Kernel.mmap] at h
  split at h
  · cases h
    exact .of_eq rfl rfl
  · cases h

omit [DecidableEq κ] in
theorem Inv.proceed_spares (h : Inv G home s st)
    (ha : PosixShmMmap.proceed G (home o) o s.kernel (s.backends o) out = some (K', b')) :
    Spares o st s.kernel K' := by
  have hr := (h.each o).reached
  unfold PosixShmMmap.proceed at ha
  split at ha
  next id size url d hpc =>
    have hname := (h.unlinked o url (by rw [hpc]; rfl)).1
    rw [create_eq hname] at ha
    obtain ⟨K₁, hK, heq⟩ := Option.bind_eq_some_iff.mp ha
    cases heq
    obtain ⟨-, hn, hobj, -⟩ := openFd_eq hK
    dsimp only at hn hobj
    refine ⟨fun f hf => .inl ?_, fun u f hu => ?_⟩
    · rw [hobj, Function.update_of_ne (Nat.ne_of_lt hf)]
    · have hne : u ≠ url := by
        rintro rfl
        rw [hname] at hu
        cases hu
      rw [hn, Function.update_of_ne hne, hu]
  next => cases ha; exact .of_eq rfl rfl
  next id size url hpc =>
    obtain ⟨d, hd, ha⟩ := Option.bind_eq_some_iff.mp ha
    obtain ⟨e, he, heq⟩ := Option.bind_eq_some_iff.mp ha
    rw [Reached, hpc] at hr
    cases hr.2.1.unique hd he
    cases heq
    exact .setObject (by rw [hr.2.2.2.2.1]; rfl)
  next id size url hpc =>
    obtain ⟨d, hd, heq⟩ := Option.bind_eq_some_iff.mp ha
    cases heq
    exact .of_eq rfl rfl
  next =>
    obtain ⟨K₁, hK, heq⟩ := Option.bind_eq_some_iff.mp ha
    cases heq
    exact shmMap_spares hK
  next => cases ha; exact .of_eq rfl rfl
  next id size hpc =>
    obtain ⟨K₁, hK, heq⟩ := Option.bind_eq_some_iff.mp ha
    cases heq
    rw [Reached, hpc] at hr
    obtain ⟨hi, -, hh, -, hst, hsize⟩ := hr
    obtain ⟨bs, rfl, -⟩ := writeHeader_eq (((h.each o).header hh).mapped hi) hsize hK
    exact .setObject (by rw [hst]; rfl)
  next =>
    obtain ⟨K₁, hK, heq⟩ := Option.bind_eq_some_iff.mp ha
    cases heq
    exact shmMap_spares hK
  next => cases ha; exact .of_eq rfl rfl
  next =>
    obtain ⟨K₁, hK, heq⟩ := Option.bind_eq_some_iff.mp ha
    cases heq
    exact shmMap_spares hK
  next => cases ha; exact .of_eq rfl rfl
  next =>
    obtain ⟨n, -, heq⟩ := Option.bind_eq_some_iff.mp ha
    cases heq
    exact .of_eq rfl rfl
  next =>
    obtain ⟨K₁, hK, heq⟩ := Option.bind_eq_some_iff.mp ha
    cases heq
    exact shmMap_spares hK
  next => cases ha; exact .of_eq rfl rfl
  next => cases ha

omit [DecidableEq N] [DecidableEq κ] in
theorem detach_spares (G : Paging) (i : ι) (K : System ι N κ) (b : Backend N) (o : κ)
    (st : Nat → Stage κ) : Spares o st K (detach G i K b).1 := by
  rw [detach]
  split
  · obtain ⟨hobj, -, hn, -⟩ := closeSharedMemory_eq i
      ((K.munmap G i b.header_ G.bytes).munmap G i b.data_ b.data_size_) b
    exact .of_eq (by rw [hobj, Kernel.munmap_objects, Kernel.munmap_objects])
      (by rw [hn, Kernel.munmap_names, Kernel.munmap_names])
  · exact .of_eq rfl rfl

/-- The step may remove the name. -/
def Removes (s : State ι N κ) (url : N) (l : κ × Act N) : Prop :=
  match l.2 with
  | .shmInit _ _ v => v = url
  | .shmDestroy | .destruct => (s.backends l.1).url_ = url
  | _ => False

/-- The step stores to the byte at `x` of object `f`. -/
def Stores (s : State ι N κ) (f x : Nat) (l : κ × Act N) : Prop :=
  match l.2 with
  | .store y _ => (s.backends l.1).object = f ∧ hdr_size_ + y = x
  | _ => False

omit [DecidableEq κ] in
theorem destroy_spares (G : Paging) (i : ι) (K : System ι N κ) (b : Backend N) (o : κ)
    (st : Nat → Stage κ) :
    (∀ f, f < K.count → (destroy G i K b).1.objects f = K.objects f ∨ (st f).Of o) ∧
      ∀ u f, u ≠ b.url_ → K.names u = some f → (destroy G i K b).1.names u = some f := by
  obtain ⟨hobj, hn⟩ := detach_spares G i K b o st
  rw [destroy]
  split
  · refine ⟨hobj, fun u f hne h => ?_⟩
    have hurl : (detach G i K b).2.url_ = b.url_ := by rw [detach_backend]
    simp only [Kernel.unlink, hurl, Function.update_of_ne hne, hn u f h]
  · exact ⟨fun _ _ => .inl rfl, fun _ _ _ h => h⟩

/-- What a step does to the data of a finished object, and to a name. -/
theorem Inv.spares (h : Inv G home s st) (hok : Ok G home s l)
    (hs : PosixShmMmap.step G home s l = some t) :
    (∀ f n x, f < s.kernel.count → st f = .formatted n → hdr_size_ ≤ x → ¬ Stores s f x l →
      (t.kernel.objects f).bytes x = (s.kernel.objects f).bytes x) ∧
    ∀ u f, ¬ Removes s u l → s.kernel.names u = some f → t.kernel.names u = some f := by
  obtain ⟨o, a⟩ := l
  obtain ⟨⟨K', b'⟩, ha, rfl⟩ := Option.map_eq_some_iff.mp hs
  -- most steps touch no object that is finished
  have hbytes : (∀ f, f < s.kernel.count → K'.objects f = s.kernel.objects f ∨ (st f).Of o) →
      ∀ f n x, f < s.kernel.count → st f = .formatted n → hdr_size_ ≤ x → ¬ Stores s f x (o, a) →
        (K'.objects f).bytes x = (s.kernel.objects f).bytes x := by
    intro hobj f n x hf hst _ _
    rcases hobj f hf with he | hof
    · rw [he]
    · rw [hst] at hof
      exact hof.elim
  have hspare : Spares o st s.kernel K' →
      (∀ f n x, f < s.kernel.count → st f = .formatted n → hdr_size_ ≤ x →
        ¬ Stores s f x (o, a) → (K'.objects f).bytes x = (s.kernel.objects f).bytes x) ∧
      ∀ u f, ¬ Removes s u (o, a) → s.kernel.names u = some f → K'.names u = some f :=
    fun hsp => ⟨hbytes hsp.objects, fun u f _ hu => hsp.names u f hu⟩
  cases a with
  | proceed out => exact hspare (h.proceed_spares ha)
  | shmInit id size url =>
    simp only [PosixShmMmap.act] at ha
    split at ha
    · cases ha
      refine ⟨hbytes fun _ _ => .inl rfl, fun u f hno hu => ?_⟩
      exact (Function.update_of_ne (fun hne => hno (Eq.symm hne)) ..).trans hu
    · cases ha
  | shmDeserialize url fd =>
    simp only [PosixShmMmap.act] at ha
    split at ha
    · cases fd with
      | none =>
        cases ha
        exact hspare (.of_eq rfl rfl)
      | some d =>
        obtain ⟨f, hf, ha⟩ := Option.bind_eq_some_iff.mp ha
        obtain ⟨K₁, hK, heq⟩ := Option.bind_eq_some_iff.mp ha
        cases heq
        obtain ⟨-, hn, hobj, -⟩ := openFd_eq hK
        exact hspare (.of_eq hobj hn)
    · cases ha
  | shmDetach =>
    simp only [PosixShmMmap.act] at ha
    split at ha
    · have hsp := detach_spares G (home o) s.kernel (s.backends o) o st
      rw [Option.some.inj ha] at hsp
      exact hspare hsp
    · cases ha
  | shmDestroy =>
    simp only [PosixShmMmap.act] at ha
    split at ha
    · obtain ⟨hobj, hn⟩ := destroy_spares G (home o) s.kernel (s.backends o) o st
      rw [Option.some.inj ha] at hobj hn
      exact ⟨hbytes hobj, fun u f hno => hn u f fun hu => hno hu.symm⟩
    · cases ha
  | destruct =>
    simp only [PosixShmMmap.act] at ha
    split at ha
    · have heq := Option.some.inj ha
      simp only [PosixShmMmap.destruct] at heq
      split at heq
      · obtain ⟨hobj, hn⟩ := destroy_spares G (home o) s.kernel (s.backends o) o st
        cases heq
        exact ⟨hbytes hobj, fun u f hno => hn u f fun hu => hno hu.symm⟩
      · cases heq
        exact hspare (detach_spares ..)
    · cases ha
  | store y byte =>
    obtain ⟨hready, hy⟩ := hok
    simp only [PosixShmMmap.act, if_pos hready.1] at ha
    obtain ⟨K₁, hK, heq⟩ := Option.map_eq_some_iff.mp ha
    cases heq
    obtain rfl := ((h.each o).data hready.2.1 hready.2.2).mapped.store hy hK
    refine ⟨fun f n x _ _ hx hno => ?_, fun u f _ hu => hu⟩
    simp only [Kernel.setObject]
    obtain rfl | hne := eq_or_ne f (s.backends o).object
    · rw [Function.update_self]
      exact Function.update_of_ne (fun he => hno ⟨rfl, he.symm⟩) ..
    · rw [Function.update_of_ne hne]
  | setHasAlloc =>
    simp only [PosixShmMmap.act, if_pos hok.1] at ha
    obtain ⟨flags, -, ha⟩ := Option.bind_eq_some_iff.mp ha
    obtain ⟨K₁, hK, heq⟩ := Option.bind_eq_some_iff.mp ha
    cases heq
    have hdata := (h.each o).data hok.2.1 hok.2.2
    have hm : s.kernel.Mapped G (home o) ((s.backends o).header_ + 16) 8 (s.backends o).object
      (0 + 16) := (((h.each o).header hdata.header).mapped hok.2.1).sub (by decide)
    obtain rfl := hm.storeWord hK
    refine ⟨fun f n x _ _ hx _ => ?_, fun u f _ hu => hu⟩
    have h16 : hdr_size_ = 16384 := rfl
    simp only [Kernel.setObject]
    obtain rfl | hne := eq_or_ne f (s.backends o).object
    · rw [Function.update_self]
      exact ByteMem.store_sameOff _ _ _ _ x (.inr (by omega))
    · rw [Function.update_of_ne hne]

/-! ## What is shared -/

/-- What holds of backends that are ready: the data of each is that of its object, apart
from that of the others of the process; backends of one object agree on its size and on
every byte, and a store through one of them is seen by these, and at that byte only. There
are none where the page size does not divide the size of the header. -/
structure Sound (G : Paging) (home : κ → ι) (s : State ι N κ) : Prop where
  divides : ∀ o, (s.backends o).Ready → hdr_size_ % G.bytes = 0
  placed : ∀ o, (s.backends o).Ready → s.kernel.Mapped G (home o) (s.backends o).data_
    (s.backends o).data_size_ (s.backends o).object hdr_size_
  sized : ∀ o, (s.backends o).Ready →
    (s.kernel.objects (s.backends o).object).size = (s.backends o).data_size_ + hdr_size_
  apart : ∀ o p, (s.backends o).Ready → (s.backends p).Ready → o ≠ p → home o = home p →
    ∀ x y, x < (s.backends o).data_size_ → y < (s.backends p).data_size_ →
      (s.backends o).data_ + x ≠ (s.backends p).data_ + y
  agree : ∀ o p, (s.backends o).Ready → (s.backends p).Ready →
    (s.backends o).object = (s.backends p).object →
    (s.backends o).data_size_ = (s.backends p).data_size_ ∧
      ∀ x, x < (s.backends o).data_size_ → ∃ byte,
        s.kernel.load G (home o) ((s.backends o).data_ + x) = some byte ∧
        s.kernel.load G (home p) ((s.backends p).data_ + x) = some byte
  seen : ∀ o x byte t, Ok G home s (o, .store x byte) → step G home s (o, .store x byte) = some t →
    t.backends = s.backends ∧ ∀ p, (s.backends p).Ready → ∀ y, y < (s.backends p).data_size_ →
      t.kernel.load G (home p) ((s.backends p).data_ + y) =
        if (s.backends p).object = (s.backends o).object ∧ y = x then some byte
        else s.kernel.load G (home p) ((s.backends p).data_ + y)

omit [DecidableEq ι] [DecidableEq N] [DecidableEq κ] in
theorem Inv.load (h : Inv G home s st) (hG : G.count * G.bytes + hdr_size_ < sizeT)
    (hready : (s.backends o).Ready) (hx : x < (s.backends o).data_size_) :
    s.kernel.load G (home o) ((s.backends o).data_ + x) =
      some ((s.kernel.objects (s.backends o).object).bytes (hdr_size_ + x)) := by
  have hdata := (h.each o).data hready.2.1 hready.2.2
  have hsize := hdata.size_eq h.world hG ((h.each o).header hdata.header).object
  exact hdata.mapped.load (by omega) hx

omit [DecidableEq ι] [DecidableEq N] [DecidableEq κ] in
theorem Inv.load_write {bs : ByteMem} (h : Inv G home s st)
    (hG : G.count * G.bytes + hdr_size_ < sizeT) (hready : (s.backends p).Ready)
    (hy : y < (s.backends p).data_size_)
    (hK : K' = s.kernel.setObject f { s.kernel.objects f with bytes := bs }) :
    K'.load G (home p) ((s.backends p).data_ + y) =
      some ((K'.objects (s.backends p).object).bytes (hdr_size_ + y)) := by
  have hdata := (h.each p).data hready.2.1 hready.2.2
  have hsize := hdata.size_eq h.world hG ((h.each p).header hdata.header).object
  have hm : K'.Mapped G (home p) (s.backends p).data_ (s.backends p).data_size_
    (s.backends p).object hdr_size_ := hdata.mapped.congr (by rw [hK]; rfl)
  refine hm.load ?_ hy
  rw [hK]
  simp only [Kernel.setObject]
  by_cases hobj : (s.backends p).object = f
  · rw [hobj, Function.update_self, ← hobj]
    dsimp only
    omega
  · rw [Function.update_of_ne hobj]
    omega

theorem Inv.seen (h : Inv G home s st) (hG : G.count * G.bytes + hdr_size_ < sizeT)
    (hok : Ok G home s (o, .store x byte))
    (hs : PosixShmMmap.step G home s (o, .store x byte) = some t) :
    t.backends = s.backends ∧ ∀ p, (s.backends p).Ready → ∀ y, y < (s.backends p).data_size_ →
      t.kernel.load G (home p) ((s.backends p).data_ + y) =
        if (s.backends p).object = (s.backends o).object ∧ y = x then some byte
        else s.kernel.load G (home p) ((s.backends p).data_ + y) := by
  obtain ⟨⟨K', b'⟩, ha, rfl⟩ := Option.map_eq_some_iff.mp hs
  obtain ⟨hready, hx⟩ := hok
  simp only [PosixShmMmap.act, if_pos hready.1] at ha
  obtain ⟨K₁, hK, heq⟩ := Option.map_eq_some_iff.mp ha
  cases heq
  obtain rfl := ((h.each o).data hready.2.1 hready.2.2).mapped.store hx hK
  refine ⟨Function.update_eq_self .., fun p hp y hy => ?_⟩
  dsimp only
  rw [h.load_write hG hp hy rfl, h.load hG hp hy]
  simp only [Kernel.setObject]
  by_cases hobj : (s.backends p).object = (s.backends o).object
  · rw [hobj, Function.update_self]
    dsimp only
    by_cases hyx : y = x
    · rw [if_pos ⟨rfl, hyx⟩, hyx, Function.update_self]
    · rw [if_neg fun hin => hyx hin.2, Function.update_of_ne fun he => hyx (by omega)]
  · rw [if_neg fun hin => hobj hin.1, Function.update_of_ne hobj]

theorem Inv.sound (h : Inv G home s st) (hG : G.count * G.bytes + hdr_size_ < sizeT) :
    Sound G home s := by
  have hdata : ∀ o, (s.backends o).Ready →
      DataPages G s.kernel st (home o) o (s.backends o) :=
    fun o hready => (h.each o).data hready.2.1 hready.2.2
  refine ⟨fun o ho => (hdata o ho).offset, fun o ho => (hdata o ho).mapped,
    fun o ho => (hdata o ho).size_eq h.world hG
    ((h.each o).header (hdata o ho).header).object, ?_, ?_, ?_⟩
  · intro o p ho hp hne hhome x y hx hy heq
    -- one page would have the tags of both
    have hpage : ∀ q z, (s.backends q).Ready → z < (s.backends q).data_size_ → ∃ f k,
        s.kernel.tables (home q) (((s.backends q).data_ + z) / G.bytes) =
          some (.shm f k (.data q)) := by
      intro q z hq hz
      have hd := hdata q hq
      have hdiv : ((s.backends q).data_ + z) / G.bytes =
          (s.backends q).data_ / G.bytes + z / G.bytes := by
        have hmul := Nat.div_add_mod (s.backends q).data_ G.bytes
        rw [hd.aligned, Nat.add_zero] at hmul
        rw [← hmul, Nat.mul_add_div G.pos, Nat.mul_div_cancel_left _ G.pos]
      refine ⟨_, _, hdiv ▸ hd.pages _ (Nat.le_add_right ..) ?_⟩
      exact Nat.add_lt_add_left (Paging.div_lt_pagesOf hz) _
    obtain ⟨f, k, hf⟩ := hpage o x ho hx
    obtain ⟨g, m, hg⟩ := hpage p y hp hy
    rw [← hhome, ← heq, hf] at hg
    cases hg
    exact hne rfl
  · intro o p ho hp hobj
    have hsize : (s.backends o).data_size_ = (s.backends p).data_size_ := by
      have hst := (hdata o ho).formatted
      rw [hobj, (hdata p hp).formatted] at hst
      exact (Stage.formatted.inj hst).symm
    refine ⟨hsize, fun x hx => ⟨_, h.load hG ho hx, ?_⟩⟩
    rw [hobj]
    exact h.load hG hp (hsize ▸ hx)
  · intro o x byte t hok hs
    exact h.seen hG hok hs

/-- The bytes of an object after the header. -/
def buffer (K : System ι N κ) (f : Nat) : ByteMem := fun x => (K.objects f).bytes (hdr_size_ + x)

/-- Each process that has a backend ready has a view of the buffer, at a base of its own
where the allocators can be. -/
theorem view_of_run (hG : G.count * G.bytes + hdr_size_ < sizeT) (hi : Initial s₀)
    (hr : Run (step G home) (Ok G home) s₀ ls s) (hready : (s.backends o).Ready)
    (other : ByteMem) :
    InProcess.Mappable (s.backends o).data_size_ (s.backends o).data_ ∧
      ∀ x, x < (s.backends o).data_size_ →
        s.kernel.load G (home o) ((s.backends o).data_ + x) = some
          (Mapping.view (s.backends o).data_size_ (buffer s.kernel (s.backends o).object)
            ⟨(s.backends o).data_, other⟩ ((s.backends o).data_ + x)) := by
  obtain ⟨st, h⟩ := run_inv hi hr
  have hdata := (h.each o).data hready.2.1 hready.2.2
  refine ⟨⟨Nat.pos_of_ne_zero hready.2.2, ?_⟩, fun x hx => ?_⟩
  · have hdiv := Nat.div_add_mod (s.backends o).data_ G.bytes
    have hle := Nat.mul_le_mul_right G.bytes hdata.bound
    have hsize := G.le_pagesOf (s.backends o).data_size_
    rw [hdata.aligned, Nat.add_zero, Nat.mul_comm] at hdiv
    rw [Nat.add_mul, hdiv] at hle
    omega
  · rw [h.load hG hready hx]
    have hview := Mapping.view_apply (p := ⟨(s.backends o).data_, other⟩)
      (σ := buffer s.kernel (s.backends o).object) hx
    exact congrArg some hview.symm

end HermesShm.Memory.PosixShmMmap
