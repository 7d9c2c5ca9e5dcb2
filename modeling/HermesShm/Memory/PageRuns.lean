import HermesShm.Memory.PageInit

/-! # Runs of the scalable page allocator in all processes

Whoever makes a call, it takes the same page and writes the same bytes, and leaves the
pages of the blocks that it is not about. -/
namespace HermesShm.Memory.ScalablePageAllocator
open HermesShm.Base MpPage

/-- The page of a block is as it was. -/
def PageKept (m m' : ByteMem) (b : Block) : Prop :=
  ∀ x, b.off - mpPage ≤ x → x < b.off + capacity m b.off → m' x = m x

variable {s s' : State} {live : List Block} {b c : Block} {n p : Nat} {r : Except Error Nat}

theorem PageKept.capacity_eq {m m' : ByteMem} (h : PageKept m m' b) (hb : mpPage ≤ b.off) :
    capacity m' b.off = capacity m b.off := by
  unfold capacity
  rw [page_size_.get_congr fun x hx hx' => h x hx (by omega)]

theorem allocateOffset_keeps (hi : Inv s live) (hr : Request s n) (hn : NoWrap n)
    (ha : allocateOffset s n = some (r, s')) (hb : b ∈ live) : PageKept s.mem s'.mem b := by
  obtain ⟨r', s₁, he, ⟨e, rfl, -⟩ | ⟨q, rfl, hq⟩⟩ := allocateOffset_spec hi hr hn
  · cases ha.symm.trans he
    intro x _ _
    rw [allocateOffset_refused hi hr hn ha]
  · cases ha.symm.trans he
    have htaken := hq.taken
    obtain ⟨hi', len, at_, hbs⟩ := hi
    obtain ⟨hi₁, len₁, at₁, hbs₁⟩ := hq.inv
    rw [hq.buf] at hbs₁
    exact (hbs.taken_same (k := ()) (c := ⟨q, n⟩) hbs₁ htaken hb).2

theorem freeOffset_keeps (hi : Inv s live) (hb : b ∈ live)
    (hf : freeOffsetNoNullCheck s b.off = .ok s') (hc : c ∈ live) (hne : c.off ≠ b.off) :
    PageKept s.mem s'.mem c := by
  obtain ⟨s₁, he, -, -, hm⟩ := freeOffset_spec hi hb
  cases hf.symm.trans he
  obtain ⟨hi', len, at_, hbs⟩ := hi
  have hapart := hbs.apart hc hb hne
  have hbo := hbs.off_le b hb
  have hco := hbs.off_le c hc
  intro x hx hx'
  exact hm x (by omega)

theorem reallocateOffset_keeps (hi : Inv s live) (hb : b ∈ live) (hr : Request s n)
    (hn : NoWrap n) (hg : Grows s b.off n)
    (he : reallocateOffsetNoNullCheck s b.off n = some (r, s')) (hc : c ∈ live)
    (hne : c.off ≠ b.off) : PageKept s.mem s'.mem c := by
  obtain ⟨r', s₁, he', -, ⟨e, rfl, -, ha⟩ | ⟨q, s₁', rfl, -, -, hmoved⟩⟩ :=
    reallocateOffset_spec hi hb hr hn hg
  · cases he.symm.trans he'
    exact allocateOffset_keeps hi hr hn ha hc
  · cases he.symm.trans he'
    exact hmoved.others c hc hne

end HermesShm.Memory.ScalablePageAllocator

namespace HermesShm.Memory.InProcess.ScalablePageAllocator
open HermesShm.Base MpPage
open AllocatorRegistry (AllocatorId)
open Memory.ScalablePageAllocator (State Inv Guarded PageKept)

variable {id : AllocatorId} {custom size n base lock lock' head head' : Nat}
  {σ σ' outer : ByteMem} {live : List Block} {b : Block} {s s' : State} {c : Op} {o : Out}

/-- The calls that the allocator is fit for, told of the bytes. -/
def Ok (custom : Nat) (σ : ByteMem) (live : List Block) (c : Op) : Prop :=
  Guarded (state custom σ live) c

instance (σ : ByteMem) (live : List Block) (c : Op) : Decidable (Ok custom σ live c) :=
  inferInstanceAs (Decidable (Guarded (state custom σ live) c))

/-- A block of the state, in the bytes. -/
theorem Holds.capacity_eq (h : Holds id custom size outer s lock head σ) (hi : Inv s live)
    (hb : b ∈ live) : capacity σ b.off = capacity s.mem b.off := by
  have hlo := (h.block_inside hi hb).1
  unfold capacity
  rw [page_size_.get_congr (h.mem.sameOn (by omega))]

/-- A page that the state keeps is kept in the bytes. -/
theorem Holds.kept (h : Holds id custom size outer s lock head σ)
    (h' : Holds id custom size outer s' lock' head' σ') (hi : Inv s live) (hb : b ∈ live)
    (hk : PageKept s.mem s'.mem b) : PageKept σ σ' b := by
  have hlo := (h.block_inside hi hb).1
  intro x hx hx'
  rw [h.capacity_eq hi hb] at hx'
  have hxlo : pagesOff custom ≤ x := by omega
  rw [h'.mem x hxlo, hk x hx hx', h.mem x hxlo]

theorem effect (h : Holds id custom size outer s lock head σ)
    (h' : Holds id custom size outer s' lock' head' σ') (hi : Inv s live)
    (hkeep : ∀ b ∈ live, ¬ Ends c b → b ∈ record live c o ∧ PageKept s.mem s'.mem b)
    (hwrite : ∀ x byte, c ≠ .write x byte) : Effect σ live c o σ' := by
  refine ⟨fun b hb hc => ?_, fun x byte he => absurd he (hwrite x byte)⟩
  obtain ⟨hmem, hk⟩ := hkeep b hb hc
  have hlo := (h.block_inside hi hb).1
  have hk' := h.kept h' hi hb hk
  exact ⟨hmem, hk'.capacity_eq (by omega), fun x hx hx' _ => hk' x (by omega) hx'⟩

/-- What a call does, whoever makes it. -/
def Called (id : AllocatorId) (custom size : Nat) (σ : ByteMem) (live : List Block) (c : Op) :
    Prop :=
  ∃ o σ', Good id custom size σ' (record live c o) ∧ Effect σ live c o σ' ∧
    (∀ x, size ≤ x → σ' x = σ x) ∧
    ∀ (p : Mapping) t, Mappable size p.base → Registered id custom size p.base t →
      call (attached id custom size p.base) t (p.view size σ) c = some (o, p.view size σ')

theorem allocate_called (hg : Good id custom size σ live)
    (hok : Ok custom σ live (.allocate n)) :
    Called id custom size σ live (.allocate n) := by
  obtain ⟨hr, hn⟩ := hok
  have hi : Inv (state custom σ live) live := hg.inv
  obtain ⟨r, s', lock', σ', he, h', hcall⟩ := allocate_holds hg.holds hi hr hn
  obtain ⟨r', s₁, he', ⟨e, rfl, hi', -⟩ | ⟨q, rfl, ha⟩⟩ :=
    Memory.ScalablePageAllocator.allocateOffset_spec hi hr hn
  · cases he.symm.trans he'
    refine ⟨.error e, σ', h'.good hi', effect hg.holds h' hi (fun b hb _ => ⟨hb, ?_⟩) (by simp),
      h'.beyond, fun p t hm ht => ?_⟩
    · exact Memory.ScalablePageAllocator.allocateOffset_keeps hi hr hn he hb
    · simp only [call, hcall p t hm ht, Option.map_some]
  · cases he.symm.trans he'
    refine ⟨.offset q, σ', h'.good ha.inv, effect hg.holds h' hi
      (fun b hb _ => ⟨List.mem_cons_of_mem _ hb, ?_⟩) (by simp), h'.beyond, fun p t hm ht => ?_⟩
    · exact Memory.ScalablePageAllocator.allocateOffset_keeps hi hr hn he hb
    · simp only [call, hcall p t hm ht, Option.map_some]

theorem free_called (hg : Good id custom size σ live) (hsize : size < sizeT) {q : Nat}
    (hok : Ok custom σ live (.free q)) : Called id custom size σ live (.free q) := by
  obtain ⟨b, hb, rfl⟩ := hok
  have hi : Inv (state custom σ live) live := hg.inv
  obtain ⟨s', lock', σ', he, h', hcall⟩ := free_holds hg.holds hsize hi hb
  obtain ⟨s₁, he', -, hi', -⟩ := Memory.ScalablePageAllocator.freeOffset_spec hi hb
  cases he.symm.trans he'
  refine ⟨.done, σ', h'.good hi', effect hg.holds h' hi (fun c hc hne => ?_) (by simp), h'.beyond,
    fun p t hm ht => ?_⟩
  · have hcb : c.off ≠ b.off := fun h => hne h.symm
    exact ⟨List.mem_filter.mpr ⟨hc, by simpa using hcb⟩,
      Memory.ScalablePageAllocator.freeOffset_keeps hi hb he hc hcb⟩
  · simp only [call, hcall p t hm ht, Option.map_some]

theorem reallocate_called (hg : Good id custom size σ live) (hsize : size < sizeT) {q : Nat}
    (hok : Ok custom σ live (.reallocate q n)) :
    Called id custom size σ live (.reallocate q n) := by
  obtain ⟨⟨b, hb, rfl⟩, hr, hn, hgrow⟩ := hok
  have hi : Inv (state custom σ live) live := hg.inv
  obtain ⟨r, s', lock', σ', he, h', hcall⟩ := reallocate_holds hg.holds hsize hi hb hr hn hgrow
  have hkeeps {c : Block} (hc : c ∈ live) (hne : ¬ b.off = c.off) :=
    Memory.ScalablePageAllocator.reallocateOffset_keeps hi hb hr hn hgrow he hc (Ne.symm hne)
  obtain ⟨r', s₁, he', -, ⟨e, rfl, hi', -⟩ | ⟨q, -, rfl, hi', -⟩⟩ :=
    Memory.ScalablePageAllocator.reallocateOffset_spec hi hb hr hn hgrow
  · cases he.symm.trans he'
    refine ⟨.error e, σ', h'.good hi', effect hg.holds h' hi (fun c hc hne => ⟨hc, hkeeps hc hne⟩)
      (by simp), h'.beyond, fun p t hm ht => ?_⟩
    simp only [call, hcall p t hm ht, Option.map_some]
  · cases he.symm.trans he'
    refine ⟨.offset q, σ', h'.good hi', effect hg.holds h' hi (fun c hc hne => ⟨?_, hkeeps hc hne⟩)
      (by simp), h'.beyond, fun p t hm ht => ?_⟩
    · have hcb : c.off ≠ b.off := fun h => hne h.symm
      exact List.mem_cons_of_mem _ (List.mem_filter.mpr ⟨hc, by simpa using hcb⟩)
    · simp only [call, hcall p t hm ht, Option.map_some]

theorem write_called (hg : Good id custom size σ live) {x : Nat} {byte : UInt8}
    (hok : Ok custom σ live (.write x byte)) : Called id custom size σ live (.write x byte) := by
  obtain ⟨b, hb, hx, hx'⟩ := hok
  have hi : Inv (state custom σ live) live := hg.inv
  obtain ⟨hlo, hin⟩ := hg.holds.block_inside hi hb
  have h' := hg.holds.write (x := x) byte (by omega) (by omega)
  have hi' : Inv { state custom σ live with mem := Function.update σ x byte } live := by
    obtain ⟨hi', len, at_, hbs⟩ := hi
    exact ⟨hi', len, at_, hbs.write hb fun y hy => Function.update_of_ne (by omega) ..⟩
  refine ⟨.done, Function.update σ x byte, h'.good hi', ⟨fun c hc _ => ⟨hc, ?_, fun y _ _ hy =>
    Function.update_of_ne (fun h => hy h.symm) ..⟩, fun y v he => ?_⟩, h'.beyond,
    fun p t hm ht => ?_⟩
  · have hbs := hi
    obtain ⟨hi', len, at_, hbs⟩ := hbs
    unfold capacity
    refine congrArg (· - mpPage) (page_size_.get_congr fun y hy hy' => Function.update_of_ne ?_ ..)
    have hhdr := hbs.header_apart hb (hbs.page hc)
    omega
  · cases he
    exact Function.update_self ..
  · simp only [call, convert_attached hm (show x ≤ size by omega), Option.map_some,
      Mapping.update_view byte (show x < size by omega)]

/-- **The scalable page allocator is position independent**, where no reallocation
shrinks a block. -/
theorem independent (id : AllocatorId) (custom : Nat) (hsize : size < sizeT)
    (hid : id.sub.toIndex ≤ AllocatorRegistry.HSHM_MAX_ALLOCATORS) :
    Independent (scalableProgram id custom size) (Mappable size)
      (fun base t a => a = attached id custom size base ∧ Registered id custom size base t)
      (Good id custom size) (Ok custom) Effect where
  attach := fun σ g hg p t hm => by
    obtain ⟨t', he, ht'⟩ := shmDeserialize_eq hm hid hg.layout t
    exact ⟨_, t', he, rfl, ht'⟩
  call := fun σ live c hg hok => by
    have hcalled : Called id custom size σ live c := by
      cases c with
      | allocate n => exact allocate_called hg hok
      | free q => exact free_called hg hsize hok
      | reallocate q n => exact reallocate_called hg hsize hok
      | write x byte => exact write_called hg hok
    obtain ⟨o, σ', hg', heff, hend, hcall⟩ := hcalled
    refine ⟨o, σ', hg', heff, hend, fun p t a hm ha => ⟨p, rfl, ?_⟩⟩
    obtain ⟨rfl, ht⟩ := ha
    exact hcall p t hm ht

/-- What `shm_init` leaves in the buffer, whoever runs it. -/
theorem starts (id : AllocatorId) (σ : ByteMem) (hsize : size < sizeT)
    (hfit : pagesOff custom ≤ size)
    (hid : id.sub.toIndex ≤ AllocatorRegistry.HSHM_MAX_ALLOCATORS) :
    Starts (scalableProgram id custom size) (Mappable size)
      (fun base t a => a = attached id custom size base ∧ Registered id custom size base t)
      (Good id custom size) [] σ (initBytes id custom size σ) := by
  obtain ⟨hgood, hend⟩ := initBytes_good id σ hfit hsize
  refine ⟨hgood, hend, fun p t hm => ?_⟩
  obtain ⟨t', he, ht'⟩ := shmInit_view (σ := σ) hm hfit hid t
  exact ⟨_, t', he, rfl, ht'⟩

/-! ## Runs -/

section

variable {ι : Type} [DecidableEq ι] {procs : ι → Process Table ScalablePageAllocator} {i j k : ι}
  {x : Nat} {s t u v : System ι Table ScalablePageAllocator Out (List Block)}
  {as bs : List (Label ι Op)}

/-- What process `j` finds at an offset, at the address that the offset converts to. -/
def read (size : Nat) (s : System ι Table ScalablePageAllocator Out (List Block)) (j : ι)
    (x : Nat) : Option UInt8 := do
  let a ← (s.procs j).obj
  let ptr ← a.convert x
  some ((s.procs j).map.view size s.shared ptr)

instance (s : System ι Table ScalablePageAllocator Out (List Block)) (l : Label ι Op) :
    Decidable (Program.Ok (Ok custom) s l) :=
  match l with
  | .attach _ => .isTrue trivial
  | .call _ c => inferInstanceAs (Decidable (Ok custom s.shared s.ghost c))

/-- **One process can do it all.** However many processes share the buffer, wherever they
map it and whoever makes which call, the free lists, the heap and the counters serve them as
one process that makes all calls: the offsets returned, the errors and the bytes of the buffer
are the same. -/
theorem calls_of_one {q : Process Table ScalablePageAllocator} (hsize : size < sizeT)
    (hfit : pagesOff custom ≤ size)
    (hid : id.sub.toIndex ≤ AllocatorRegistry.HSHM_MAX_ALLOCATORS)
    (hun : Unattached (Mappable size) procs) (hq : Unattached (Mappable size) fun _ : Unit => q)
    (hs : (scalableProgram id custom size).start σ procs [] i = some s)
    (hr : Run (scalableProgram id custom size).step (Program.Ok (Ok custom)) s as t) :
    ∃ s' t', (scalableProgram id custom size).start σ (fun _ => q) [] () = some s' ∧
      exec (scalableProgram id custom size).step s' (as.filterMap Label.single) = some t' ∧
      t'.shared = t.shared ∧ t'.out = t.out :=
  (independent id custom hsize hid).run_start (starts id σ hsize hfit hid) hun hq hs hr

/-- A table with the root allocator only. -/
def rootTable : Table := .init ⟨⟨kStackAllocator, ⟨0, 0⟩, 0, 0, 0⟩, 0, 0⟩

/-- Two processes, with the buffer at bases of their own. -/
def twoBases (i : Fin 2) : Process Table ScalablePageAllocator :=
  { map := ⟨if i = ⟨0, Nat.zero_lt_two⟩ then 1000 else 50000, fun _ => 0⟩, tab := rootTable }

theorem twoBases_unattached : Unattached (Mappable 4096) twoBases :=
  fun i => ⟨by revert i; decide, rfl⟩

/-- The first process gets the page that the second one has freed; the buffer has no room for
the last call. -/
def reuse : List (Label (Fin 2) Op) :=
  [.call ⟨0, Nat.zero_lt_two⟩ (.allocate 100), .attach ⟨1, Nat.one_lt_two⟩,
    .call ⟨1, Nat.one_lt_two⟩ (.allocate 120), .call ⟨1, Nat.one_lt_two⟩ (.free 688),
    .call ⟨0, Nat.zero_lt_two⟩ (.allocate 90), .call ⟨0, Nat.zero_lt_two⟩ (.reallocate 848 5000)]

theorem calls_of_one_twoBases : ∃ s' t' : System Unit Table ScalablePageAllocator Out (List Block),
    (scalableProgram ⟨1, 0⟩ 8 4096).start (fun _ => 7) (fun _ => twoBases 1) [] () = some s' ∧
      exec (scalableProgram ⟨1, 0⟩ 8 4096).step s' (reuse.filterMap Label.single) = some t' ∧
      t'.out = [.offset 688, .offset 848, .done, .offset 688, .error (.outOfMemory 5000 320)] := by
  have hrun : (((scalableProgram ⟨1, 0⟩ 8 4096).start (fun _ => 7) twoBases [] 0).bind fun s =>
      (execOk (scalableProgram ⟨1, 0⟩ 8 4096).step (Program.Ok (Ok 8)) s reuse).map (·.out)) =
      some [.offset 688, .offset 848, .done, .offset 688, .error (.outOfMemory 5000 320)] := by
    decide +kernel
  obtain ⟨s, hs, hrun⟩ := Option.bind_eq_some_iff.mp hrun
  obtain ⟨t, ht, hout⟩ := Option.map_eq_some_iff.mp hrun
  obtain ⟨s', t', hs', ht', -, hres⟩ := calls_of_one (q := twoBases 1) (by decide) (by decide)
    (by decide) twoBases_unattached (fun _ => twoBases_unattached 1) hs (run_of_execOk ht)
  exact ⟨s', t', hs', ht', hres.trans hout⟩

/-- **What one process writes, all read.** A byte that process `k` stores to a block in
use is what every attached process finds at its own address of that byte, until a call ends
the block or stores to that byte again. -/
theorem read_everywhere (hsize : size < sizeT) (hfit : pagesOff custom ≤ size)
    (hid : id.sub.toIndex ≤ AllocatorRegistry.HSHM_MAX_ALLOCATORS)
    (hun : Unattached (Mappable size) procs)
    (hs : (scalableProgram id custom size).start σ procs [] i = some s)
    (hr : Run (scalableProgram id custom size).step (Program.Ok (Ok custom)) s as t)
    (hb : b ∈ t.ghost) (hx : b.off ≤ x) (hx' : x < b.off + b.size) {byte : UInt8}
    (hw : (scalableProgram id custom size).step t (.call k (.write x byte)) = some u)
    (hr' : Run (scalableProgram id custom size).step
      (fun s l => Program.Ok (Ok custom) s l ∧ Leaves b x l) u bs v)
    (hj : (v.procs j).obj.isSome) : read size v j x = some byte := by
  have h := independent id custom hsize hid
  obtain ⟨hsound, hg⟩ := h.sound_start (starts id σ hsize hfit hid) hun hs hr
  have hi : Inv (state custom t.shared t.ghost) t.ghost := hg.inv
  have hfits : b.size ≤ capacity t.shared b.off := by
    obtain ⟨hi', len, at_, hbs⟩ := hi
    exact (hbs.inside hb).2.2
  obtain ⟨hsoundv, hgv, hbyte⟩ :=
    hasByte_run rfl h hsound hg ⟨b, hb, hx, Nat.lt_of_lt_of_le hx' (Nat.add_le_add_left hfits _)⟩
      hb hx (Nat.lt_of_lt_of_le hx' (Nat.add_le_add_left hfits _)) hw hr'
  have hv : Inv (state custom v.shared v.ghost) v.ghost := hgv.inv
  obtain ⟨hlo, hin⟩ := hgv.holds.block_inside hv hbyte.live
  have hhi : x < b.off + capacity v.shared b.off := hbyte.hi
  have hxs : x < size := Nat.lt_of_lt_of_le hhi hin
  obtain ⟨a, ha⟩ := Option.isSome_iff_exists.mp hj
  obtain ⟨hm, hat⟩ := hsoundv j
  have hconv : a.convert x = some ((v.procs j).map.base + x) := by
    rw [(hat a ha).1]
    exact convert_attached hm (Nat.le_of_lt hxs)
  rw [read, ha]
  simp only [Option.bind_eq_bind, Option.bind_some, hconv, Mapping.view_apply hxs, hbyte.byte]

theorem read_everywhere_twoBases :
    ∃ v : System (Fin 2) Table ScalablePageAllocator Out (List Block),
      v.ghost = [⟨848, 100⟩, ⟨688, 100⟩] ∧ read 4096 v 0 690 = some 9 := by
  have hrun : (((scalableProgram ⟨1, 0⟩ 8 4096).start (fun _ => 7) twoBases [] 0).bind fun s =>
      (execOk (scalableProgram ⟨1, 0⟩ 8 4096).step (Program.Ok (Ok 8)) s
          [.attach 1, .call 0 (.allocate 100), .call 1 (.allocate 120)]).bind fun t =>
        ((scalableProgram ⟨1, 0⟩ 8 4096).step t (.call 1 (.write 690 9))).bind fun u =>
          (execOk (scalableProgram ⟨1, 0⟩ 8 4096).step
              (fun s l => Program.Ok (Ok 8) s l ∧ Leaves ⟨688, 100⟩ 690 l) u
              [.call 1 (.free 848), .call 0 (.allocate 100)]).map fun v =>
            (t.ghost, v.ghost, (v.procs 0).obj.isSome)) =
      some ([⟨848, 120⟩, ⟨688, 100⟩], [⟨848, 100⟩, ⟨688, 100⟩], true) := by decide +kernel
  obtain ⟨s, hs, hrun⟩ := Option.bind_eq_some_iff.mp hrun
  obtain ⟨t, ht, hrun⟩ := Option.bind_eq_some_iff.mp hrun
  obtain ⟨u, hu, hrun⟩ := Option.bind_eq_some_iff.mp hrun
  obtain ⟨v, hv, heq⟩ := Option.map_eq_some_iff.mp hrun
  simp only [Prod.mk.injEq] at heq
  obtain ⟨htb, hvb, hat⟩ := heq
  exact ⟨v, hvb, read_everywhere (b := ⟨688, 100⟩) (by decide) (by decide) (by decide)
    twoBases_unattached hs (run_of_execOk ht) (by rw [htb]; decide) (by decide) (by decide) hu
    (run_of_execOk hv) hat⟩

end

end HermesShm.Memory.InProcess.ScalablePageAllocator
