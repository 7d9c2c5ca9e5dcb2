import HermesShm.Memory.PosixShmMmapShared
import Mathlib.Algebra.BigOperators.Group.Finset.Basic
import Mathlib.Data.Set.Card
import Mathlib.Order.Interval.Finset.Nat

/-! # The life of a backend

What an attached backend reads stays, whatever the others do, until someone stores to it;
`shm_deserialize` finds what `shm_init` made; and detaching leaves pages behind. -/
namespace HermesShm.Memory.PosixShmMmap
open HermesShm.Base

variable {ι N κ : Type} [DecidableEq ι] [DecidableEq N] [DecidableEq κ] {G : Paging}
  {home : κ → ι} {K K' : System ι N κ} {i : ι} {o p : κ} {b b' : Backend N} {a : Act N}
  {out : Outcome} {d e f k n size w x : Nat} {url : N} {tag : Tag κ} {st : Nat → Stage κ}
  {s₀ s t u v r : State ι N κ} {l : κ × Act N} {ls ms ns : List (κ × Act N)}

/-! ## Data stay -/

def Act.Ends : Act N → Prop
  | .shmDetach | .shmDestroy | .destruct => True
  | _ => False

/-- The step neither ends backend `o` nor stores to its byte at `x`. -/
def Keeps (o : κ) (x : Nat) (s : State ι N κ) (l : κ × Act N) : Prop :=
  (l.1 = o → ¬ l.2.Ends) ∧ ¬ Stores s (s.backends o).object (hdr_size_ + x) l

theorem Inv.keeps_backend (h : Inv G home s st) (hok : Ok G home s l)
    (hs : PosixShmMmap.step G home s l = some t) (hready : (s.backends o).Ready)
    (hends : l.1 = o → ¬ l.2.Ends) : t.backends o = s.backends o := by
  obtain ⟨p, a⟩ := l
  obtain ⟨⟨K', b'⟩, ha, rfl⟩ := Option.map_eq_some_iff.mp hs
  obtain rfl | hne := eq_or_ne o p
  · have hheader : (s.backends o).header_ ≠ 0 := ((h.each o).data hready.2.1 hready.2.2).header
    dsimp only
    rw [Function.update_self]
    cases a with
    | proceed out =>
      simp only [PosixShmMmap.act, PosixShmMmap.proceed, hready.1] at ha
      cases ha
    | shmInit id size url => exact absurd hok.1 hheader
    | shmDeserialize url fd => exact absurd hok.1 hheader
    | shmDetach | shmDestroy | destruct => exact absurd trivial (hends rfl)
    | store y byte =>
      simp only [PosixShmMmap.act, if_pos hready.1] at ha
      obtain ⟨K₁, -, heq⟩ := Option.map_eq_some_iff.mp ha
      cases heq
      rfl
    | setHasAlloc =>
      simp only [PosixShmMmap.act, if_pos hready.1] at ha
      obtain ⟨flags, -, ha⟩ := Option.bind_eq_some_iff.mp ha
      obtain ⟨K₁, -, heq⟩ := Option.bind_eq_some_iff.mp ha
      cases heq
      rfl
  · exact Function.update_of_ne hne ..

/-- **What is attached stays.** As long as a backend is not detached itself, each byte that
it reads is the byte that was last stored there: others may detach, its owner may destroy
it, and its name may be given to a new object. -/
theorem kept_of_run (hG : G.count * G.bytes + hdr_size_ < sizeT) (hi : Initial s₀)
    (hr : Run (step G home) (Ok G home) s₀ ls s) (hready : (s.backends o).Ready)
    (hx : x < (s.backends o).data_size_)
    (hr' : Run (step G home) (fun s l => Ok G home s l ∧ Keeps o x s l) s ms t) :
    t.backends o = s.backends o ∧
      t.kernel.load G (home o) ((t.backends o).data_ + x) =
        s.kernel.load G (home o) ((s.backends o).data_ + x) := by
  obtain ⟨st, h⟩ := run_inv hi hr
  have hinv : (∃ st, Inv G home t st) ∧ t.backends o = s.backends o ∧
      (t.kernel.objects (s.backends o).object).bytes (hdr_size_ + x) =
        (s.kernel.objects (s.backends o).object).bytes (hdr_size_ + x) := by
    refine hr'.invariant (I := fun t => (∃ st, Inv G home t st) ∧ t.backends o = s.backends o ∧
      (t.kernel.objects (s.backends o).object).bytes (hdr_size_ + x) =
        (s.kernel.objects (s.backends o).object).bytes (hdr_size_ + x)) ⟨⟨st, h⟩, rfl, rfl⟩ ?_
    intro t l u ⟨⟨st, h⟩, hback, hbyte⟩ ⟨hok, hends, hno⟩ hs
    obtain ⟨st', h', -⟩ := h.step hok hs
    rw [← hback] at hready
    have hdata := (h.each o).data hready.2.1 hready.2.2
    refine ⟨⟨st', h'⟩, (h.keeps_backend hok hs hready hends).trans hback, ?_⟩
    rw [← hback] at hbyte ⊢
    refine ((h.spares hok hs).1 _ _ _ ((h.each o).header hdata.header).object hdata.formatted
      (Nat.le_add_right ..) hno).trans hbyte
  obtain ⟨⟨st', h'⟩, hback, hbyte⟩ := hinv
  refine ⟨hback, ?_⟩
  rw [h.load hG hready hx, h'.load hG (hback ▸ hready) (hback ▸ hx), hback, hbyte]

/-! ## Names -/

def Act.Proceeds : Act N → Prop
  | .proceed _ => True
  | _ => False

omit [DecidableEq κ] in
/-- `shm_init` gives the name to the object that it makes. -/
theorem Inv.names_created {id : Nat} (h : Inv G home s st)
    (hpc : (s.backends o).pc = .unlinked id size url)
    (ha : PosixShmMmap.proceed G (home o) o s.kernel (s.backends o) (.number d) =
      some (K', b')) :
    b'.pc = .created id size url ∧ K'.names url = some b'.object := by
  have hname := (h.unlinked o url (by rw [hpc]; rfl)).1
  simp only [PosixShmMmap.proceed, hpc, create_eq hname] at ha
  obtain ⟨K₁, hK, heq⟩ := Option.bind_eq_some_iff.mp ha
  cases heq
  obtain ⟨-, hn, -⟩ := openFd_eq hK
  exact ⟨rfl, by rw [hn]; exact Function.update_self ..⟩

/-- Where a call of `shm_deserialize` may be. -/
def Pc.Attaching : Pc N → Prop
  | .opened | .headerFound | .sizeRead | .idle => True
  | _ => False

omit [DecidableEq κ] in
theorem proceed_attaching (hpc : b.pc.Attaching)
    (ha : proceed G i o K b out = some (K', b')) : b'.pc.Attaching ∧ b'.object = b.object := by
  unfold proceed at ha
  split at ha
  case h_1 heq | h_2 heq | h_3 heq | h_4 heq | h_5 heq | h_6 heq | h_7 heq | h_8 heq | h_9 heq =>
    rw [heq] at hpc
    exact hpc.elim
  case h_11 | h_14 => cases ha; exact ⟨trivial, rfl⟩
  case h_15 => cases ha
  all_goals
    obtain ⟨_, -, heq⟩ := Option.bind_eq_some_iff.mp ha
    cases heq
    exact ⟨trivial, rfl⟩

omit [DecidableEq ι] [DecidableEq N] [DecidableEq κ] in
theorem Inv.tagged_iff (h : Inv G home s st) :
    s.kernel.tables i w = some (.shm f k tag) ↔
      home tag.owner = i ∧ Tagged G (s.backends tag.owner) w f k tag := by
  refine ⟨h.tags i w f k tag, fun ⟨hi, ht⟩ => ?_⟩
  subst hi
  cases tag with
  | header o =>
    obtain ⟨rfl, hh, hlo, hhi, rfl, hl⟩ := ht
    exact ((h.each o).header hh).pages w hlo hhi hl
  | data o =>
    obtain ⟨rfl, hi, hd, hlo, hhi, rfl⟩ := ht
    exact ((h.each o).data hi hd).pages w hlo hhi

/-- The pages of shared objects that process `i` has, and no backend of it knows of. -/
def Left (s : State ι N κ) (i : ι) (w : Nat) : Prop :=
  ∃ f k tag, s.kernel.tables i w = some (.shm f k tag) ∧
    (s.backends tag.owner).initialized = false

/-- The backend was attached, and was detached since. -/
def Gone (home : κ → ι) (s : State ι N κ) (i : ι) (o : κ) : Prop :=
  home o = i ∧ (s.backends o).initialized = false ∧ (s.backends o).header_ ≠ 0

instance : Decidable (Gone home s i o) :=
  inferInstanceAs (Decidable (_ ∧ _ ∧ _))

omit [DecidableEq ι] [DecidableEq N] [DecidableEq κ] in
theorem Inv.left_iff (h : Inv G home s st) :
    Left s i w ↔ ∃ o, Gone home s i o ∧ w ∈ Finset.Ioo ((s.backends o).header_ / G.bytes)
      ((s.backends o).header_ / G.bytes + G.pagesOf hdr_size_) := by
  constructor
  · intro ⟨f, k, tag, hw, hi⟩
    obtain ⟨hhome, ht⟩ := h.tags i w f k tag hw
    cases tag with
    | header o =>
      obtain ⟨-, hh, hlo, hhi, -, hl⟩ := ht
      have hne := hl.resolve_left (by rw [hi]; simp)
      exact ⟨o, ⟨hhome, hi, hh⟩, Finset.mem_Ioo.mpr ⟨Nat.lt_of_le_of_ne hlo hne.symm, hhi⟩⟩
    | data o => exact absurd ht.2.1 (by rw [hi]; simp)
  · intro ⟨o, ⟨hhome, hi, hh⟩, hw⟩
    obtain ⟨hlo, hhi⟩ := Finset.mem_Ioo.mp hw
    have hpage := ((h.each o).header hh).pages w (Nat.le_of_lt hlo) hhi (.inr (Nat.ne_of_gt hlo))
    rw [hhome] at hpage
    exact ⟨_, _, _, hpage, hi⟩

/-- **What detaching leaves behind.** A process has exactly the pages that its backends know
of and, for each backend that it has detached or destroyed, all pages of the header but the
first: none if a page is as large as the header, three if it has 4096 bytes. -/
theorem left_of_run [Fintype κ] (hi : Initial s₀)
    (hr : Run (step G home) (Ok G home) s₀ ls s) (i : ι) :
    (∀ w f k tag, s.kernel.tables i w = some (.shm f k tag) ↔
      home tag.owner = i ∧ Tagged G (s.backends tag.owner) w f k tag) ∧
    Set.ncard { w | Left s i w } =
      (Finset.univ.filter (Gone home s i)).card * (G.pagesOf hdr_size_ - 1) := by
  obtain ⟨st, h⟩ := run_inv hi hr
  refine ⟨fun w f k tag => h.tagged_iff, ?_⟩
  have hset : { w | Left s i w } = ↑((Finset.univ.filter (Gone home s i)).biUnion fun o =>
      Finset.Ioo ((s.backends o).header_ / G.bytes)
        ((s.backends o).header_ / G.bytes + G.pagesOf hdr_size_)) := by
    ext w
    simp only [Set.mem_ofPred_eq, h.left_iff, Finset.coe_biUnion, Set.mem_iUnion, Finset.mem_coe,
      Finset.mem_filter, Finset.mem_univ, true_and, exists_prop]
  rw [hset, Set.ncard_coe_finset, Finset.card_biUnion]
  · rw [Finset.sum_const_nat (m := G.pagesOf hdr_size_ - 1)]
    intro o _
    rw [Nat.card_Ioo, Nat.add_sub_cancel_left]
  · intro o ho p hp hne
    refine Finset.disjoint_left.mpr fun w hw hw' => hne ?_
    -- one page would have the tags of both
    have hpage : ∀ q, Gone home s i q → w ∈ Finset.Ioo ((s.backends q).header_ / G.bytes)
        ((s.backends q).header_ / G.bytes + G.pagesOf hdr_size_) → ∃ f k,
        s.kernel.tables i w = some (.shm f k (.header q)) := by
      intro q ⟨hhome, _, hh⟩ hq
      obtain ⟨hlo, hhi⟩ := Finset.mem_Ioo.mp hq
      have hpage := ((h.each q).header hh).pages w (Nat.le_of_lt hlo) hhi
        (.inr (Nat.ne_of_gt hlo))
      rw [hhome] at hpage
      exact ⟨_, _, hpage⟩
    obtain ⟨f, k, hf⟩ := hpage o (Finset.mem_filter.mp ho).2 hw
    obtain ⟨g, m, hg⟩ := hpage p (Finset.mem_filter.mp hp).2 hw'
    rw [hf] at hg
    cases hg
    rfl

/-! ## Two processes -/

instance (a : Act N) : Decidable a.Ends :=
  match a with
  | .shmDetach | .shmDestroy | .destruct => .isTrue trivial
  | .shmInit .. | .shmDeserialize .. | .proceed _ | .store .. | .setHasAlloc =>
    .isFalse fun h => h

instance (a : Act N) : Decidable a.Proceeds :=
  match a with
  | .proceed _ => .isTrue trivial
  | .shmInit .. | .shmDeserialize .. | .shmDetach | .shmDestroy | .destruct | .store ..
  | .setHasAlloc => .isFalse fun h => h

instance (s : State ι N κ) (f x : Nat) (l : κ × Act N) : Decidable (Stores s f x l) :=
  match l with
  | (_, .store ..) => inferInstanceAs (Decidable (_ ∧ _))
  | (_, .shmInit ..) | (_, .shmDeserialize ..) | (_, .proceed _) | (_, .shmDetach)
  | (_, .shmDestroy) | (_, .destruct) | (_, .setHasAlloc) => .isFalse fun h => h

instance (s : State ι N κ) (url : N) (l : κ × Act N) : Decidable (Removes s url l) :=
  match l with
  | (_, .shmInit _ _ v) => inferInstanceAs (Decidable (v = url))
  | (o, .shmDestroy) | (o, .destruct) => inferInstanceAs (Decidable ((s.backends o).url_ = url))
  | (_, .shmDeserialize ..) | (_, .proceed _) | (_, .shmDetach) | (_, .store ..)
  | (_, .setHasAlloc) => .isFalse fun h => h

instance (o : κ) (x : Nat) (s : State ι N κ) (l : κ × Act N) : Decidable (Keeps o x s l) :=
  inferInstanceAs (Decidable (_ ∧ _))

/-- 64 pages of 4096 bytes. -/
def smallPages : Paging := ⟨4096, 64, Nat.succ_pos 4095⟩

/-- Two processes with a backend each, before any call. -/
def fresh : State (Fin 2) Nat (Fin 2) where
  kernel := { names := fun _ => none, objects := fun _ => ⟨0, fun _ => 0⟩, count := 0
              tables := fun _ _ => none, fds := fun _ _ => none }
  backends := fun _ => { initialized := false, owned := false, header_ := 0, data_ := 0
                         data_size_ := 5, fd_ := none, url_ := 9, pc := .idle, object := 0 }

theorem fresh_initial : Initial fresh :=
  ⟨fun _ => rfl, rfl, fun _ => rfl, fun _ _ _ h => (by cases h),
    fun _ => ⟨rfl, rfl, rfl, rfl⟩⟩

/-- Process 0 makes 100 bytes under the name 7. -/
def making : List (Fin 2 × Act Nat) :=
  [.proceed .done, .proceed (.number 2), .proceed .done, .proceed (.number 10)].map
    (⟨0, Nat.zero_lt_two⟩, ·)

/-- Process 1 attaches to them, and process 0 stores to one. -/
def attaching : List (Fin 2 × Act Nat) :=
  (⟨0, Nat.zero_lt_two⟩, .store 5 9) ::
    [.proceed (.number 20), .proceed .done, .proceed (.number 30)].map (⟨1, Nat.one_lt_two⟩, ·)

def bothReady : List (Fin 2 × Act Nat) :=
  [(⟨0, Nat.zero_lt_two⟩, .shmInit 1 100 7), (⟨0, Nat.zero_lt_two⟩, .proceed (.number 3))] ++
    making ++ [(⟨1, Nat.one_lt_two⟩, .shmDeserialize 7 (some 4))] ++ attaching

/-- The owner destroys the object and is gone; the other process still reads. -/
theorem kept_of_run_bothReady : ∃ t : State (Fin 2) Nat (Fin 2), t.kernel.names 7 = none ∧
    t.kernel.load smallPages 1 ((t.backends 1).data_ + 5) = some 9 := by
  have hrun : ((execOk (step smallPages id) (Ok smallPages id) fresh bothReady).bind fun s =>
      (execOk (step smallPages id) (fun s l => Ok smallPages id s l ∧ Keeps 1 5 s l) s
          [(0, .shmDestroy), (0, .destruct)]).map fun t =>
        (decide (s.backends 1).Ready, decide (5 < (s.backends 1).data_size_),
          s.kernel.load smallPages 1 ((s.backends 1).data_ + 5), t.kernel.names 7)) =
      some (true, true, some 9, none) := by decide +kernel
  obtain ⟨s, hs, hrun⟩ := Option.bind_eq_some_iff.mp hrun
  obtain ⟨t, ht, heq⟩ := Option.map_eq_some_iff.mp hrun
  simp only [Prod.mk.injEq, decide_eq_true_eq] at heq
  obtain ⟨hready, hx, hload, hname⟩ := heq
  have hkept := kept_of_run (by decide) fresh_initial (run_of_execOk hs) hready hx
    (run_of_execOk ht)
  exact ⟨t, hname, hkept.2.trans hload⟩

theorem left_of_run_bothReady : ∃ s : State (Fin 2) Nat (Fin 2),
    Set.ncard { w | Left s 0 w } = 3 ∧ Set.ncard { w | Left s 1 w } = 0 := by
  have hrun : ((execOk (step smallPages id) (Ok smallPages id) fresh
      (bothReady ++ [(0, .shmDestroy)])).map fun s =>
        ((Finset.univ.filter (Gone id s 0)).card, (Finset.univ.filter (Gone id s 1)).card)) =
      some (1, 0) := by decide +kernel
  obtain ⟨s, hs, heq⟩ := Option.map_eq_some_iff.mp hrun
  obtain ⟨h0, h1⟩ := Prod.mk.inj heq
  have hleft := fun i => (left_of_run fresh_initial (run_of_execOk hs) i).2
  exact ⟨s, by rw [hleft, h0]; decide, by rw [hleft, h1]; decide⟩

end HermesShm.Memory.PosixShmMmap
