import HermesShm.Ipc.ContainersSound
import HermesShm.Ipc.StringAssignment
import HermesShm.Ipc.VectorAssignment

/-! # Assignment replaces the value

What vectors and strings have in them after a copy assignment and after a move
assignment, inside one allocator and between two. -/
namespace HermesShm.Ipc.HipcString
open HermesShm.Base HermesShm.Ipc.Lifetime HermesShm.Ipc.VectorLifetime

/-! ## The characters of strings in a vector -/

def CharPtr.blocks (p : CharPtr) : Finset Block :=
  match p.region with
  | .block b => {b}
  | .other _ | .sso _ => ∅

variable {P : Placement} {c : StringClass} {raw : Nat → Nat → Str}
  {data : Option Block → Str → CharPtr} {l : Heap} {s : Str} {a n i : Nat} {p : CharPtr}
  {at_ : Option Block}

namespace Str

/-- A string that wraps reads its characters there. -/
def refs (s : Str) : Finset Block :=
  match s.text with
  | .data p => if s.is_wrap_ ∧ s.length_ ≠ 0 then p.blocks else ∅
  | .null | .text _ => ∅

/-- A copy of a class that wraps reads the characters where the original does. -/
def lends (c : StringClass) (data : Option Block → Str → CharPtr) (at_ : Option Block) (s : Str) :
    Finset Block :=
  if c.kWrap ∧ s.length_ ≠ 0 then (data at_ s).blocks else ∅

theorem refs_lends (hd : IsData c data) (hok : s.Ok c) : s.refs ⊆ s.lends c data at_ := by
  unfold refs lends
  cases ht : s.text with
  | null => exact Finset.empty_subset _
  | text off => exact Finset.empty_subset _
  | data p =>
    by_cases hs : s.is_wrap_ = true ∧ s.length_ ≠ 0
    · have hc := (hok.wrap hs.1).1
      rw [if_pos ⟨hc, hs.2⟩, hd.wrap at_ s p hc hs.1 ht]
      simp [hs]
    · simp [hs]

theorem copyOp_refs :
    (copyOp P c l s a p n).1.refs = if c.kWrap ∧ n ≠ 0 then p.blocks else ∅ := by
  unfold copyOp
  by_cases hc : c.kWrap = true
  · simp [hc, refs, wrap]
  · have hw := createStr_wrap (P := P) (c := c) (l := l) (n := n)
      (s := { s with is_wrap_ := false, alloc := a })
    simp only [hc, Bool.false_eq_true, if_false, false_and, refs, hw]
    split <;> rfl

theorem copyOp_gives : l.Gives 0 (copyOp P c l s a p n).2 := by
  unfold copyOp createStr
  split
  · exact Ledger.Gives.refl l
  · dsimp only
    split
    · exact Ledger.Gives.refl l
    · exact allocate_gives P l a

theorem shmDestroy_gives (hok : s.Ok c) : l.Gives (s.owns c) (shmDestroy c l s).2 := by
  unfold shmDestroy isNull
  by_cases hn : s.length_ = 0
  · rw [owns_of_not_isHeap (not_isHeap_of_length hn)]
    simpa [hn] using Ledger.Gives.refl l
  · simp only [hn, decide_false, Bool.false_eq_true, if_false, shmDestroyMain]
    by_cases hh : s.isHeap c
    · obtain ⟨-, off, ht⟩ := hok.heap hh
      rw [if_pos ((destroys_iff hok hn).mpr hh), ht, owns_text hh ht]
      exact free_gives l s.alloc off
    · rw [if_neg (mt (destroys_iff hok hn).mp hh), owns_of_not_isHeap hh]
      exact Ledger.Gives.refl l

end Str

/-- A string with its characters is seen as these. -/
def textValues (P : Placement) (raw : Nat → Nat → Str) (hd : IsData c data) :
    Values ((ownership P c raw data).carrying ([] : List UInt8)) (List UInt8) where
  val e := e.2
  refs e := e.1.refs
  lends at_ e := e.1.lends c data at_
  refs_lends _ _ _ hok := Str.refs_lends hd hok.2
  pod_lends h := by cases h
  copy_val _ _ _ _ _ _ := rfl
  copy_refs _ _ _ _ _ _ := Str.copyOp_refs
  copy_gives _ _ _ _ _ _ := Str.copyOp_gives
  destroy_gives _ _ _ hok := Str.shmDestroy_gives hok.2

/-- A vector of a class that wraps lends the characters that one of its strings has of its
own. -/
theorem lends_own (hd : IsData c data) {v : Vec (Str × List UInt8)} (hc : c.kWrap = true)
    (hok : v.Ok ((ownership P c raw data).carrying []) a) (hi : i < v.length_)
    (hw : (v.slots i).1.is_wrap_ = false) (hn : (v.slots i).1.length_ ≠ 0) :
    ∃ b ∈ v.lends (textValues P raw hd), b ∈ v.owns ((ownership P c raw data).carrying []) := by
  have hlends : ∀ b, (data v.block (v.slots i).1).region = .block b →
      b ∈ v.lends (textValues P raw hd) := by
    intro b hb
    refine Finset.mem_biUnion.mpr ⟨i, Finset.mem_range.mpr hi, ?_⟩
    simp [textValues, Str.lends, hc, hn, CharPtr.blocks, hb]
  by_cases hsso : (v.slots i).1.length_ ≤ c.SSO
  · cases hv : v.vec_ptr_ with
    | none => exact absurd hi (by rw [hok.length_of_null hv]; omega)
    | some off =>
      have hb : v.block = some (v.alloc, off) := by simp [Vec.block, hv]
      refine ⟨(v.alloc, off), hlends _ (hb ▸ hd.inline _ _ hw hsso), ?_⟩
      simp [Vec.owns, Vec.arrayOwns, hv]
  · have hh : (v.slots i).1.isHeap c := ⟨hw, not_le.mp hsso⟩
    obtain ⟨-, off, ht⟩ := (hok.elems i hi).2.heap hh
    refine ⟨_, hlends _ (hd.heap _ _ off hh ht), Multiset.mem_add.mpr (.inr ?_)⟩
    refine Multiset.mem_sum.mpr ⟨i, Finset.mem_range.mpr hi, ?_⟩
    show _ ∈ (v.slots i).1.owns c
    rw [Str.owns_text hh ht]
    exact Multiset.mem_singleton_self _

/-- **Between two allocators** no move replaces the value by strings that wrap, where the
source has characters of its own. -/
theorem not_replaced_of_own (hd : IsData c data) {v other : Vec (Str × List UInt8)}
    {F : Multiset Block} (hc : c.kWrap = true) (ha : v.alloc ≠ other.alloc)
    (h : Vec.Apart ((ownership P c raw data).carrying []) l v other F) (hi : i < other.length_)
    (hw : (other.slots i).1.is_wrap_ = false) (hn : (other.slots i).1.length_ ≠ 0) :
    ¬ Vec.Replaced (textValues P raw hd) l v other
      (Vec.moveOp P ((elemType P c raw data).carrying []) l v other) := by
  obtain ⟨b, hb, hown⟩ := lends_own hd hc h.source hi hw hn
  rw [Vec.moveAssign_iff (textValues P raw hd) h]
  exact fun hnot => hnot.2 ⟨ha, b, hb, Multiset.mem_add.mpr (.inl hown)⟩

end HermesShm.Ipc.HipcString

namespace HermesShm.Ipc.Containers
open HermesShm.Base HermesShm.Ipc.Lifetime HermesShm.Ipc.HipcString HermesShm.Ipc.StringMemory
  HermesShm.Ipc.VectorLifetime HermesShm.Ipc.RingLifetime

/-- Two strings among containers that own what is allocated may be assigned. -/
theorem Sound.apart {ε α ι : Type} [DecidableEq ι] [Fintype ι] {C : RingClass ε α}
    {O : Ownership C.T} {σ : State ι ε} {i j : ι} {m : Store} {t s : Nat} (h : Sound O σ)
    (hij : i ≠ j) (hi : σ.objects i = some (.string (m.cls t) (m.strs t)))
    (hj : σ.objects j = some (.string (m.cls s) (m.strs s))) (hm : m.heap = σ.heap)
    (hne : t ≠ s) : m.Apart t s (rest O σ.objects {i, j}) where
  ne := hne
  target := h.ok i _ hi
  source := h.ok j _ hj
  holds := by
    rw [hm]
    exact (h.frame hi).congr (by rw [rest_split hij, hj]; rfl)

theorem Sound.apart_vectors {ε α ι : Type} [DecidableEq ι] [Fintype ι] {C : RingClass ε α}
    {O : Ownership C.T} {σ : State ι ε} {i j : ι} {v other : Vec ε} (h : Sound O σ)
    (hij : i ≠ j) (hi : σ.objects i = some (.vector v)) (hj : σ.objects j = some (.vector other)) :
    Vec.Apart O σ.heap v other (rest O σ.objects {i, j}) where
  target := h.ok i _ hi
  source := h.ok j _ hj
  holds := (h.frame hi).congr (by rw [rest_split hij, hj]; rfl)

end HermesShm.Ipc.Containers

namespace HermesShm.Ipc.Assignment
open HermesShm.Base HermesShm.Ipc.Lifetime HermesShm.Ipc.HipcString HermesShm.Ipc.VectorLifetime
  HermesShm.Ipc.StringMemory HermesShm.Ipc.StringMemory.Store

/-- **Assignment replaces the value** exactly where no copy reads what the target gives
back or overwrites, a moved block is looked for in its own allocator, and a moved vector
is neither put behind the elements of another nor read from what the move takes away. -/
theorem replaces_iff {ε α ν : Type} (P : Placement) (T : ElemType ε α) (O : Ownership T)
    (V : Values O ν) :
    (∀ (σ : Store) (t s : Nat) (F : Multiset Block) (bs : List UInt8), σ.Apart t s F →
      σ.contents s = bs.map some →
      (Copied σ (σ.copyAssign P t s) t s bs ↔ ¬ σ.Disturbs t s) ∧
      (σ.cls t = σ.cls s →
        (Store.Moved (σ.moveAssign P t s) t s bs ↔ ¬ σ.Misreads t s))) ∧
    ∀ (l : Heap) (v other : Vec ε) (F : Multiset Block), Vec.Apart O l v other F →
      (Vec.Copied V l other (Vec.copyAssign P T l v other) ↔
        ¬ ∃ b ∈ other.lends V, b ∈ v.owns O) ∧
      (Vec.Replaced V l v other (Vec.moveOp P T l v other) ↔
        ¬ Vec.Appends T v other ∧ ¬ Vec.Dangles V v other) := by
  refine ⟨fun σ t s F bs h hsrc => ⟨copyAssign_iff h hsrc, fun hcls => moveAssign_iff h hcls hsrc⟩,
    fun l v other F h => ⟨Vec.copyAssign_iff V h, Vec.moveAssign_iff V h⟩⟩

/-- An inline string of allocator 0, and 40 sevens in a block of allocator 1. -/
def letters : Store where
  heap := { live := [(1, 0)], calls := 1 }
  cls _ := string
  strs i := if i = 0 then ⟨0, 2, 31, .null, false⟩ else ⟨1, 40, 40, .text 0, false⟩
  mem r _ := if r = .block (1, 0) then some 7 else some 1

theorem letters_apart : letters.Apart 0 1 0 where
  ne := by decide
  target := ⟨nofun, fun h => absurd h (by decide), fun _ _ _ => by decide⟩
  source := ⟨nofun, fun _ => ⟨by decide, 0, rfl⟩, fun _ h => absurd h (by decide)⟩
  holds := ⟨by decide, by decide, rfl⟩

/-- Where a string in a block has its characters, when that is the only one in it. -/
def dataIn (c : StringClass) (at_ : Option Block) (s : Str) : CharPtr :=
  if c.kWrap ∧ s.is_wrap_ then
    match s.text with
    | .data p => p
    | .null | .text _ => ⟨.other 0, 0⟩
  else if s.length_ ≤ c.SSO then
    match at_ with
    | some b => ⟨.block b, 0⟩
    | none => ⟨.other 0, 0⟩
  else
    match s.text with
    | .text off => ⟨.block (s.alloc, off), 0⟩
    | .null | .data _ => ⟨.other 0, 0⟩

theorem isData_dataIn (c : StringClass) : IsData c (dataIn c) where
  wrap _ _ _ hc hw ht := by simp [dataIn, hc, hw, ht]
  inline _ _ hw hn := by simp [dataIn, hw, hn]
  heap _ _ _ hh ht := by simp [dataIn, hh.1, not_le.mpr hh.2, ht]

def nullStr : Str := ⟨0, 0, 31, .null, false⟩

/-- Elements of a vector: strings of a class, with their characters. -/
abbrev texts (c : StringClass) : ElemType (Str × List UInt8) (StrArgs × List UInt8) :=
  (elemType Placement.upward c (fun _ _ => nullStr) (dataIn c)).carrying []

abbrev textsOwnership (c : StringClass) : Ownership (texts c) :=
  (ownership Placement.upward c (fun _ _ => nullStr) (dataIn c)).carrying []

abbrev textsValues (c : StringClass) : Values (textsOwnership c) (List UInt8) :=
  textValues Placement.upward (fun _ _ => nullStr) (isData_dataIn c)

/-- Short strings in a vector, whose array is at 0. -/
def words (a : Nat) (ws : List (List UInt8)) : Vec (Str × List UInt8) :=
  ⟨a, if ws = [] then none else some 0, ws.length, ws.length,
    fun i => (⟨a, (ws.getD i []).length, 31, .null, false⟩, ws.getD i [])⟩

theorem words_ok {c : StringClass} {a : Nat} {ws : List (List UInt8)} (hc : 31 ≤ c.SSO)
    (h : ∀ i, (ws.getD i []).length ≤ 31) : (words a ws).Ok (textsOwnership c) a where
  alloc_eq := rfl
  null hv := by
    by_cases hn : ws = []
    · simp [words, hn]
    · simp [words, hn] at hv
  length_le := le_rfl
  elems i _ := by
    refine ⟨rfl, nofun, fun hh => ?_, fun _ _ _ => hc⟩
    exact absurd hh.2 (not_lt.mpr ((h i).trans hc))

theorem replaces_iff_letters :
    Copied letters (letters.copyAssign Placement.upward 0 1) 0 1 (List.replicate 40 7) ∧
    Store.Moved (letters.moveAssign Placement.upward 0 1) 0 1 (List.replicate 40 7) ∧
    Vec.Copied (textsValues string) { live := [(0, 0), (1, 0)] } (words 1 [[3]])
      (Vec.copyAssign Placement.upward (texts string) { live := [(0, 0), (1, 0)] }
        (words 0 [[1], [2, 2]]) (words 1 [[3]])) ∧
    Vec.Replaced (textsValues string) { live := [(1, 0)] } (words 0 []) (words 1 [[3]])
      (Vec.moveOp Placement.upward (texts string) { live := [(1, 0)] } (words 0 [])
        (words 1 [[3]])) := by
  have h := replaces_iff Placement.upward (texts string) (textsOwnership string)
    (textsValues string)
  obtain ⟨hcopy, hmove⟩ := h.1 letters 0 1 0 (List.replicate 40 7) letters_apart (by decide)
  have hthree : (words 1 [[3]]).Ok (textsOwnership string) 1 :=
    words_ok le_rfl fun i => by cases i <;> simp
  have hcopies := (h.2 { live := [(0, 0), (1, 0)] } (words 0 [[1], [2, 2]]) (words 1 [[3]]) 0
    ⟨words_ok le_rfl fun i => by rcases i with _ | _ | i <;> simp, hthree,
      ⟨by decide, by decide, rfl⟩⟩).1
  have hmoves := (h.2 { live := [(1, 0)] } (words 0 []) (words 1 [[3]]) 0
    ⟨words_ok le_rfl fun i => by simp, hthree, ⟨by decide, by decide, rfl⟩⟩).2
  refine ⟨hcopy.mpr ?_, (hmove rfl).mpr fun hm => absurd hm.1 (by decide), hcopies.mpr (by decide),
    hmoves.mpr ⟨fun ha => ha.2.2 rfl, ?_⟩⟩
  · rintro ⟨p, hp, -, hcase⟩
    cases hp
    rcases hcase with ⟨b, hb, -⟩ | ⟨-, hle, -⟩
    · exact absurd hb (Multiset.notMem_zero b)
    · exact absurd hle (by decide)
  · rintro ⟨-, b, hb, -⟩
    revert b
    decide

/-- A wrapped string of allocator 0, 40 sevens in a block of allocator 1, and a block of
others at the same offset of allocator 0. -/
def foreign : Store where
  heap := { live := [(0, 0), (1, 0)], calls := 2 }
  cls _ := charwrap
  strs i := if i = 0 then ⟨0, 3, 3, .data ⟨.other 0, 0⟩, true⟩ else ⟨1, 40, 40, .text 0, false⟩
  mem r _ := if r = .block (1, 0) then some 7 else some 9

/-- Strings that wrap the array of another vector. -/
def wrapped : Vec (Str × List UInt8) :=
  ⟨1, some 0, 1, 1, fun _ => (⟨1, 1, 1, .data ⟨.block (0, 0), 0⟩, true⟩, [1])⟩

/-- A move between two allocators appends to a vector, leaves strings that wrap without the
characters of the source, and lets a string that wraps read those of somebody else. A copy
may read what the target gave back. -/
theorem moved_between_allocators :
    (Vec.moveOp Placement.upward (texts string) { live := [(0, 0), (1, 0)] }
      (words 0 [[1], [2, 2]]) (words 1 [[3]])).1.values (textsValues string) =
      [[1], [2, 2], [3]] ∧
    (let r := Vec.moveOp Placement.upward (texts charwrap) { live := [(1, 0)] } (words 0 [])
      (words 1 [[3]])
    (1, 0) ∈ r.1.refs (textsValues charwrap) ∧ (1, 0) ∈ r.2.2.given) ∧
    (let r := Vec.copyAssign Placement.upward (texts charwrap) { live := [(0, 0), (1, 0)] }
      (words 0 [[1]]) wrapped
    (0, 0) ∈ r.1.refs (textsValues charwrap) ∧ (0, 0) ∈ r.2.given) ∧
    foreign.contents 1 = List.replicate 40 (some 7) ∧
    (foreign.moveAssign Placement.upward 0 1).contents 0 = List.replicate 40 (some 9) := by
  decide +kernel

end HermesShm.Ipc.Assignment
