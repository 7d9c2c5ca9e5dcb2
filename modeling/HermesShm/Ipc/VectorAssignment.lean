import HermesShm.Ipc.VectorLifetimeSound
import Mathlib.Data.Finset.Union

/-! # Assignment of vectors

Elements are seen as values. An element may read its value from blocks that are not its
own, as a string that wraps does; the value is lost when such a block is given back. -/
namespace HermesShm.Ipc.VectorLifetime
open HermesShm.Base HermesShm.Ipc.Lifetime

variable {ε α ν : Type}

/-- What is seen of an element. A copy has the same value, which it may read from other
blocks than the original. -/
structure Values {T : ElemType ε α} (O : Ownership T) (ν : Type) where
  val : ε → ν
  /-- The blocks of others that the value is read from. -/
  refs : ε → Finset Block
  /-- Those that a copy of an object in the given block is read from. -/
  lends : Option Block → ε → Finset Block
  refs_lends : ∀ a at_ e, O.Ok a e → refs e ⊆ lends at_ e
  pod_lends : T.pod = true → ∀ at_ e, lends at_ e = ∅
  copy_val : ∀ l a at_ a' e, O.Ok a' e → val (T.copy l a at_ e).1 = val e
  copy_refs : ∀ l a at_ a' e, O.Ok a' e → refs (T.copy l a at_ e).1 = lends at_ e
  copy_gives : ∀ (l : Heap) a at_ a' e, O.Ok a' e → l.Gives 0 (T.copy l a at_ e).2
  destroy_gives : ∀ (l : Heap) a e, O.Ok a e → l.Gives (O.owns e) (T.destroy l e).2

/-- Plain values are seen as they are. -/
def Values.plain (pod : Bool) (raw : Nat → Nat → ν) (zero : ν) :
    Values (ElemType.plainOwnership pod raw zero) ν where
  val := id
  refs _ := ∅
  lends _ _ := ∅
  refs_lends _ _ _ _ := subset_rfl
  pod_lends _ _ _ := rfl
  copy_val _ _ _ _ _ _ := rfl
  copy_refs _ _ _ _ _ _ := rfl
  copy_gives l _ _ _ _ _ := Ledger.Gives.refl l
  destroy_gives l _ _ _ := Ledger.Gives.refl l

variable {P : Placement} {T : ElemType ε α} {O : Ownership T} {l : Heap} {v other : Vec ε}
  {slots : Nat → ε} {at_ : Option Block} {a a' n pos : Nat} {F : Multiset Block} {b : Block}

namespace Vec

section
variable (V : Values O ν)

def values (v : Vec ε) : List ν := (List.range v.length_).map fun i => V.val (v.slots i)

def refs (v : Vec ε) : Finset Block :=
  (Finset.range v.length_).biUnion fun i => V.refs (v.slots i)

/-- The elements of a copy are copies of objects in the array. -/
def lends (v : Vec ε) : Finset Block :=
  (Finset.range v.length_).biUnion fun i => V.lends v.block (v.slots i)

end

variable {V : Values O ν}

theorem values_congr {w : Vec ε} (hn : w.length_ = v.length_)
    (hs : ∀ i, i < v.length_ → V.val (w.slots i) = V.val (v.slots i)) :
    w.values V = v.values V := by
  rw [values, values, hn]
  exact List.map_congr_left fun i hi => hs i (List.mem_range.mp hi)

theorem length_of_values {w : Vec ε} (h : w.values V = v.values V) : w.length_ = v.length_ := by
  simpa [values] using congrArg List.length h

theorem refs_subset_lends (h : v.Ok O a) : v.refs V ⊆ v.lends V := by
  intro b hb
  obtain ⟨i, hi, hbi⟩ := Finset.mem_biUnion.mp hb
  exact Finset.mem_biUnion.mpr
    ⟨i, hi, V.refs_lends a v.block _ (h.elems i (Finset.mem_range.mp hi)) hbi⟩

theorem lends_pod (hp : T.pod = true) : v.lends V = ∅ := by
  ext b
  simp [lends, V.pod_lends hp]

/-! ## What is given back -/

theorem destroyEach_gives (V : Values O ν) (hok : ∀ i, i < n → O.Ok a (slots (pos + i))) :
    l.Gives (elemOwns O (fun i => slots (pos + i)) n) (destroyEach T l slots pos n).2 := by
  induction n with
  | zero => exact Ledger.Gives.refl l
  | succ n ih =>
    have hd := V.destroy_gives (destroyEach T l slots pos n).2 a _ (hok n (by omega))
    rw [elemOwns_succ]
    simp only [destroyEach]
    rw [destroyEach_other (by omega)]
    exact (ih fun i hi => hok i (by omega)).trans hd

theorem clear_gives (V : Values O ν) (hok : v.Ok O a) :
    l.Gives (elemOwns O v.slots v.length_) (clear T l v).2 := by
  simp only [clear, eraseRange, min_self, Nat.sub_zero]
  by_cases hn : v.length_ = 0
  · rw [if_pos (by omega), hn]
    exact Ledger.Gives.refl l
  · rw [if_neg (by omega), if_neg hn]
    have hd : l.Gives (elemOwns O (fun i => v.slots (0 + i)) v.length_)
        (destroyEach T l v.slots 0 v.length_).2 :=
      destroyEach_gives V fun i hi => by
        rw [zero_add]
        exact hok.elems i hi
    simp only [zero_add] at hd
    exact hd

/-- **Destruction** gives back what the vector owns, and nothing else. -/
theorem shmDestroy_gives (V : Values O ν) (hok : v.Ok O a) :
    l.Gives (v.owns O) (shmDestroy T l v).2 := by
  unfold shmDestroy isNull
  cases hv : v.vec_ptr_ with
  | none => exact (Ledger.Gives.refl l).congr (hok.owns_of_null hv).symm
  | some off =>
    simp only [Option.isNone_some, Bool.false_eq_true, if_false, shmDestroyMain, hv]
    refine ((clear_gives V hok).trans (free_gives _ _ _)).congr ?_
    rw [owns, arrayOwns, hv, add_comm]

/-! ## Copies into an empty vector -/

theorem newArray_gives (h : T.pod = true ∨ v.length_ = 0) :
    ∃ m ≤ v.arrayOwns, l.Gives m (newArray P T l v).2 := by
  have hnew := allocate_gives P l v.alloc
  unfold newArray arrayOwns
  by_cases hp : T.pod = true
  · rw [if_pos hp]
    cases v.vec_ptr_ with
    | none => exact ⟨0, le_rfl, hnew⟩
    | some off => exact reallocate_gives P l v.alloc off
  · rw [if_neg hp]
    simp only [h.resolve_left hp, moveEach]
    cases v.vec_ptr_ with
    | none => exact ⟨0, le_rfl, hnew⟩
    | some off => exact ⟨_, le_rfl, (hnew.trans (free_gives _ _ _)).congr (zero_add _)⟩

/-- At most the old array is given back for a larger one. -/
theorem reserve_gives (h : T.pod = true ∨ v.length_ = 0) :
    ∃ m ≤ v.arrayOwns, l.Gives m (reserve P T l v n).2 := by
  unfold reserve growVector
  split
  · exact ⟨0, Multiset.zero_le _, Ledger.Gives.refl l⟩
  · dsimp only
    split
    · exact ⟨0, Multiset.zero_le _, Ledger.Gives.refl l⟩
    · exact newArray_gives h

/-- The first `n` objects of an array, which is in the given block, are copied into an
empty vector with the space for them. -/
structure Filled (V : Values O ν) (at_ : Option Block) (slots : Nat → ε) (n : Nat) (l : Heap)
    (v : Vec ε) (r : Vec ε × Heap) : Prop where
  length_eq : r.1.length_ = n
  max_eq : r.1.max_length_ = v.max_length_
  val : ∀ i, i < n → V.val (r.1.slots i) = V.val (slots i)
  refs : ∀ i, i < n → V.refs (r.1.slots i) = V.lends at_ (slots i)
  gives : l.Gives 0 r.2

theorem copyEach_fills (V : Values O ν) (h0 : v.length_ = 0) (hn : n ≤ v.max_length_)
    (hok : ∀ i, i < n → O.Ok a' (slots i)) :
    Filled V at_ slots n l v (copyEach P T l v at_ slots n) := by
  induction n with
  | zero => exact ⟨h0, rfl, nofun, nofun, Ledger.Gives.refl l⟩
  | succ n ih =>
    have hf := ih (by omega) fun i hi => hok i (by omega)
    have hn' := hok n (by omega)
    simp only [copyEach]
    generalize copyEach P T l v at_ slots n = r at hf
    have hroom : ¬ r.1.length_ = r.1.max_length_ := by
      rw [hf.length_eq, hf.max_eq]
      omega
    simp only [emplaceBack, hroom, if_false, ElemType.make]
    rw [hf.length_eq]
    refine ⟨rfl, hf.max_eq, fun i hi => ?_, fun i hi => ?_,
      hf.gives.trans (V.copy_gives r.2 r.1.alloc at_ a' _ hn')⟩
    · dsimp only
      by_cases hin : i = n
      · subst hin
        rw [Function.update_self]
        exact V.copy_val r.2 r.1.alloc at_ a' _ hn'
      · rw [Function.update_of_ne hin]
        exact hf.val i (by omega)
    · dsimp only
      by_cases hin : i = n
      · subst hin
        rw [Function.update_self]
        exact V.copy_refs r.2 r.1.alloc at_ a' _ hn'
      · rw [Function.update_of_ne hin]
        exact hf.refs i (by omega)

/-- The vector has copies of all that the other has. -/
structure Copies (V : Values O ν) (l : Heap) (v other : Vec ε) (r : Vec ε × Heap) : Prop where
  values : r.1.values V = other.values V
  refs : r.1.refs V = other.lends V
  gives : ∃ m ≤ v.arrayOwns, l.Gives m r.2

theorem strongCopyMain_copies (V : Values O ν) (hok : other.Ok O a')
    (h : T.pod = true ∨ v.length_ = 0) :
    Copies V l v other (strongCopyMain P T l v other) := by
  obtain ⟨m, hm, hgives⟩ := reserve_gives (P := P) (l := l) (n := other.length_) h
  unfold strongCopyMain
  dsimp only
  by_cases hp : T.pod = true
  · rw [if_pos hp]
    have hslots : ∀ i, i < other.length_ →
        (if i < other.length_ then other.slots i
          else (reserve P T l v other.length_).1.slots i) = other.slots i := fun i hi => if_pos hi
    refine ⟨values_congr rfl fun i hi => congrArg V.val (hslots i hi), ?_, m, hm, hgives⟩
    rw [lends_pod hp, ← Finset.subset_empty, ← lends_pod (V := V) (v := other) hp]
    refine subset_trans (subset_of_eq ?_) (refs_subset_lends hok)
    exact Finset.biUnion_congr rfl fun i hi => by
      exact congrArg V.refs (hslots i (Finset.mem_range.mp hi))
  · rw [if_neg hp]
    have hempty : (reserve P T l v other.length_).1.length_ = 0 :=
      reserve_length.trans (h.resolve_left hp)
    have hroom : other.length_ ≤ (reserve P T l v other.length_).1.max_length_ := reserve_le
    have hf : Filled V other.block other.slots other.length_ (reserve P T l v other.length_).2
        (reserve P T l v other.length_).1 (copyEach P T (reserve P T l v other.length_).2
          (reserve P T l v other.length_).1 other.block other.slots other.length_) :=
      copyEach_fills V hempty hroom hok.elems
    refine ⟨values_congr hf.length_eq hf.val, ?_, m, hm, ?_⟩
    · exact Finset.biUnion_congr (congrArg _ hf.length_eq) fun i hi => by
        rw [hf.length_eq] at hi
        exact hf.refs i (Finset.mem_range.mp hi)
    · exact (hgives.trans hf.gives).congr (add_zero m)

/-- A copy into a vector without an array gives back nothing. -/
theorem strongCopyMain_gives (V : Values O ν) (hok : other.Ok O a') (h0 : v.length_ = 0)
    (hnull : v.vec_ptr_ = none) : l.Gives 0 (strongCopyMain P T l v other).2 := by
  obtain ⟨m, hm, hgives⟩ := (strongCopyMain_copies (P := P) (l := l) V hok (.inr h0)).gives
  rw [arrayOwns, hnull] at hm
  exact hgives.congr (Multiset.le_zero.mp hm)

/-! ## Assignment -/

/-- Two vectors with all that they own, beside the blocks of others. -/
structure Apart (O : Ownership T) (l : Heap) (v other : Vec ε) (F : Multiset Block) : Prop where
  target : v.Ok O v.alloc
  source : other.Ok O other.alloc
  holds : l.Holds (v.owns O + (other.owns O + F))

/-- What the values are read from is there: the vector's own blocks are allocated, and
those of others were not given back. -/
structure There (V : Values O ν) (l l' : Heap) (w : Vec ε) : Prop where
  own : ∀ b ∈ w.owns O, b ∈ l'.live
  refs : ∀ b ∈ w.refs V, ¬ Ledger.Freed l l' b

/-- Both vectors have the elements of the source, which is what it was. -/
structure Copied (V : Values O ν) (l : Heap) (other : Vec ε) (r : Vec ε × Heap) : Prop where
  values : r.1.values V = other.values V
  target : There V l r.2 r.1
  source : There V l r.2 other

/-- **Copy assignment** of vectors replaces the value exactly where the copies do not read
it from blocks of the target. -/
theorem copyAssign_iff (V : Values O ν) (h : Apart O l v other F) :
    Copied V l other (copyAssign P T l v other) ↔ ¬ ∃ b ∈ other.lends V, b ∈ v.owns O := by
  obtain ⟨-, -, hnull, hempty⟩ := shmDestroy_holds h.target h.holds
  obtain ⟨hl, -⟩ := copyAssign_holds (P := P) h.target h.source h.holds
  have hc : Copies V (shmDestroy T l v).2 (shmDestroy T l v).1 other (copyAssign P T l v other) :=
    strongCopyMain_copies V h.source (.inr hempty)
  have hgives : l.Gives (v.owns O) (copyAssign P T l v other).2 :=
    ((shmDestroy_gives V h.target).trans
      (strongCopyMain_gives V h.source hempty hnull)).congr (add_zero _)
  constructor
  · rintro hco ⟨b, hb, hown⟩
    exact hco.target.refs b (hc.refs ▸ hb) (hgives.freed_iff.mpr hown)
  · intro hnot
    have hkept : ∀ b ∈ other.lends V, ¬ Ledger.Freed l (copyAssign P T l v other).2 b :=
      fun b hb hf => hnot ⟨b, hb, hgives.freed_iff.mp hf⟩
    refine ⟨hc.values, ⟨fun b hb => ?_, fun b hb => hkept b (hc.refs ▸ hb)⟩,
      ⟨fun b hb => ?_, fun b hb => hkept b (refs_subset_lends h.source hb)⟩⟩
    · exact hl.mem_live.mpr (Multiset.mem_add.mpr (.inl hb))
    · exact hl.mem_live.mpr (Multiset.mem_add.mpr (.inr (Multiset.mem_add.mpr (.inl hb))))

/-- The target has the elements of the source, which is empty. Between two allocators the
old array of the target, where it is not given back, is written over. -/
structure Replaced (V : Values O ν) (l : Heap) (v other : Vec ε) (r : Vec ε × Vec ε × Heap) :
    Prop where
  values : r.1.values V = other.values V
  source : r.2.1.length_ = 0
  target : There V l r.2.2 r.1
  array : v.alloc ≠ other.alloc → ∀ b ∈ r.1.refs V, b ∉ v.arrayOwns

/-- Elements that are not plain bytes go behind those of a target of another allocator. -/
def Appends (T : ElemType ε α) (v other : Vec ε) : Prop :=
  T.pod = false ∧ v.alloc ≠ other.alloc ∧ v.length_ ≠ 0

/-- Copies that a move between two allocators makes are read from the source, which it
destroys, or from the array of the target. -/
def Dangles (V : Values O ν) (v other : Vec ε) : Prop :=
  v.alloc ≠ other.alloc ∧ ∃ b ∈ other.lends V, b ∈ other.owns O + v.arrayOwns

/-- With one allocator the header is copied, and nothing is given back. -/
theorem moveOp_same_replaced (V : Values O ν) (h : Apart O l v other F)
    (ha : v.alloc = other.alloc) : Replaced V l v other (moveOp P T l v other) := by
  unfold moveOp
  rw [if_pos ha]
  refine ⟨rfl, rfl, ⟨fun b hb => ?_, fun b _ => lt_irrefl _⟩, fun hne => absurd ha hne⟩
  exact h.holds.mem_live.mpr (Multiset.mem_add.mpr (.inr (Multiset.mem_add.mpr (.inl hb))))

/-- With two allocators an empty target gets copies, and the source is destroyed. -/
theorem moveOp_apart_iff (V : Values O ν) (h : Apart O l v other F)
    (ha : v.alloc ≠ other.alloc) (h0 : T.pod = true ∨ v.length_ = 0) :
    Replaced V l v other (moveOp P T l v other) ↔ ¬ Dangles V v other := by
  have hl := (moveOp_apart_holds (P := P) h.target ha h.source (h0.imp_right .inl) h.holds).holds
  have hc : Copies V l v other (strongCopyMain P T l v other) :=
    strongCopyMain_copies V h.source h0
  obtain ⟨hlc, -⟩ := strongCopyMain_holds (P := P) h.target h.source (h0.imp_right .inl) h.holds
  obtain ⟨-, -, -, hempty⟩ := shmDestroy_holds h.source (hlc.congr (add_left_comm _ _ _))
  unfold moveOp at hl ⊢
  rw [if_neg ha] at hl ⊢
  obtain ⟨m, hm, hgives⟩ := hc.gives
  have hfreed : ∀ b, Ledger.Freed l (shmDestroy T (strongCopyMain P T l v other).2 other).2 b ↔
      b ∈ m + other.owns O :=
    fun b => (hgives.trans (shmDestroy_gives V h.source)).freed_iff
  constructor
  · rintro hr ⟨-, b, hb, hmem⟩
    rcases Multiset.mem_add.mp hmem with hown | harray
    · exact hr.target.refs b (hc.refs ▸ hb) ((hfreed b).mpr (Multiset.mem_add.mpr (.inr hown)))
    · exact hr.array ha b (hc.refs ▸ hb) harray
  · intro hnot
    have hkept : ∀ b ∈ other.lends V, b ∉ other.owns O + v.arrayOwns :=
      fun b hb hmem => hnot ⟨ha, b, hb, hmem⟩
    refine ⟨hc.values, hempty, ⟨fun b hb => ?_, fun b hb hf => ?_⟩, fun _ b hb hmem => ?_⟩
    · exact hl.mem_live.mpr (Multiset.mem_add.mpr (.inl hb))
    · refine hkept b (hc.refs ▸ hb) ?_
      rcases Multiset.mem_add.mp ((hfreed b).mp hf) with harray | hown
      · exact Multiset.mem_add.mpr (.inr (Multiset.mem_of_le hm harray))
      · exact Multiset.mem_add.mpr (.inl hown)
    · exact hkept b (hc.refs ▸ hb) (Multiset.mem_add.mpr (.inr hmem))

/-- **Move assignment** of vectors replaces the value exactly where it neither appends nor
leaves elements that read what it takes away. -/
theorem moveAssign_iff (V : Values O ν) (h : Apart O l v other F) :
    Replaced V l v other (moveOp P T l v other) ↔
      ¬ Appends T v other ∧ ¬ Dangles V v other := by
  by_cases ha : v.alloc = other.alloc
  · exact iff_of_true (moveOp_same_replaced V h ha)
      ⟨fun happ => happ.2.1 ha, fun hd => hd.1 ha⟩
  · by_cases h0 : T.pod = true ∨ v.length_ = 0
    · rw [moveOp_apart_iff V h ha h0, iff_and_self]
      rintro - ⟨hp, -, hn⟩
      rcases h0 with hp' | hn'
      · exact absurd (hp.symm.trans hp') (by simp)
      · exact hn hn'
    · obtain ⟨hp, hn⟩ := not_or.mp h0
      have happ : Appends T v other := ⟨by simpa using hp, ha, hn⟩
      refine iff_of_false (fun hr => hn ?_) fun hnot => hnot.1 happ
      have hlen := length_of_values hr.values
      simp only [moveOp, ha, if_false, strongCopyMain_length other hp] at hlen
      omega

/-! ## Vectors as elements -/

/-- A vector is seen as the list of its elements. A copy of it is read from what its
elements lend. -/
def elemValues (V : Values O ν) (raw : Nat → Nat → Vec ε) :
    Values (ownership P O raw) (List ν) where
  val v := v.values V
  refs v := v.refs V
  lends _ v := v.lends V
  refs_lends _ _ _ h := refs_subset_lends h
  pod_lends h := by cases h
  copy_val _ _ _ _ _ h := (strongCopyMain_copies V h (.inr rfl)).values
  copy_refs _ _ _ _ _ h := (strongCopyMain_copies V h (.inr rfl)).refs
  copy_gives _ _ _ _ _ h := strongCopyMain_gives V h rfl rfl
  destroy_gives _ _ _ h := shmDestroy_gives V h

end Vec

end HermesShm.Ipc.VectorLifetime
