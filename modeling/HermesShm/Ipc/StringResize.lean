import HermesShm.Base.Transition
import HermesShm.Ipc.StringAssignment

/-! # `string_templ::resize`

A string is inline, wraps memory or has a block, and a resize takes it from one form
to another. Blocks have the lengths they were asked for with. -/
namespace HermesShm.Ipc.StringMemory
open HermesShm.Base HermesShm.Ipc.Lifetime HermesShm.Ipc.HipcString

structure Sized extends Store where
  /-- The length of each block; no operation but `Reallocate` reads it. -/
  size : Block → Nat

/-- Character `k` of a string, through `data()`. -/
def Store.char (σ : Store) (i k : Nat) : Option UInt8 :=
  (σ.data i).bind fun p => σ.view p.region (p.off + k)

namespace Sized

def setStr (z : Sized) (i : Nat) (s : Str) : Sized := { z with toStore := z.toStore.setStr i s }

section
variable (P : Placement)

/-- `_create_str(length)`. -/
def createStr (z : Sized) (i length : Nat) : Sized where
  toStore := z.act i fun l s => Str.createStr P (z.cls i) l s length
  size :=
    if length ≤ (z.cls i).SSO then z.size
    else Function.update z.size ((z.strs i).alloc, (allocate P z.heap (z.strs i).alloc).1) length

/-- `_create_str(text, orig_length, new_length)`. -/
def createStrFrom (z : Sized) (i : Nat) (text : Option CharPtr) (orig_length new_length : Nat) :
    Sized :=
  let z := createStr P z i new_length
  match text with
  | some text => { z with
      toStore := z.memcpy (z.data i) text
        (if orig_length < new_length then orig_length else new_length) }
  | none => z

/-- `Reallocate` of `text_`. It keeps the bytes that are in both blocks. -/
def reallocateText (z : Sized) (i new_size : Nat) : Sized :=
  let s := z.strs i
  let new := (s.alloc, (Str.reallocateText P z.heap s.alloc s.text).1)
  let σ := z.act i fun l s =>
    let r := Str.reallocateText P l s.alloc s.text
    ({ s with text := .text r.1 }, r.2)
  let bytes : Nat → Option UInt8 := match s.text with
    | .text off => fun k =>
      if k < min (z.size (s.alloc, off)) new_size then z.view (.block (s.alloc, off)) k else none
    | .null | .data _ => fun _ => none
  { toStore := { σ with mem := Function.update σ.mem (.block new) bytes }
    size := Function.update z.size new new_size }

/-- `Free` of a pointer that was `text_`. -/
def freeText (z : Sized) (i : Nat) (text : Text) : Sized :=
  { z with toStore := z.act i fun l s => (s, Str.freeText l s.alloc text) }

def resize (z : Sized) (i new_size : Nat) : Sized :=
  let s := z.strs i
  let c := z.cls i
  if s.isNull then createStr P z i new_size
  else
    let orig_length := s.length_
    let orig_data := z.data i
    let orig_text := s.text
    let z := z.setStr i (s.setLength new_size)
    if c.kWrap ∧ s.is_wrap_ then
      if new_size < s.max_length_ then z else createStrFrom P z i orig_data orig_length new_size
    else if orig_length ≤ c.SSO then
      if new_size ≤ c.SSO then z else createStrFrom P z i orig_data orig_length new_size
    else if new_size > orig_length then
      let z := reallocateText P z i new_size
      z.setStr i { z.strs i with max_length_ := new_size }
    else if new_size ≤ c.SSO then
      (createStrFrom P z i orig_data orig_length new_size).freeText i orig_text
    else z

/-- `operator[]`, to store a character. -/
def write (z : Sized) (i k : Nat) (byte : UInt8) : Sized :=
  match z.data i with
  | some p => { z with
      mem := RegionMem.blit z.mem p.region (p.off + k) 1 fun _ => some byte }
  | none => z

/-- The constructors, in bytes that hold anything. The characters are those of a
`const char *`, a `std::string` or another string, by its `data()`. -/
inductive Ctor
  | default (a : Nat)
  | length (a n : Nat)
  | text (a : Nat) (text : CharPtr) (n : Nat)
  | move (a other : Nat)

def construct (z : Sized) (i : Nat) : Ctor → Sized
  | .default a => z.setStr i (Str.init (z.strs i) a)
  | .length a n => createStr P (z.setStr i { z.strs i with alloc := a }) i n
  | .text a text n =>
    if (z.cls i).kWrap then z.setStr i (Str.wrap { z.strs i with alloc := a } text n)
    else createStrFrom P (z.setStr i { z.strs i with is_wrap_ := false, alloc := a }) i text n n
  | .move a other =>
    let z := z.setStr i { z.strs i with alloc := a }
    if (z.strs i).is_wrap_ ∨ (z.strs i).alloc = (z.strs other).alloc then
      let z := { z with toStore := z.moveCopy i other }
      z.setStr other (z.strs other).setNull
    else
      let n := (z.strs other).length_
      let z := createStrFrom P z i (z.data other) n n
      { z with toStore := z.shmDestroy other }

inductive Op
  | resize (new_size : Nat)
  | write (k : Nat) (byte : UInt8)

def step (i : Nat) (z : Sized) : Op → Option Sized
  | .resize new_size => some (resize P z i new_size)
  | .write k byte => some (write z i k byte)

end

/-- The characters written are characters of the string. -/
def Legal (i : Nat) (z : Sized) : Op → Prop
  | .resize _ => True
  | .write k _ => k < (z.strs i).length_

end Sized

/-! ## What holds of a string -/

/-- A string has as much memory as it says: `room` is the length of what a pointer
points to. -/
structure Stored (room : CharPtr → Nat) (size : Block → Nat) (c : StringClass) (s : Str) :
    Prop where
  ok : s.Ok c
  wrap_room : ∀ p, s.is_wrap_ = true → s.text = .data p →
    s.length_ ≤ s.max_length_ ∧ s.max_length_ ≤ room p
  heap_size : ∀ off, s.isHeap c → s.text = .text off → s.max_length_ ≤ size (s.alloc, off)

/-- What is allocated is the block of the string, if it has one, and those of others. -/
structure Owned (room : CharPtr → Nat) (z : Sized) (i : Nat) (F : Multiset Block) : Prop where
  stored : Stored room z.size (z.cls i) (z.strs i)
  holds : z.heap.Holds ((z.strs i).owns (z.cls i) + F)

/-- `data()` points to memory of the string, or that it wraps, for `n` characters. -/
def Storage (room : CharPtr → Nat) (z : Sized) (i n : Nat) : Prop :=
  (z.data i = some ⟨.sso i, 0⟩ ∧ n ≤ (z.cls i).SSO) ∨
  (∃ b ∈ (z.strs i).owns (z.cls i), b ∈ z.heap.live ∧ z.data i = some ⟨.block b, 0⟩ ∧
    n ≤ z.size b) ∨
  ∃ p, (z.strs i).is_wrap_ = true ∧ (z.strs i).text = .data p ∧ z.data i = some p ∧ n ≤ room p

/-- String `i` of `z`, resized to `n` characters in `z'`. -/
structure Resized (room : CharPtr → Nat) (z z' : Sized) (i n : Nat) (F : Multiset Block) :
    Prop where
  size : (z'.strs i).length_ = n
  kept : ∀ k < min n (z.strs i).length_, z'.char i k = z.char i k
  storage : Storage room z' i n
  /-- Its block is allocated exactly in the heap form. -/
  live : z'.heap.Holds ((z'.strs i).owns (z'.cls i) + F)

variable {P : Placement} {room : CharPtr → Nat} {z z' : Sized} {i k n m : Nat} {p : CharPtr}
  {F : Multiset Block} {c : StringClass} {s : Str} {size : Block → Nat}

theorem Stored.of_plain (hok : s.Ok c) (hw : s.is_wrap_ = false) (hn : s.length_ ≤ c.SSO) :
    Stored room size c s :=
  ⟨hok, fun _ hwt _ => absurd (hw.symm.trans hwt) Bool.false_ne_true,
    fun _ hh _ => absurd hh.2 (Nat.not_lt.mpr hn)⟩

theorem Owned.storage (h : Owned room z i F) : Storage room z i (z.strs i).length_ := by
  rcases Store.data_cases h.stored.ok with ⟨p, hw, hp⟩ | ⟨-, hn, hp⟩ | ⟨off, hh, ht, hp⟩
  · obtain ⟨hc, p', ht⟩ := h.stored.ok.wrap hw
    cases (Store.data_wrap hc hw ht).symm.trans hp
    obtain ⟨hle, hroom⟩ := h.stored.wrap_room p hw ht
    exact .inr (.inr ⟨p, hw, ht, hp, hle.trans hroom⟩)
  · exact .inl ⟨hp, hn⟩
  · have hown : ((z.strs i).alloc, off) ∈ (z.strs i).owns (z.cls i) := by
      rw [Str.owns_text hh ht]
      exact Multiset.mem_singleton_self _
    refine .inr (.inl ⟨_, hown, ?_, hp, ?_⟩)
    · exact h.holds.mem_live.mpr (Multiset.mem_add.mpr (.inl hown))
    · exact (h.stored.ok.heap hh).1.trans (h.stored.heap_size off hh ht)

/-! ## Creating a string -/

namespace Sized

@[simp] theorem createStr_strs (z : Sized) : (createStr P z i n).strs =
    Function.update z.strs i (Str.createStr P (z.cls i) z.heap (z.strs i) n).1 := rfl

@[simp] theorem createStr_heap (z : Sized) : (createStr P z i n).heap =
    (Str.createStr P (z.cls i) z.heap (z.strs i) n).2 := rfl

@[simp] theorem createStr_cls (z : Sized) : (createStr P z i n).cls = z.cls := rfl

theorem createStr_size (z : Sized) : (createStr P z i n).size =
    if n ≤ (z.cls i).SSO then z.size
    else Function.update z.size ((z.strs i).alloc, (allocate P z.heap (z.strs i).alloc).1) n := rfl

theorem createStr_view (z : Sized) : (createStr P z i n).view = z.view :=
  Store.act_view_of_le fun _ hb => Store.createStr_live hb

/-- The new string has its characters in `sso_` or in a block that is allocated. -/
theorem createStr_data (z : Sized) : ∃ p, (createStr P z i n).data i = some p ∧
    ∀ b, p.region = .block b → b ∈ (createStr P z i n).heap.live := by
  have hw : ((createStr P z i n).strs i).is_wrap_ = false := by
    rw [createStr_strs, Function.update_self, Str.createStr_wrap]
  have hlen : ((createStr P z i n).strs i).length_ = n := by
    rw [createStr_strs, Function.update_self, Str.createStr_length]
  by_cases hn : n ≤ (z.cls i).SSO
  · exact ⟨_, Store.data_inline hw (by rwa [hlen, createStr_cls]), nofun⟩
  · obtain ⟨htext, hheap⟩ := Str.createStr_text (P := P) (l := z.heap) (s := z.strs i)
      (Nat.not_le.mp hn)
    have ht : ((createStr P z i n).strs i).text =
        .text (allocate P z.heap (z.strs i).alloc).1 := by
      rw [createStr_strs, Function.update_self, htext]
    refine ⟨_, Store.data_heap ⟨hw, by rw [hlen, createStr_cls]; omega⟩ ht, fun b hb => ?_⟩
    cases hb
    rw [createStr_strs, Function.update_self, Str.createStr_alloc, createStr_heap, hheap]
    exact List.mem_cons_self

/-- Copying characters is only that. -/
theorem createStrFrom_header (z : Sized) (text : Option CharPtr) :
    (createStrFrom P z i text m n).strs = (createStr P z i n).strs ∧
      (createStrFrom P z i text m n).heap = (createStr P z i n).heap ∧
      (createStrFrom P z i text m n).cls = z.cls ∧
      (createStrFrom P z i text m n).size = (createStr P z i n).size := by
  unfold createStrFrom
  cases text with
  | none => exact ⟨rfl, rfl, rfl, rfl⟩
  | some text => exact ⟨Store.memcpy_strs _, Store.memcpy_heap _, Store.memcpy_cls _, rfl⟩

theorem createStr_stored (z : Sized) :
    Stored room (createStr P z i n).size (z.cls i) ((createStr P z i n).strs i) := by
  rw [createStr_strs, Function.update_self]
  by_cases hn : n ≤ (z.cls i).SSO
  · exact .of_plain Str.createStr_ok Str.createStr_wrap (by rwa [Str.createStr_length])
  · refine ⟨Str.createStr_ok, fun p hw _ => ?_, fun off _ ht => ?_⟩
    · exact absurd (Str.createStr_wrap.symm.trans hw) Bool.false_ne_true
    · have htext := (Str.createStr_text (P := P) (l := z.heap) (s := z.strs i)
        (Nat.not_le.mp hn)).1
      cases ht.symm.trans htext
      have hmax : (Str.createStr P (z.cls i) z.heap (z.strs i) n).1.max_length_ = n := by
        simp only [Str.createStr, if_neg hn]
      rw [Str.createStr_alloc, hmax, createStr_size, if_neg hn, Function.update_self]

/-- A new string in place of one that owns nothing. -/
theorem createStr_owned (z : Sized) (h : z.heap.Holds F) : Owned room (createStr P z i n) i F := by
  refine ⟨createStr_stored z, ?_⟩
  rw [createStr_strs, Function.update_self, createStr_heap, createStr_cls]
  exact Str.createStr_holds h

theorem createStrFrom_owned (z : Sized) (text : Option CharPtr) (h : z.heap.Holds F) :
    Owned room (createStrFrom P z i text m n) i F := by
  obtain ⟨hstrs, hheap, hcls, hsize⟩ := createStrFrom_header (P := P) (i := i) (m := m) (n := n)
    z text
  have ho : Owned room (createStr P z i n) i F := createStr_owned z h
  obtain ⟨hst, hho⟩ := ho
  exact ⟨by rw [hstrs, hcls, hsize]; exact hst, by rw [hstrs, hcls, hheap]; exact hho⟩

/-- Its characters are those that there were at `text`. -/
theorem createStrFrom_char (z : Sized) (text : CharPtr) (hk : k < min m n) :
    (createStrFrom P z i (some text) m n).char i k = z.view text.region (text.off + k) := by
  obtain ⟨hstrs, -, hcls, -⟩ := createStrFrom_header (P := P) (i := i) (m := m) (n := n) z
    (some text)
  obtain ⟨p, hp, hlive⟩ := createStr_data (P := P) (i := i) (n := n) z
  have hdata : (createStrFrom P z i (some text) m n).data i = some p := by
    rw [← hp]
    exact Store.data_congr (congrFun hstrs i) hcls
  rw [Store.char, hdata, Option.bind_some]
  simp only [createStrFrom, hp]
  have hk' : k < if m < n then m else n := by split <;> omega
  rw [Store.memcpy_view_at hlive hk', createStr_view]

/-! ## The branches -/

@[simp] theorem setStr_strs (z : Sized) (s : Str) :
    (z.setStr i s).strs = Function.update z.strs i s := rfl

theorem reallocateText_strs (z : Sized) : (reallocateText P z i n).strs i = { z.strs i with
    text := .text (Str.reallocateText P z.heap (z.strs i).alloc (z.strs i).text).1 } :=
  Function.update_self ..

theorem reallocateText_heap (z : Sized) : (reallocateText P z i n).heap =
    (Str.reallocateText P z.heap (z.strs i).alloc (z.strs i).text).2 := rfl

theorem reallocateText_mem {off : Nat} (ht : (z.strs i).text = .text off) :
    (reallocateText P z i n).mem
      (.block ((z.strs i).alloc, (reallocate P z.heap (z.strs i).alloc off).1)) = fun k =>
        if k < min (z.size ((z.strs i).alloc, off)) n then
          z.view (.block ((z.strs i).alloc, off)) k
        else none := by
  simp only [reallocateText, ht, Str.reallocateText, Function.update_self]

/-- Of the header and the blocks a resize makes what `Str.resize` does. -/
theorem resize_header (z : Sized) :
    ((resize P z i n).strs i, (resize P z i n).heap) =
        Str.resize P (z.cls i) z.heap (z.strs i) n ∧ (resize P z i n).cls = z.cls := by
  have hcopy : ∀ text m, ((createStrFrom P (z.setStr i ((z.strs i).setLength n)) i text m n).strs i,
      (createStrFrom P (z.setStr i ((z.strs i).setLength n)) i text m n).heap) =
        Str.createStr P (z.cls i) z.heap ((z.strs i).setLength n) n ∧
      (createStrFrom P (z.setStr i ((z.strs i).setLength n)) i text m n).cls = z.cls := by
    intro text m
    obtain ⟨hstrs, hheap, hcls, -⟩ := createStrFrom_header (P := P) (i := i) (m := m) (n := n)
      (z.setStr i ((z.strs i).setLength n)) text
    refine ⟨?_, hcls⟩
    rw [hstrs, hheap, createStr_strs, createStr_heap, setStr_strs, Function.update_self,
      Function.update_self]
    rfl
  have hstay : ((z.setStr i ((z.strs i).setLength n)).strs i,
      (z.setStr i ((z.strs i).setLength n)).heap) = ((z.strs i).setLength n, z.heap) := by
    rw [setStr_strs, Function.update_self]
    rfl
  unfold resize Str.resize
  simp only
  split
  · refine ⟨?_, rfl⟩
    rw [createStr_strs, Function.update_self]
    rfl
  split
  · split
    · exact ⟨hstay, rfl⟩
    · exact hcopy _ _
  split
  · split
    · exact ⟨hstay, rfl⟩
    · exact hcopy _ _
  split
  · refine ⟨?_, rfl⟩
    have hs := reallocateText_strs (P := P) (i := i) (n := n)
      (z.setStr i ((z.strs i).setLength n))
    have hh := reallocateText_heap (P := P) (i := i) (n := n)
      (z.setStr i ((z.strs i).setLength n))
    rw [setStr_strs, Function.update_self] at hs hh
    rw [setStr_strs, Function.update_self, hs]
    exact Prod.ext rfl hh
  split
  · obtain ⟨he, hcls⟩ := hcopy (z.data i) (z.strs i).length_
    obtain ⟨hs, hh⟩ := Prod.ext_iff.mp he
    simp only at hs hh
    refine ⟨?_, hcls⟩
    have hfree : ((createStrFrom P (z.setStr i ((z.strs i).setLength n)) i (z.data i)
        (z.strs i).length_ n).freeText i (z.strs i).text).strs i =
          (createStrFrom P (z.setStr i ((z.strs i).setLength n)) i (z.data i)
            (z.strs i).length_ n).strs i := Function.update_self ..
    rw [hfree, hs]
    refine Prod.ext rfl ?_
    simp only [freeText, Store.act_heap, hs, hh]
    rfl
  · exact ⟨hstay, rfl⟩

theorem resize_null (hn : (z.strs i).length_ = 0) : resize P z i n = createStr P z i n := by
  simp [resize, Str.isNull, hn]

theorem resize_wrap (hn : (z.strs i).length_ ≠ 0) (hc : (z.cls i).kWrap = true)
    (hw : (z.strs i).is_wrap_ = true) : resize P z i n =
      if n < (z.strs i).max_length_ then z.setStr i ((z.strs i).setLength n)
      else createStrFrom P (z.setStr i ((z.strs i).setLength n)) i (z.data i)
        (z.strs i).length_ n := by
  simp [resize, Str.isNull, hn, hc, hw]

theorem resize_inline (hn : (z.strs i).length_ ≠ 0) (hw : (z.strs i).is_wrap_ = false)
    (hsso : (z.strs i).length_ ≤ (z.cls i).SSO) : resize P z i n =
      if n ≤ (z.cls i).SSO then z.setStr i ((z.strs i).setLength n)
      else createStrFrom P (z.setStr i ((z.strs i).setLength n)) i (z.data i)
        (z.strs i).length_ n := by
  simp [resize, Str.isNull, hn, hw, hsso]

/-- The block of the string, for `n` characters. -/
def regrow (P : Placement) (z : Sized) (i n : Nat) : Sized :=
  let z := reallocateText P (z.setStr i ((z.strs i).setLength n)) i n
  z.setStr i { z.strs i with max_length_ := n }

theorem resize_heap (hh : (z.strs i).isHeap (z.cls i)) : resize P z i n =
    if n > (z.strs i).length_ then regrow P z i n
    else if n ≤ (z.cls i).SSO then
      (createStrFrom P (z.setStr i ((z.strs i).setLength n)) i (z.data i)
        (z.strs i).length_ n).freeText i (z.strs i).text
    else z.setStr i ((z.strs i).setLength n) := by
  have hn : (z.strs i).length_ ≠ 0 := by have := hh.2; omega
  simp [resize, regrow, Str.isNull, hn, hh.1, Nat.not_le.mpr hh.2]

end Sized

/-- The string has the first characters that it had, and the memory that it says. -/
structure Keeps (room : CharPtr → Nat) (z z' : Sized) (i n : Nat) : Prop where
  char : ∀ k < min n (z.strs i).length_, z'.char i k = z.char i k
  wrap_room : ∀ p, (z'.strs i).is_wrap_ = true → (z'.strs i).text = .data p →
    (z'.strs i).length_ ≤ (z'.strs i).max_length_ ∧ (z'.strs i).max_length_ ≤ room p
  heap_size : ∀ off, (z'.strs i).isHeap (z'.cls i) → (z'.strs i).text = .text off →
    (z'.strs i).max_length_ ≤ z'.size ((z'.strs i).alloc, off)

theorem Stored.keeps (h : Stored room z'.size (z'.cls i) (z'.strs i))
    (hk : ∀ k < min n (z.strs i).length_, z'.char i k = z.char i k) : Keeps room z z' i n :=
  ⟨hk, h.wrap_room, h.heap_size⟩

/-- The length changes, in the form that the string has. -/
theorem Stored.stay (h : Stored room z.size (z.cls i) (z.strs i))
    (hdata : (z.setStr i ((z.strs i).setLength n)).data i = z.data i)
    (hn : (z.strs i).is_wrap_ = true → n ≤ (z.strs i).max_length_)
    (hh : (z.strs i).is_wrap_ = false → (z.cls i).SSO < n → (z.strs i).isHeap (z.cls i)) :
    Keeps room z (z.setStr i ((z.strs i).setLength n)) i n := by
  have hstr : (z.setStr i ((z.strs i).setLength n)).strs i = (z.strs i).setLength n :=
    Function.update_self ..
  refine ⟨fun k _ => ?_, fun p hw ht => ?_, fun off hhn ht => ?_⟩
  · rw [Store.char, Store.char, hdata]
    rfl
  · rw [hstr] at hw ht ⊢
    exact ⟨hn hw, (h.wrap_room p hw ht).2⟩
  · rw [hstr] at hhn ht ⊢
    exact h.heap_size off (hh hhn.1 hhn.2) ht

/-- The characters are copied to a new string. -/
theorem Stored.create (h : Stored room z.size (z.cls i) (z.strs i)) :
    Keeps room z (Sized.createStrFrom P (z.setStr i ((z.strs i).setLength n)) i (z.data i)
      (z.strs i).length_ n) i n := by
  obtain ⟨p, hp⟩ := Store.exists_data h.ok
  obtain ⟨hstrs, -, hcls, hsize⟩ := Sized.createStrFrom_header (P := P) (i := i)
    (m := (z.strs i).length_) (n := n) (z.setStr i ((z.strs i).setLength n)) (z.data i)
  have hst : Stored room (Sized.createStr P (z.setStr i ((z.strs i).setLength n)) i n).size _ _ :=
    Sized.createStr_stored _
  rw [← hsize, ← hstrs, ← hcls] at hst
  refine hst.keeps fun k hk => ?_
  rw [hp, Sized.createStrFrom_char _ p (by rwa [Nat.min_comm]), Store.char, hp]
  rfl

theorem Owned.resize_keeps_of_not_heap (h : Owned room z i F) (hn : (z.strs i).length_ ≠ 0)
    (hh : ¬ (z.strs i).isHeap (z.cls i)) : Keeps room z (z.resize P i n) i n := by
  have hstored := h.stored
  cases hw : (z.strs i).is_wrap_ with
  | true =>
    obtain ⟨hc, p, ht⟩ := hstored.ok.wrap hw
    rw [Sized.resize_wrap hn hc hw]
    split
    · rename_i hlt
      refine hstored.stay ?_ (fun _ => Nat.le_of_lt hlt) fun hw' => ?_
      · rw [Store.data_wrap hc hw ht]
        have hstr : (z.setStr i ((z.strs i).setLength n)).strs i = (z.strs i).setLength n :=
          Function.update_self ..
        exact Store.data_wrap hc (by rw [hstr]; exact hw) (by rw [hstr]; exact ht)
      · exact absurd (hw'.symm.trans hw) Bool.false_ne_true
    · exact hstored.create
  | false =>
    have hsso : (z.strs i).length_ ≤ (z.cls i).SSO := Nat.not_lt.mp fun hlt => hh ⟨hw, hlt⟩
    rw [Sized.resize_inline hn hw hsso]
    split
    · rename_i hle
      refine hstored.stay ?_ (fun hw' => ?_) fun _ hlt => absurd hle (Nat.not_le.mpr hlt)
      · rw [Store.data_inline hw hsso]
        have hstr : (z.setStr i ((z.strs i).setLength n)).strs i = (z.strs i).setLength n :=
          Function.update_self ..
        exact Store.data_inline (by rw [hstr]; exact hw) (by rw [hstr]; exact hle)
      · exact absurd (hw.symm.trans hw') Bool.false_ne_true
    · exact hstored.create

/-- The string in its new block, which has the bytes of the old one. -/
theorem Sized.regrow_spec {off : Nat} (ht : (z.strs i).text = .text off) :
    (z.regrow P i n).strs i = (z.strs i).grown (reallocate P z.heap (z.strs i).alloc off).1 n ∧
    (z.regrow P i n).cls = z.cls ∧
    (z.regrow P i n).size = Function.update z.size
      ((z.strs i).alloc, (reallocate P z.heap (z.strs i).alloc off).1) n ∧
    (((z.strs i).alloc, (reallocate P z.heap (z.strs i).alloc off).1) ∈
        (z.regrow P i n).heap.live → ∀ k < min (z.size ((z.strs i).alloc, off)) n,
      (z.regrow P i n).view
        (.block ((z.strs i).alloc, (reallocate P z.heap (z.strs i).alloc off).1)) k =
          z.view (.block ((z.strs i).alloc, off)) k) := by
  have hstr : (z.setStr i ((z.strs i).setLength n)).strs i = (z.strs i).setLength n :=
    Function.update_self ..
  have hr : Str.reallocateText P (z.setStr i ((z.strs i).setLength n)).heap
      ((z.strs i).setLength n).alloc ((z.strs i).setLength n).text =
        reallocate P z.heap (z.strs i).alloc off := by
    simp only [Str.setLength, ht, Str.reallocateText]
    rfl
  refine ⟨?_, rfl, ?_, fun hlive k hk => ?_⟩
  · rw [regrow, setStr_strs, Function.update_self, reallocateText_strs, hstr, hr]
    rfl
  · have hsize : (z.regrow P i n).size =
        (reallocateText P (z.setStr i ((z.strs i).setLength n)) i n).size := rfl
    rw [hsize, reallocateText]
    simp only [hstr, hr]
    rfl
  · refine (congrFun (if_pos hlive) k).trans ?_
    have ht' : ((z.setStr i ((z.strs i).setLength n)).strs i).text = .text off := by
      rw [hstr]
      exact ht
    have hmem := reallocateText_mem (P := P) (n := n) ht'
    rw [hstr] at hmem
    exact (congrFun hmem k).trans (if_pos hk)

/-- `hgrown` is what `Str.resize_holds` says of the header. -/
theorem Owned.regrow_keeps (h : Owned room z i F) (hh : (z.strs i).isHeap (z.cls i))
    (hn : (z.strs i).length_ < n)
    (hgrown : (z.regrow P i n).heap.Holds
      (((z.regrow P i n).strs i).owns ((z.regrow P i n).cls i) + F)) :
    Keeps room z (z.regrow P i n) i n := by
  obtain ⟨hmax, off, ht⟩ := h.stored.ok.heap hh
  obtain ⟨hstr, hcls, hsize, hview⟩ := Sized.regrow_spec (P := P) (n := n) ht
  have hsso : (z.cls i).SSO < n := Nat.lt_trans hh.2 hn
  have hheap : ((z.regrow P i n).strs i).isHeap ((z.regrow P i n).cls i) := by
    rw [hstr, hcls]
    exact ⟨hh.1, hsso⟩
  have htext : ((z.regrow P i n).strs i).text =
      .text (reallocate P z.heap (z.strs i).alloc off).1 := by rw [hstr]; rfl
  have halloc : ((z.regrow P i n).strs i).alloc = (z.strs i).alloc := by rw [hstr]; rfl
  have hlive : ((z.strs i).alloc, (reallocate P z.heap (z.strs i).alloc off).1) ∈
      (z.regrow P i n).heap.live := by
    rw [hgrown.mem_live, Str.owns_text hheap htext, halloc]
    exact Multiset.mem_add.mpr (.inl (Multiset.mem_singleton_self _))
  refine ⟨fun k hk => ?_, fun p hw _ => ?_, fun off' _ ht' => ?_⟩
  · have hroom := h.stored.heap_size off hh ht
    rw [Store.char, Store.data_heap hheap htext, Store.char, Store.data_heap hh ht, halloc]
    simp only [Option.bind_some, Nat.zero_add]
    exact hview hlive k (by omega)
  · rw [hstr] at hw
    exact absurd (hh.1.symm.trans hw) Bool.false_ne_true
  · cases ht'.symm.trans htext
    rw [halloc, hsize, Function.update_self, hstr]
    exact Nat.le_refl n

/-- The characters go back to `sso_`, and the block is freed. -/
theorem Stored.inline (h : Stored room z.size (z.cls i) (z.strs i)) (hn : n ≤ (z.cls i).SSO) :
    Keeps room z ((Sized.createStrFrom P (z.setStr i ((z.strs i).setLength n)) i (z.data i)
      (z.strs i).length_ n).freeText i (z.strs i).text) i n := by
  have hk := h.create (P := P) (n := n)
  obtain ⟨hstrs, -, hcls, -⟩ := Sized.createStrFrom_header (P := P) (i := i)
    (m := (z.strs i).length_) (n := n) (z.setStr i ((z.strs i).setLength n)) (z.data i)
  generalize Sized.createStrFrom P (z.setStr i ((z.strs i).setLength n)) i (z.data i)
    (z.strs i).length_ n = y at hk hstrs hcls
  have hfree : (y.freeText i (z.strs i).text).strs i = y.strs i := Function.update_self ..
  have hw : (y.strs i).is_wrap_ = false := by
    rw [hstrs, Sized.createStr_strs, Function.update_self, Str.createStr_wrap]
  have hlen : (y.strs i).length_ ≤ (y.cls i).SSO := by
    rw [hstrs, Sized.createStr_strs, Function.update_self, Str.createStr_length, hcls]
    exact hn
  refine ⟨fun k hkn => ?_, fun p hwt _ => ?_, fun off hh _ => ?_⟩
  · rw [← hk.char k hkn, Store.char, Store.char, Store.data_inline hw hlen,
      Store.data_inline (by rw [hfree]; exact hw) (by rw [hfree]; exact hlen)]
    rfl
  · rw [hfree] at hwt
    exact absurd (hw.symm.trans hwt) Bool.false_ne_true
  · rw [hfree] at hh
    exact absurd hh.2 (Nat.not_lt.mpr hlen)

theorem Owned.resize_keeps_of_heap (h : Owned room z i F) (hh : (z.strs i).isHeap (z.cls i))
    (hnew : (z.resize P i n).heap.Holds
      (((z.resize P i n).strs i).owns ((z.resize P i n).cls i) + F)) :
    Keeps room z (z.resize P i n) i n := by
  obtain ⟨-, off, ht⟩ := h.stored.ok.heap hh
  have he := Sized.resize_heap (P := P) (n := n) hh
  by_cases hgrow : n > (z.strs i).length_
  · rw [if_pos hgrow] at he
    rw [he] at hnew ⊢
    exact h.regrow_keeps hh hgrow hnew
  rw [if_neg hgrow] at he
  rw [he]
  split
  · rename_i hle
    exact h.stored.inline hle
  · rename_i hle
    have hlt : (z.cls i).SSO < n := Nat.not_le.mp hle
    refine h.stored.stay ?_ (fun hw => ?_) fun _ _ => hh
    · have hstr : (z.setStr i ((z.strs i).setLength n)).strs i = (z.strs i).setLength n :=
        Function.update_self ..
      rw [Store.data_heap hh ht]
      have hh' : ((z.setStr i ((z.strs i).setLength n)).strs i).isHeap (z.cls i) := by
        rw [hstr]
        exact ⟨hh.1, hlt⟩
      rw [Store.data_heap hh' (by rw [hstr]; exact ht), hstr]
      rfl
    · exact absurd (hh.1.symm.trans hw) Bool.false_ne_true

/-- **A resize step.** It keeps the characters and what the string owns. -/
theorem Owned.resize (h : Owned room z i F) (n : Nat) :
    Owned room (z.resize P i n) i F ∧ Resized room z (z.resize P i n) i n F := by
  obtain ⟨he, hcls⟩ := Sized.resize_header (P := P) (i := i) (n := n) z
  obtain ⟨hs, hh⟩ := Prod.ext_iff.mp he
  simp only at hs hh
  obtain ⟨hnew, hok⟩ := Str.resize_holds (P := P) (n := n) h.stored.ok h.holds
  rw [← hs, ← hh, ← hcls] at hnew
  rw [← hs, ← hcls] at hok
  have hlen : ((z.resize P i n).strs i).length_ = n := by rw [hs, Str.resize_length]
  have hkeeps : Keeps room z (z.resize P i n) i n := by
    by_cases hn : (z.strs i).length_ = 0
    · rw [Sized.resize_null hn]
      exact (Sized.createStr_stored z).keeps fun k hk => by omega
    · by_cases hheap : (z.strs i).isHeap (z.cls i)
      · exact h.resize_keeps_of_heap hheap hnew
      · exact h.resize_keeps_of_not_heap hn hheap
  have howned : Owned room (z.resize P i n) i F :=
    ⟨⟨hok, hkeeps.wrap_room, hkeeps.heap_size⟩, hnew⟩
  have hstorage := howned.storage
  rw [hlen] at hstorage
  exact ⟨howned, hlen, hkeeps.char, hstorage, hnew⟩

/-! ## Runs -/

namespace Sized

theorem write_header (z : Sized) (byte : UInt8) : (write z i k byte).strs = z.strs ∧
    (write z i k byte).cls = z.cls ∧ (write z i k byte).heap = z.heap ∧
    (write z i k byte).size = z.size := by
  unfold write
  cases z.data i with
  | none => exact ⟨rfl, rfl, rfl, rfl⟩
  | some p => exact ⟨rfl, rfl, rfl, rfl⟩

end Sized

theorem Owned.step {op : Sized.Op} (h : Owned room z i F) (hs : Sized.step P i z op = some z') :
    Owned room z' i F := by
  cases op with
  | resize new_size =>
    cases hs
    exact (h.resize new_size).1
  | write k byte =>
    cases hs
    obtain ⟨hstrs, hcls, hheap, hsize⟩ := z.write_header (i := i) (k := k) byte
    exact ⟨by rw [hstrs, hcls, hsize]; exact h.stored, by rw [hstrs, hcls, hheap]; exact h.holds⟩

/-- What a constructor finds: `F` are the blocks of others; characters are as many as is
said, and what is moved is a string. -/
def Start (room : CharPtr → Nat) (z : Sized) (i : Nat) (F : Multiset Block) : Sized.Ctor → Prop
  | .default _ | .length .. => z.heap.Holds F
  | .text _ text n => z.heap.Holds F ∧ n ≤ room text
  | .move _ other => other ≠ i ∧ z.cls i = z.cls other ∧ Owned room z other F

/-- A block does not move to another allocator in bytes that say that they wrap. -/
def Guarded (z : Sized) (i : Nat) : Sized.Ctor → Prop
  | .move a other => (z.strs i).is_wrap_ = false ∨ a = (z.strs other).alloc ∨
    ¬ (z.strs other).isHeap (z.cls other)
  | _ => True

instance (z : Sized) (i : Nat) (ctor : Sized.Ctor) : Decidable (Guarded z i ctor) := by
  cases ctor <;> unfold Guarded <;> infer_instance

theorem Owned.of_empty (hok : (z.strs i).Ok (z.cls i)) (hlen : (z.strs i).length_ = 0)
    (hw : (z.strs i).is_wrap_ = false) (h : z.heap.Holds F) : Owned room z i F := by
  refine ⟨.of_plain hok hw (by omega), ?_⟩
  rwa [Str.owns_of_not_isHeap (Str.not_isHeap_of_length hlen), zero_add]

theorem construct_text {a : Nat} (h : z.heap.Holds F) (hroom : n ≤ room p) :
    Owned room (z.construct P i (.text a p n)) i F := by
  simp only [Sized.construct]
  split
  · rename_i hc
    have hstr : (z.setStr i (Str.wrap { z.strs i with alloc := a } p n)).strs i =
        Str.wrap { z.strs i with alloc := a } p n := Function.update_self ..
    have hnh : ¬ (Str.wrap { z.strs i with alloc := a } p n).isHeap (z.cls i) := fun hh =>
      Bool.false_ne_true (hh.1.symm.trans rfl)
    refine ⟨⟨?_, fun q _ ht => ?_, fun off hh _ => ?_⟩, ?_⟩
    · rw [hstr]
      exact Str.wrap_ok hc
    · rw [hstr] at ht ⊢
      cases ht
      exact ⟨Nat.le_refl n, hroom⟩
    · rw [hstr] at hh
      exact absurd hh hnh
    · rw [hstr]
      exact h.congr (by rw [Str.wrap_owns, zero_add])
  · exact Sized.createStrFrom_owned _ _ h

theorem moveCopy_heap {σ : Store} {other : Nat} : (σ.moveCopy i other).heap = σ.heap := by
  simp only [Store.moveCopy]
  split
  · exact Store.memcpy_heap _
  · rfl

/-- The header moves. -/
theorem construct_move_header {a other : Nat} (h : Owned room z other F)
    (hcls : z.cls i = z.cls other)
    (ha : a = (z.strs other).alloc ∨ ¬ (z.strs other).isHeap (z.cls other)) {y : Sized}
    (hstr : y.strs i = Str.moveCopy { z.strs i with alloc := a } (z.strs other))
    (hy : y.cls = z.cls ∧ y.heap = z.heap ∧ y.size = z.size) : Owned room y i F := by
  obtain ⟨hycls, hheap, hsize⟩ := hy
  refine ⟨⟨?_, fun p hw ht => ?_, fun off hh ht => ?_⟩, ?_⟩
  · rw [hstr, hycls, hcls]
    exact Str.moveCopy_ok h.stored.ok
  · rw [hstr] at hw ht ⊢
    exact h.stored.wrap_room p hw ht
  · rw [hstr] at hh ht ⊢
    rw [hycls, hcls] at hh
    rw [hsize]
    rcases ha with rfl | hnh
    · exact h.stored.heap_size off hh ht
    · exact absurd hh hnh
  · rw [hstr, hycls, hheap, hcls, Str.moveCopy_owns ha]
    exact h.holds

theorem construct_move {a other : Nat} (h : Owned room z other F) (hne : other ≠ i)
    (hcls : z.cls i = z.cls other) (hg : Guarded z i (.move a other)) :
    Owned room (z.construct P i (.move a other)) i F := by
  have hstr : (z.setStr i { z.strs i with alloc := a }).strs i = { z.strs i with alloc := a } :=
    Function.update_self ..
  have hother : (z.setStr i { z.strs i with alloc := a }).strs other = z.strs other :=
    Function.update_of_ne hne ..
  simp only [Sized.construct, hstr, hother]
  split
  · rename_i hmove
    refine construct_move_header (a := a) h hcls ?_ ?_ ⟨?_, ?_, rfl⟩
    · rcases hg with hw | ha
      · exact .inl (hmove.resolve_left (by rw [hw]; exact Bool.false_ne_true))
      · exact ha
    · rw [Sized.setStr_strs, Function.update_of_ne hne.symm]
      simp only [Store.moveCopy_strs, Function.update_self, hstr, hother]
    · exact Store.moveCopy_cls
    · exact moveCopy_heap
  · -- the characters are copied, and the other string is destroyed
    have hy : Owned room (Sized.createStrFrom P (z.setStr i { z.strs i with alloc := a }) i
        ((z.setStr i { z.strs i with alloc := a }).data other) (z.strs other).length_
        (z.strs other).length_) i ((z.strs other).owns (z.cls other) + F) :=
      Sized.createStrFrom_owned _ _ h.holds
    obtain ⟨hstrs, -, hycls, -⟩ := Sized.createStrFrom_header (P := P) (i := i)
      (m := (z.strs other).length_) (n := (z.strs other).length_)
      (z.setStr i { z.strs i with alloc := a })
      ((z.setStr i { z.strs i with alloc := a }).data other)
    generalize Sized.createStrFrom P (z.setStr i { z.strs i with alloc := a }) i
      ((z.setStr i { z.strs i with alloc := a }).data other) (z.strs other).length_
      (z.strs other).length_ = y at hy hstrs hycls
    have hyother : y.strs other = z.strs other := by
      rw [hstrs, Sized.createStr_strs, Function.update_of_ne hne, hother]
    have hcls' : y.cls = z.cls := hycls
    refine ⟨?_, ?_⟩
    · simp only [Store.shmDestroy, Store.act_strs, Store.act_cls, Function.update_of_ne hne.symm]
      exact hy.stored
    · have hd : (Str.shmDestroy (y.cls other) y.heap (y.strs other)).2.Holds
          ((y.strs i).owns (y.cls i) + F) := by
        refine Str.shmDestroy_holds ?_ (hy.holds.congr ?_)
        · rw [hyother, hcls']
          exact h.stored.ok
        · rw [hyother, hcls', add_left_comm]
      simp only [Store.shmDestroy, Store.act_strs, Store.act_cls, Store.act_heap,
        Function.update_of_ne hne.symm]
      exact hd

theorem construct_owned {ctor : Sized.Ctor} (h : Start room z i F ctor) (hg : Guarded z i ctor) :
    Owned room (z.construct P i ctor) i F := by
  cases ctor with
  | default a =>
    have hstr : (z.construct P i (.default a)).strs i = Str.init (z.strs i) a :=
      Function.update_self ..
    refine .of_empty ?_ ?_ ?_ h
    · rw [hstr]
      exact Str.init_ok
    · rw [hstr]
      rfl
    · rw [hstr]
      rfl
  | length a n => exact Sized.createStr_owned _ h
  | text a p n => exact construct_text h.1 h.2
  | move a other => exact construct_move h.2.2 h.1 h.2.1 hg

/-- **Resizing strings.** However a string was constructed, but for a block moved to
another allocator in bytes that say that they wrap, and through any resizes and stores
to its characters, a resize gives it `n` characters and keeps the first ones. -/
theorem guarded_resized {z₀ : Sized} {ctor : Sized.Ctor} {ops : List Sized.Op}
    (h : Start room z₀ i F ctor) (hg : Guarded z₀ i ctor)
    (hr : Run (Sized.step P i) (Sized.Legal i) (z₀.construct P i ctor) ops z) (n : Nat) :
    Resized room z (z.resize P i n) i n F := by
  have ho : Owned room z i F := hr.invariant (I := fun z => Owned room z i F)
    (construct_owned h hg) fun _ _ _ h _ hs => h.step hs
  exact (ho.resize n).2

instance (i : Nat) (z : Sized) (op : Sized.Op) : Decidable (Sized.Legal i z op) := by
  cases op <;> unfold Sized.Legal <;> infer_instance

/-- A string in bytes that say that they wrap, and one of 40 characters in a block of
another allocator. -/
def smallStore (c : StringClass) : Sized where
  heap := { live := [(1, 0)] }
  cls _ := c
  strs i :=
    if i = 0 then ⟨0, 0, 0, .null, true⟩ else ⟨1, 40, 40, .text 0, false⟩
  mem _ _ := some 0
  size _ := 40

/-- A string that wraps ten characters goes through all forms. -/
theorem guarded_resized_wrapped : ∃ z, Run (Sized.step .upward 0) (Sized.Legal 0)
    ((smallStore charwrap).construct .upward 0 (.text 0 ⟨.other 0, 0⟩ 10))
    [.resize 4, .write 3 65, .resize 50, .resize 45, .resize 60, .resize 20] z ∧
    Resized (fun _ => 10) z (z.resize .upward 0 70) 0 70 {(1, 0)} := by
  have hex : (execOk (Sized.step .upward 0) (Sized.Legal 0)
      ((smallStore charwrap).construct .upward 0 (.text 0 ⟨.other 0, 0⟩ 10))
      [.resize 4, .write 3 65, .resize 50, .resize 45, .resize 60, .resize 20]).isSome = true := by
    decide +kernel
  obtain ⟨z, hz⟩ := Option.isSome_iff_exists.mp hex
  have hstart : Start (fun _ => 10) (smallStore charwrap) 0 {(1, 0)} (.text 0 ⟨.other 0, 0⟩ 10) :=
    ⟨⟨rfl, List.nodup_singleton _, rfl⟩, Nat.le_refl 10⟩
  exact ⟨z, run_of_execOk hz, guarded_resized hstart trivial (run_of_execOk hz) 70⟩

/-- **A block moved to another allocator.** The move constructor reads `is_wrap_` before
it is written, takes over the block of the other string, and a resize leaves the string
with characters in no block that is allocated. -/
theorem moved_block_lost : ¬ ∀ (z₀ z : Sized) (ctor : Sized.Ctor) (F : Multiset Block)
    (ops : List Sized.Op) (n : Nat), Start (fun _ => 0) z₀ 0 F ctor →
      Run (Sized.step .upward 0) (Sized.Legal 0) (z₀.construct .upward 0 ctor) ops z →
      Resized (fun _ => 0) z (z.resize .upward 0 n) 0 n F := by
  intro h
  have hstart : Start (fun _ => 0) (smallStore string) 0 0 (.move 0 1) := by
    refine ⟨by decide, rfl, ⟨⟨nofun, fun _ => ⟨Nat.le_refl 40, 0, rfl⟩, nofun⟩, nofun,
      fun off _ _ => Nat.le_refl 40⟩, rfl, List.nodup_singleton _, rfl⟩
  have hres := h (smallStore string) _ (.move 0 1) 0 [] 35 hstart .nil
  have hmem : ((0, 0) : Block) ∈
      (((smallStore string).construct .upward 0 (.move 0 1)).resize .upward 0 35).heap.live := by
    rw [hres.live.mem_live]
    decide
  exact absurd hmem (by decide)

end HermesShm.Ipc.StringMemory
