import HermesShm.Ipc.Lifetime

/-! # `hipc::string`

The header of a `string_templ`: a string is inline, wraps memory of others, or has a
block of its allocator. Here is what its members do to the header and the blocks;
the characters are in `StringMemory`. -/
namespace HermesShm.Ipc.HipcString
open HermesShm.Base HermesShm.Ipc.Lifetime

/-- The template arguments. -/
structure StringClass where
  SSO : Nat
  /-- `FLAGS & StringFlags::kWrap`. -/
  kWrap : Bool
  deriving DecidableEq

/-- `HSHM_STRING_SSO` is 31. -/
def string : StringClass := ⟨31, false⟩
def charwrap : StringClass := ⟨31, true⟩

/-- Memory that a `char *` can point into. -/
inductive Region
  /-- Memory that no string owns. -/
  | other (i : Nat)
  /-- `sso_` of a string, by its number. -/
  | sso (i : Nat)
  | block (b : Block)
  deriving DecidableEq

structure CharPtr where
  region : Region
  off : Nat
  deriving DecidableEq

/-- The union of `text_` and `data_`. -/
inductive Text
  | null
  | text (off : Nat)
  | data (p : CharPtr)
  deriving DecidableEq

structure Str where
  /-- `GetAllocator()`. -/
  alloc : Nat
  length_ : Nat
  max_length_ : Nat
  text : Text
  is_wrap_ : Bool
  deriving DecidableEq

namespace Str

variable (P : Placement) (c : StringClass)

def isNull (s : Str) : Bool := s.length_ = 0

/-- `max_length_` stays. -/
def setNull (s : Str) : Str := { s with text := .null, length_ := 0, is_wrap_ := false }

/-- `Free` of `text_`. The null pointer is refused. -/
def freeText (l : Heap) (a : Nat) : Text → Heap
  | .text off => free l a off
  | .null | .data _ => l

def shmDestroyMain (l : Heap) (s : Str) : Heap :=
  if s.max_length_ > c.SSO ∧ ¬ s.is_wrap_ then freeText l s.alloc s.text else l

def shmDestroy (l : Heap) (s : Str) : Str × Heap :=
  if s.isNull then (s, l) else (s.setNull, shmDestroyMain c l s)

/-- `_create_str(length)`. -/
def createStr (l : Heap) (s : Str) (length : Nat) : Str × Heap :=
  let s := { s with is_wrap_ := false }
  if length ≤ c.SSO then ({ s with length_ := length, max_length_ := c.SSO }, l)
  else
    let (off, l) := allocate P l s.alloc
    ({ s with text := .text off, length_ := length, max_length_ := length }, l)

/-- The default constructor. -/
def init (raw : Str) (a : Nat) : Str := ({ raw with alloc := a } : Str).setNull

def initLength (l : Heap) (raw : Str) (a length : Nat) : Str × Heap :=
  createStr P c l { raw with alloc := a } length

/-- `shm_weak_wrap_op`, before the assignment of the allocator or the destruction. -/
def wrap (s : Str) (text : CharPtr) (length : Nat) : Str :=
  { s with is_wrap_ := true, text := .data text, length_ := length, max_length_ := length }

/-- `shm_strong_or_weak_copy_op<false, _>`: the constructors from characters, and
`operator=(const char *)`. -/
def copyOp (l : Heap) (s : Str) (a : Nat) (text : CharPtr) (length : Nat) : Str × Heap :=
  if c.kWrap then (wrap { s with alloc := a } text length, l)
  else createStr P c l { s with is_wrap_ := false, alloc := a } length

/-- `shm_strong_or_weak_copy_op<true, true>`: `operator=` from a string. -/
def copyAssign (l : Heap) (s : Str) (text : CharPtr) (length : Nat) : Str × Heap :=
  if c.kWrap then
    let (s, l) := shmDestroy c l s
    (wrap s text length, l)
  else
    let (s, l) := shmDestroy c l { s with is_wrap_ := false }
    createStr P c l s length

/-- `move_copy`. -/
def moveCopy (s other : Str) : Str :=
  { s with length_ := other.length_, max_length_ := other.max_length_, text := other.text,
           is_wrap_ := other.is_wrap_ }

/-- `shm_move_op`, for a constructor after `init_shm_container`. -/
def moveOp (l : Heap) (s other : Str) : Str × Str × Heap :=
  if s.is_wrap_ ∨ s.alloc = other.alloc then (moveCopy s other, other.setNull, l)
  else
    let (s, l) := createStr P c l s other.length_
    let (other, l) := shmDestroy c l other
    (s, other, l)

def moveCtor (l : Heap) (raw : Str) (a : Nat) (other : Str) : Str × Str × Heap :=
  moveOp P c l { raw with alloc := a } other

/-- `Reallocate` of `text_`; the null pointer is allocated. -/
def reallocateText (l : Heap) (a : Nat) : Text → Nat × Heap
  | .text off => reallocate P l a off
  | .null | .data _ => allocate P l a

def resize (l : Heap) (s : Str) (new_size : Nat) : Str × Heap :=
  if s.isNull then createStr P c l s new_size
  else
    let orig_length := s.length_
    let orig_text := s.text
    let s := { s with length_ := new_size }
    if c.kWrap ∧ s.is_wrap_ then
      if new_size < s.max_length_ then (s, l) else createStr P c l s new_size
    else if orig_length ≤ c.SSO then
      if new_size ≤ c.SSO then (s, l) else createStr P c l s new_size
    else if new_size > orig_length then
      let (off, l) := reallocateText P l s.alloc s.text
      ({ s with text := .text off, max_length_ := new_size }, l)
    else if new_size ≤ c.SSO then
      let (s, l) := createStr P c l s new_size
      (s, freeText l s.alloc orig_text)
    else (s, l)

/-! ## What a string owns -/

/-- It has a block of its own. -/
def isHeap (s : Str) : Prop := s.is_wrap_ = false ∧ c.SSO < s.length_

instance (s : Str) : Decidable (s.isHeap c) := inferInstanceAs (Decidable (_ ∧ _))

def owns (s : Str) : Multiset Block :=
  if s.isHeap c then
    match s.text with
    | .text off => {(s.alloc, off)}
    | .null | .data _ => 0
  else 0

/-- Which of the three forms a string has is told by its fields. -/
structure Ok (s : Str) : Prop where
  wrap : s.is_wrap_ = true → c.kWrap = true ∧ ∃ p, s.text = .data p
  heap : s.isHeap c → s.length_ ≤ s.max_length_ ∧ ∃ off, s.text = .text off
  inline : s.is_wrap_ = false → s.length_ ≤ c.SSO → s.length_ ≠ 0 → s.max_length_ ≤ c.SSO

variable {P c} {l : Heap} {s other raw : Str} {F : Multiset Block} {a n : Nat} {p : CharPtr}

theorem owns_of_not_isHeap (h : ¬ s.isHeap c) : s.owns c = 0 := if_neg h

theorem owns_text {off : Nat} (h : s.isHeap c) (ht : s.text = .text off) :
    s.owns c = {(s.alloc, off)} := by
  simp [owns, h, ht]

theorem setNull_owns : s.setNull.owns c = 0 :=
  owns_of_not_isHeap fun h => absurd h.2 (by simp [setNull])

theorem setNull_ok : s.setNull.Ok c where
  wrap := by simp [setNull]
  heap h := absurd h.2 (by simp [setNull])
  inline := by simp [setNull]

theorem not_isHeap_of_length (h : s.length_ = 0) : ¬ s.isHeap c :=
  fun hh => absurd hh.2 (by omega)

/-- The test of `shm_destroy_main` finds the block of a string. -/
theorem destroys_iff (hok : s.Ok c) (hn : s.length_ ≠ 0) :
    (s.max_length_ > c.SSO ∧ ¬ s.is_wrap_) ↔ s.isHeap c := by
  constructor
  · rintro ⟨hm, hw⟩
    have hw' : s.is_wrap_ = false := by simpa using hw
    refine ⟨hw', ?_⟩
    by_contra hle
    have := hok.inline hw' (by omega) hn
    omega
  · intro h
    have := (hok.heap h).1
    exact ⟨by have := h.2; omega, by simp [h.1]⟩

theorem shmDestroyMain_holds (hok : s.Ok c) (hn : s.length_ ≠ 0) (h : l.Holds (s.owns c + F)) :
    (shmDestroyMain c l s).Holds F := by
  unfold shmDestroyMain
  by_cases hh : s.isHeap c
  · obtain ⟨-, off, ht⟩ := hok.heap hh
    rw [if_pos ((destroys_iff hok hn).mpr hh), ht]
    rw [owns_text hh ht] at h
    exact free_holds h
  · rw [if_neg (mt (destroys_iff hok hn).mp hh)]
    rw [owns_of_not_isHeap hh, zero_add] at h
    exact h

theorem shmDestroy_holds (hok : s.Ok c) (h : l.Holds (s.owns c + F)) :
    (shmDestroy c l s).2.Holds F := by
  unfold shmDestroy isNull
  by_cases hn : s.length_ = 0
  · rw [owns_of_not_isHeap (not_isHeap_of_length hn), zero_add] at h
    simpa [hn] using h
  · simpa [hn] using shmDestroyMain_holds hok hn h

theorem shmDestroy_length : (shmDestroy c l s).1.length_ = 0 := by
  unfold shmDestroy isNull
  by_cases hn : s.length_ = 0 <;> simp [hn, setNull]

theorem shmDestroy_owns : (shmDestroy c l s).1.owns c = 0 :=
  owns_of_not_isHeap (not_isHeap_of_length shmDestroy_length)

theorem shmDestroy_ok (hok : s.Ok c) : (shmDestroy c l s).1.Ok c := by
  unfold shmDestroy
  split
  · exact hok
  · exact setNull_ok

theorem createStr_holds (h : l.Holds F) :
    (createStr P c l s n).2.Holds ((createStr P c l s n).1.owns c + F) := by
  unfold createStr
  by_cases hn : n ≤ c.SSO
  · simp only [hn, if_true]
    rw [owns_of_not_isHeap fun hh => absurd hh.2 (by simpa using hn), zero_add]
    exact h
  · simp only [hn, if_false]
    rw [owns_text ⟨rfl, by simpa using hn⟩ rfl]
    exact allocate_holds h

theorem createStr_ok : (createStr P c l s n).1.Ok c := by
  unfold createStr
  by_cases hn : n ≤ c.SSO
  · simp only [hn, if_true]
    exact ⟨by simp, fun hh => absurd hh.2 (by simpa using hn), fun _ _ _ => le_rfl⟩
  · simp only [hn, if_false]
    exact ⟨by simp, fun _ => ⟨le_rfl, _, rfl⟩, fun _ hle _ => absurd hle (by simpa using hn)⟩

/-- A long string gets a new block. -/
theorem createStr_text (hn : c.SSO < n) :
    (createStr P c l s n).1.text = .text (allocate P l s.alloc).1 ∧
      (createStr P c l s n).2 = (allocate P l s.alloc).2 := by
  simp [createStr, not_le.mpr hn]

theorem createStr_wrap : (createStr P c l s n).1.is_wrap_ = false := by
  unfold createStr
  split <;> rfl

theorem createStr_alloc : (createStr P c l s n).1.alloc = s.alloc := by
  unfold createStr
  split <;> rfl

theorem createStr_length : (createStr P c l s n).1.length_ = n := by
  unfold createStr
  split <;> rfl

theorem wrap_owns : (wrap s p n).owns c = 0 :=
  owns_of_not_isHeap fun hh => absurd hh.1 (by simp [wrap])

theorem wrap_ok (hc : c.kWrap = true) : (wrap s p n).Ok c where
  wrap _ := ⟨hc, p, rfl⟩
  heap hh := absurd hh.1 (by simp [wrap])
  inline := by simp [wrap]

theorem init_ok : (init raw a).Ok c := setNull_ok

theorem initLength_holds (h : l.Holds F) :
    (initLength P c l raw a n).2.Holds ((initLength P c l raw a n).1.owns c + F) :=
  createStr_holds h

theorem copyOp_holds (h : l.Holds F) :
    (copyOp P c l s a p n).2.Holds ((copyOp P c l s a p n).1.owns c + F) := by
  unfold copyOp
  split
  · rw [wrap_owns, zero_add]
    exact h
  · exact createStr_holds h

theorem copyOp_ok : (copyOp P c l s a p n).1.Ok c := by
  unfold copyOp
  split
  · rename_i hc
    exact wrap_ok hc
  · exact createStr_ok

theorem copyOp_alloc : (copyOp P c l s a p n).1.alloc = a := by
  unfold copyOp
  split
  · rfl
  · exact createStr_alloc

/-- A class without `kWrap` never wraps, so that clearing the flag changes nothing. -/
theorem clear_wrap (hok : s.Ok c) (hc : ¬ c.kWrap = true) : { s with is_wrap_ := false } = s := by
  have hw : s.is_wrap_ = false := by
    by_contra hw
    exact hc (hok.wrap (by simpa using hw)).1
  rw [← hw]

theorem copyAssign_holds (hok : s.Ok c) (h : l.Holds (s.owns c + F)) :
    (copyAssign P c l s p n).2.Holds ((copyAssign P c l s p n).1.owns c + F) := by
  unfold copyAssign
  split
  · rw [wrap_owns, zero_add]
    exact shmDestroy_holds hok h
  · rename_i hc
    rw [clear_wrap hok hc]
    exact createStr_holds (shmDestroy_holds hok h)

theorem copyAssign_ok : (copyAssign P c l s p n).1.Ok c := by
  unfold copyAssign
  split
  · rename_i hc
    exact wrap_ok hc
  · exact createStr_ok

theorem moveCopy_ok (hok : other.Ok c) : (moveCopy s other).Ok c := ⟨hok.wrap, hok.heap, hok.inline⟩

theorem moveCopy_owns (ha : s.alloc = other.alloc ∨ ¬ other.isHeap c) :
    (moveCopy s other).owns c = other.owns c := by
  have hiff : (moveCopy s other).isHeap c ↔ other.isHeap c := Iff.rfl
  by_cases hh : other.isHeap c
  · rcases ha with ha | ha
    · simp only [owns, hh, if_true, moveCopy, ha]
    · exact absurd hh ha
  · rw [owns_of_not_isHeap hh, owns_of_not_isHeap (mt hiff.mp hh)]

/-- **Move.** The target has no block, and the block of the other string, if any, is
one of the target's allocator or is left to the branch that copies. -/
theorem moveOp_holds (hother : other.Ok c) (h : l.Holds (other.owns c + F))
    (ha : s.is_wrap_ = true → s.alloc = other.alloc ∨ ¬ other.isHeap c) :
    (moveOp P c l s other).2.2.Holds
      ((moveOp P c l s other).1.owns c + (moveOp P c l s other).2.1.owns c + F) := by
  unfold moveOp
  by_cases hb : s.is_wrap_ = true ∨ s.alloc = other.alloc
  · have hown : (moveCopy s other).owns c = other.owns c :=
      moveCopy_owns (hb.elim ha .inl)
    simp only [hb, if_true, setNull_owns, add_zero, hown]
    exact h
  · simp only [hb, if_false]
    rw [shmDestroy_owns, add_zero]
    refine shmDestroy_holds hother ((createStr_holds h).congr (add_left_comm _ _ _))

theorem moveOp_ok (hother : other.Ok c) : (moveOp P c l s other).1.Ok c := by
  unfold moveOp
  split
  · exact moveCopy_ok hother
  · exact createStr_ok

theorem moveOp_alloc : (moveOp P c l s other).1.alloc = s.alloc := by
  unfold moveOp
  split
  · rfl
  · exact createStr_alloc

theorem moveOp_length : (moveOp P c l s other).2.1.length_ = 0 := by
  unfold moveOp
  split
  · rfl
  · exact shmDestroy_length

theorem moveOp_other_ok (hother : other.Ok c) : (moveOp P c l s other).2.1.Ok c := by
  unfold moveOp
  split
  · exact setNull_ok
  · exact shmDestroy_ok hother

/-! ## `resize` -/

theorem resize_length : (resize P c l s n).1.length_ = n := by
  unfold resize
  simp only
  split
  · exact createStr_length
  split
  · split
    · rfl
    · exact createStr_length
  split
  · split
    · rfl
    · exact createStr_length
  split
  · rfl
  split
  · exact createStr_length
  · rfl

/-- The string with another length in the same storage. -/
def setLength (s : Str) (n : Nat) : Str := { s with length_ := n }

theorem resize_null (hn : s.length_ = 0) : resize P c l s n = createStr P c l s n := by
  simp [resize, isNull, hn]

theorem resize_wrap (hn : s.length_ ≠ 0) (hc : c.kWrap = true) (hw : s.is_wrap_ = true) :
    resize P c l s n = if n < s.max_length_ then (s.setLength n, l)
      else createStr P c l (s.setLength n) n := by
  simp [resize, isNull, hn, hc, hw, setLength]

theorem resize_inline (hn : s.length_ ≠ 0) (hw : s.is_wrap_ = false) (hsso : s.length_ ≤ c.SSO) :
    resize P c l s n = if n ≤ c.SSO then (s.setLength n, l)
      else createStr P c l (s.setLength n) n := by
  simp [resize, isNull, hn, hw, hsso, setLength]

/-- The string in a larger block. -/
def grown (s : Str) (off n : Nat) : Str :=
  { s with text := .text off, length_ := n, max_length_ := n }

/-- A string in the heap form grows in its block, goes back inline, or keeps its block. -/
theorem resize_heap {off : Nat} (hh : s.isHeap c) (ht : s.text = .text off) :
    resize P c l s n =
      if n > s.length_ then
        (s.grown (reallocate P l s.alloc off).1 n, (reallocate P l s.alloc off).2)
      else if n ≤ c.SSO then
        ((createStr P c l (s.setLength n) n).1,
          free (createStr P c l (s.setLength n) n).2 s.alloc off)
      else (s.setLength n, l) := by
  have hn : s.length_ ≠ 0 := by have := hh.2; omega
  have hsso : ¬ s.length_ ≤ c.SSO := not_le.mpr hh.2
  simp only [resize, isNull, hn, decide_false, Bool.false_eq_true, if_false, hh.1, and_false,
    hsso, ht, reallocateText, freeText, createStr_alloc, setLength, grown]

/-- A wrapped or an inline string that stays what it is. -/
theorem setLength_ok_of_not_heap (hok : s.Ok c) (hn : s.length_ ≠ 0) (hh : ¬ s.isHeap c)
    (hk : s.is_wrap_ = true ∨ n ≤ c.SSO) : (s.setLength n).Ok c ∧ ¬ (s.setLength n).isHeap c := by
  have hnh : ¬ (s.setLength n).isHeap c := by
    rintro ⟨hw, hlt⟩
    rcases hk with hk | hk
    · exact absurd (hw.symm.trans hk) (by simp)
    · exact absurd hlt (not_lt.mpr hk)
  refine ⟨⟨hok.wrap, fun h => absurd h hnh, fun hw _ _ => hok.inline hw ?_ hn⟩, hnh⟩
  exact not_lt.mp fun hlt => hh ⟨hw, hlt⟩

theorem setLength_ok_of_heap (hok : s.Ok c) (hh : s.isHeap c) (hle : n ≤ s.length_)
    (hn : c.SSO < n) : (s.setLength n).Ok c := by
  obtain ⟨hmax, off, ht⟩ := hok.heap hh
  exact ⟨hok.wrap, fun _ => ⟨hle.trans hmax, off, ht⟩, fun _ h _ => absurd h (not_le.mpr hn)⟩

/-- A string without a block of its own. -/
theorem resize_holds_of_not_heap (hok : s.Ok c) (hn : s.length_ ≠ 0) (hh : ¬ s.isHeap c)
    (h : l.Holds F) :
    (resize P c l s n).2.Holds ((resize P c l s n).1.owns c + F) ∧ (resize P c l s n).1.Ok c := by
  have hstay : ∀ hk : s.is_wrap_ = true ∨ n ≤ c.SSO,
      l.Holds ((s.setLength n).owns c + F) ∧ (s.setLength n).Ok c := by
    intro hk
    obtain ⟨hok', hnh⟩ := setLength_ok_of_not_heap hok hn hh hk
    rw [owns_of_not_isHeap hnh, zero_add]
    exact ⟨h, hok'⟩
  cases hw : s.is_wrap_ with
  | true =>
    rw [resize_wrap hn (hok.wrap hw).1 hw]
    split
    · exact hstay (.inl hw)
    · exact ⟨createStr_holds h, createStr_ok⟩
  | false =>
    rw [resize_inline hn hw (not_lt.mp fun hlt => hh ⟨hw, hlt⟩)]
    split
    · rename_i hle
      exact hstay (.inr hle)
    · exact ⟨createStr_holds h, createStr_ok⟩

theorem resize_holds_of_heap (hok : s.Ok c) (hh : s.isHeap c) (h : l.Holds (s.owns c + F)) :
    (resize P c l s n).2.Holds ((resize P c l s n).1.owns c + F) ∧ (resize P c l s n).1.Ok c := by
  obtain ⟨-, off, ht⟩ := hok.heap hh
  rw [resize_heap hh ht]
  rw [owns_text hh ht] at h
  have hlt := hh.2
  split
  · rename_i hgrow
    have hsso : c.SSO < n := by omega
    rw [owns_text (s := s.grown _ n) ⟨hh.1, hsso⟩ rfl]
    refine ⟨reallocate_holds h, fun hw => ?_, fun _ => ⟨le_rfl, _, rfl⟩, fun _ hle _ => ?_⟩
    · exact absurd (hh.1.symm.trans hw) (by simp)
    · exact absurd hle (not_le.mpr hsso)
  · rename_i hgrow
    split
    · exact ⟨free_holds ((createStr_holds h).congr (add_left_comm _ _ _)), createStr_ok⟩
    · rename_i hle
      have hheap' : (s.setLength n).isHeap c := ⟨hh.1, not_le.mp hle⟩
      rw [owns_text hheap' ht]
      exact ⟨h, setLength_ok_of_heap hok hh (not_lt.mp hgrow) (not_le.mp hle)⟩

theorem resize_holds (hok : s.Ok c) (h : l.Holds (s.owns c + F)) :
    (resize P c l s n).2.Holds ((resize P c l s n).1.owns c + F) ∧ (resize P c l s n).1.Ok c := by
  by_cases hn : s.length_ = 0
  · rw [owns_of_not_isHeap (not_isHeap_of_length hn), zero_add] at h
    rw [resize_null hn]
    exact ⟨createStr_holds h, createStr_ok⟩
  · by_cases hh : s.isHeap c
    · exact resize_holds_of_heap hok hh h
    · rw [owns_of_not_isHeap hh, zero_add] at h
      exact resize_holds_of_not_heap hok hn hh h

end Str

/-! ## Strings as elements -/

/-- The arguments of a constructor of strings. -/
inductive StrArgs
  | none
  | length (n : Nat)
  | text (p : CharPtr) (n : Nat)
  deriving DecidableEq

def StrArgs.construct (P : Placement) (c : StringClass) (raw : Str) (l : Heap) (a : Nat) :
    StrArgs → Str × Heap
  | .none => (Str.init raw a, l)
  | .length n => Str.initLength P c l raw a n
  | .text p n => Str.copyOp P c l raw a p n

theorem StrArgs.construct_holds {P : Placement} {c : StringClass} {raw : Str} {l : Heap} {a : Nat}
    {F : Multiset Block} (x : StrArgs) (h : l.Holds F) :
    (x.construct P c raw l a).2.Holds ((x.construct P c raw l a).1.owns c + F) := by
  cases x with
  | none => exact h.congr (by simp only [construct, Str.init, Str.setNull_owns, zero_add])
  | length n => exact Str.initLength_holds h
  | text p n => exact Str.copyOp_holds h

theorem StrArgs.construct_ok {P : Placement} {c : StringClass} {raw : Str} {l : Heap} {a : Nat}
    (x : StrArgs) : (x.construct P c raw l a).1.alloc = a ∧ (x.construct P c raw l a).1.Ok c := by
  cases x with
  | none => exact ⟨rfl, Str.init_ok⟩
  | length n => exact ⟨Str.createStr_alloc, Str.createStr_ok⟩
  | text p n => exact ⟨Str.copyOp_alloc, Str.copyOp_ok⟩

section
variable (P : Placement) (c : StringClass) (raw : Nat → Nat → Str)
  (data : Option Block → Str → CharPtr)

/-- `data` is where a string in a block has its characters, for a copy that wraps them. -/
def elemType : ElemType Str StrArgs where
  pod := false
  raw
  noArgs := .none
  construct l a x := x.construct P c (raw l.calls 0) l a
  copy l a at_ other := Str.copyOp P c l (raw l.calls 0) a (data at_ other) other.length_
  move l a r other := Str.moveCtor P c l r a other
  destroy l s := Str.shmDestroy c l s

def ownership : Ownership (elemType P c raw data) where
  owns s := s.owns c
  Ok a s := s.alloc = a ∧ s.Ok c
  ArgsOk _ := True
  noArgs_ok := trivial
  pod_owns h := by cases h
  pod_ok h := by cases h
  construct_holds _ _ x _ _ h := ⟨x.construct_holds h, x.construct_ok⟩
  copy_holds _ _ _ _ _ _ _ h := ⟨Str.copyOp_holds h, Str.copyOp_alloc, Str.copyOp_ok⟩
  move_holds l a r e F hok h := by
    have hm := Str.moveOp_holds (P := P) (s := { r with alloc := a }) hok.2 h
      fun _ => .inl hok.1.symm
    rw [Str.owns_of_not_isHeap (Str.not_isHeap_of_length Str.moveOp_length), add_zero] at hm
    exact ⟨hm, Str.moveOp_alloc, Str.moveOp_ok hok.2⟩
  destroy_holds _ _ _ _ hok h := Str.shmDestroy_holds hok.2 h

/-- What `data()` gives: the memory that is wrapped, the string itself, in the block it is
in, or its own block. -/
structure IsData : Prop where
  wrap : ∀ at_ s p, c.kWrap = true → s.is_wrap_ = true → s.text = .data p → data at_ s = p
  inline : ∀ b s, s.is_wrap_ = false → s.length_ ≤ c.SSO → (data (some b) s).region = .block b
  heap : ∀ at_ s off, s.isHeap c → s.text = .text off →
    (data at_ s).region = .block (s.alloc, off)

end

end HermesShm.Ipc.HipcString
