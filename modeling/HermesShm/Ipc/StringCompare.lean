import HermesShm.Base.Word
import Mathlib.Data.List.Lex
import Mathlib.Data.Prod.Lex
import Mathlib.Data.UInt

/-! # Comparison and hash of strings

The six operators of `string_templ` and of `chararr_templ` rest on one `strncmp`. -/
namespace HermesShm.Ipc.StringCompare
open HermesShm.Base

/-- A string as `data()` and `size()` give it. -/
@[ext]
structure Text where
  data : List UInt8
  length_lt : data.length < 2 ^ 64

def Text.size (t : Text) : UInt64 := .ofNat t.data.length

/-- A `char` is signed; in an operation it is an `int`. -/
def promote (c : UInt8) : Int32 := c.toInt8.toInt32

/-- The loop of `strncmp`, over texts of one length. -/
def strncmpLoop : List UInt8 → List UInt8 → Int32
  | x :: a, y :: b => if x ≠ y then promote x - promote y else strncmpLoop a b
  | _, _ => 0

def strncmp (a : List UInt8) (len_a : UInt64) (b : List UInt8) (len_b : UInt64) : Int32 :=
  -- `int(..)` keeps 32 bits of the 64-bit difference
  if len_a ≠ len_b then (len_a.toInt64 - len_b.toInt64).toInt32
  else strncmpLoop a b

/-- The loop of `string_hash` from index `i` on. -/
def stringHashLoop (i : Nat) (sum : UInt64) : List UInt8 → UInt64
  | [] => sum
  | c :: text =>
    let shift := UInt64.ofNat (i % 8)
    stringHashLoop (i + 1) (31 * sum + (c.toUInt64 <<< shift)) text

namespace Text

def hash (t : Text) : UInt64 := stringHashLoop 0 0 t.data

/-- `HSHM_STR_CMP_OPERATOR(op)`. -/
def cmpOperator (op : Int32 → Int32 → Bool) (a b : Text) : Bool :=
  op (strncmp a.data a.size b.data b.size) 0

def eq (a b : Text) : Bool := cmpOperator (fun x y => x == y) a b
def ne (a b : Text) : Bool := cmpOperator (fun x y => x != y) a b
def lt (a b : Text) : Bool := cmpOperator (fun x y => decide (x < y)) a b
def gt (a b : Text) : Bool := cmpOperator (fun x y => decide (x > y)) a b
def le (a b : Text) : Bool := cmpOperator (fun x y => decide (x ≤ y)) a b
def ge (a b : Text) : Bool := cmpOperator (fun x y => decide (x ≥ y)) a b

/-! ## The operators read the sign -/

/-- The value of `strncmp`. -/
def value (a b : Text) : ℤ := (strncmp a.data a.size b.data b.size).toInt

variable {a b c : Text}

theorem eq_iff_value : a.eq b = true ↔ a.value b = 0 := by
  rw [eq, cmpOperator, beq_iff_eq, ← Int32.toInt_inj]; rfl

theorem lt_iff_value : a.lt b = true ↔ a.value b < 0 := by
  rw [lt, cmpOperator, decide_eq_true_iff, Int32.lt_iff_toInt_lt]; rfl

theorem gt_iff_value : a.gt b = true ↔ 0 < a.value b := by
  rw [gt, cmpOperator, decide_eq_true_iff, gt_iff_lt, Int32.lt_iff_toInt_lt]; rfl

theorem le_iff_value : a.le b = true ↔ a.value b ≤ 0 := by
  rw [le, cmpOperator, decide_eq_true_iff, Int32.le_iff_toInt_le]; rfl

theorem ge_iff_value : a.ge b = true ↔ 0 ≤ a.value b := by
  rw [ge, cmpOperator, decide_eq_true_iff, ge_iff_le, Int32.le_iff_toInt_le]; rfl

theorem ne_eq_not : a.ne b = !a.eq b := rfl

end Text

/-! ## Texts of one length -/

/-- The number a `char` is. -/
def charValue (c : UInt8) : ℤ := c.toInt8.toInt

theorem charValue_injective : Function.Injective charValue := by
  intro x y h
  have h := congrArg Int8.toUInt8 (Int8.toInt_inj.mp h)
  simpa using h

theorem toInt_promote_sub (x y : UInt8) :
    (promote x - promote y).toInt = charValue x - charValue y := by
  have hx := x.toInt8.le_toInt
  have hx' := x.toInt8.toInt_lt
  have hy := y.toInt8.le_toInt
  have hy' := y.toInt8.toInt_lt
  rw [Int32.toInt_sub, promote, promote, Int8.toInt_toInt32, Int8.toInt_toInt32]
  exact Int.bmod_eq_of_le (by omega) (by omega)

theorem strncmpLoop_eq_zero : ∀ {a b : List UInt8}, a.length = b.length →
    ((strncmpLoop a b).toInt = 0 ↔ a = b)
  | [], [], _ => by simp [strncmpLoop]
  | x :: a, y :: b, h => by
    rw [strncmpLoop]
    split
    next hne =>
      rw [toInt_promote_sub, sub_eq_zero, charValue_injective.eq_iff]
      simp [hne]
    next heq =>
      rw [strncmpLoop_eq_zero (Nat.succ.inj h)]
      simp [Decidable.not_not.mp heq]

/-- The first characters that differ decide, as in the lexicographic order. -/
theorem strncmpLoop_neg : ∀ {a b : List UInt8}, a.length = b.length →
    ((strncmpLoop a b).toInt < 0 ↔ a.map charValue < b.map charValue)
  | [], [], _ => by simp [strncmpLoop]
  | x :: a, y :: b, h => by
    rw [strncmpLoop, List.map_cons, List.map_cons, List.cons_lt_cons_iff]
    split
    next hne =>
      have hne : charValue x ≠ charValue y := fun he => hne (charValue_injective he)
      rw [toInt_promote_sub, sub_neg]
      simp [hne]
    next heq =>
      rw [strncmpLoop_neg (Nat.succ.inj h)]
      simp [Decidable.not_not.mp heq]

theorem strncmpLoop_swap : ∀ a b : List UInt8, (strncmpLoop a b).toInt = -(strncmpLoop b a).toInt
  | [], _ => by cases ‹List UInt8› <;> rfl
  | _ :: _, [] => rfl
  | x :: a, y :: b => by
    rw [strncmpLoop, strncmpLoop]
    by_cases heq : x = y
    · rw [if_neg (not_not.mpr heq), if_neg (not_not.mpr heq.symm)]
      exact strncmpLoop_swap a b
    · rw [if_pos heq, if_pos (Ne.symm heq), toInt_promote_sub, toInt_promote_sub, neg_sub]

/-! ## Texts of any lengths -/

namespace Text
variable {a b : Text}

theorem size_inj : a.size = b.size ↔ a.data.length = b.data.length := by
  rw [size, size, ← UInt64.toNat_inj, UInt64.toNat_ofNat_of_lt' a.length_lt,
    UInt64.toNat_ofNat_of_lt' b.length_lt]

theorem value_of_length_ne (h : a.data.length ≠ b.data.length) :
    a.value b = ((a.data.length : ℤ) - b.data.length).bmod (2 ^ 32) := by
  rw [value, strncmp, if_pos (mt size_inj.mp h), Int64.toInt_toInt32, Int64.toInt_sub,
    Int.bmod_bmod_of_dvd (by decide), size, size, UInt64.toInt64_ofNat', UInt64.toInt64_ofNat',
    Int64.toInt_ofNat', Int64.toInt_ofNat']
  have hdvd : (2 ^ 32 : ℕ) ∣ Int64.size := by decide
  rw [← Int.bmod_sub_bmod, Int.bmod_bmod_of_dvd hdvd, Int.bmod_sub_bmod, ← Int.sub_bmod_bmod,
    Int.bmod_bmod_of_dvd hdvd, Int.sub_bmod_bmod]

theorem value_of_length_eq (h : a.data.length = b.data.length) :
    a.value b = (strncmpLoop a.data b.data).toInt := by
  rw [value, strncmp, if_neg (not_not.mpr (size_inj.mpr h))]

/-- How far the length of `b` is ahead of that of `a`, in 32 bits. -/
def ahead (a b : Text) : ℤ := ((b.data.length : ℤ) - a.data.length) % 2 ^ 32

theorem ahead_of_length_eq (h : a.data.length = b.data.length) : a.ahead b = 0 := by
  rw [ahead, h, Int.sub_self, Int.zero_emod]

/-- Lengths within one half of the 32-bit circle compare by how far along it they are. -/
theorem value_eq_ahead {o : Text} (h : a.data.length ≠ b.data.length)
    (ha : o.ahead a < 2 ^ 31) (hb : o.ahead b < 2 ^ 31) : a.value b = o.ahead a - o.ahead b := by
  rw [value_of_length_ne h]
  exact bmod_sub_of_halfTurn (by decide) (by unfold ahead at ha; omega)
    (by unfold ahead at hb; omega)

end Text

/-! ## The order -/

/-- The comparison of three strings: a total order, with the six operators, equality and the
hash in agreement. -/
structure Ordered (x y z : Text) : Prop where
  one : (x.lt y = true ∧ x.eq y = false ∧ x.gt y = false) ∨
    (x.lt y = false ∧ x.eq y = true ∧ x.gt y = false) ∨
    (x.lt y = false ∧ x.eq y = false ∧ x.gt y = true)
  gt_iff : x.gt y = true ↔ y.lt x = true
  lt_trans : x.lt y = true → y.lt z = true → x.lt z = true
  le_iff : x.le y = true ↔ x.lt y = true ∨ x.eq y = true
  ge_iff : x.ge y = true ↔ x.gt y = true ∨ x.eq y = true
  ne_iff : x.ne y = true ↔ ¬ x.eq y = true
  eq_iff : x.eq y = true ↔ x.data = y.data
  hash_eq : x.eq y = true → x.hash = y.hash

/-- Strings whose lengths are told apart by 32 bits and lie within half of their circle. -/
structure Fits (S : List Text) : Prop where
  apart : ∀ x ∈ S, ∀ y ∈ S, x.data.length ≠ y.data.length → x.ahead y ≠ 0
  near : ∃ o ∈ S, ∀ x ∈ S, o.ahead x < 2 ^ 31

namespace Text
variable {o a b c : Text}

/-- Exactly one of the three signs. -/
theorem one_of_value :
    (a.lt b = true ∧ a.eq b = false ∧ a.gt b = false) ∨
      (a.lt b = false ∧ a.eq b = true ∧ a.gt b = false) ∨
      (a.lt b = false ∧ a.eq b = false ∧ a.gt b = true) := by
  simp only [← Bool.not_eq_true, lt_iff_value, eq_iff_value, gt_iff_value]
  rcases lt_trichotomy (a.value b) 0 with h | h | h
  · exact .inl ⟨h, h.ne, h.le.not_gt⟩
  · exact .inr (.inl ⟨h.not_lt, h, h.not_gt⟩)
  · exact .inr (.inr ⟨h.le.not_gt, h.ne', h⟩)

/-- Where a string stands: how far its length is ahead of that of `o`, then its characters. -/
def key (o t : Text) : ℤ ×ₗ List ℤ := toLex (o.ahead t, t.data.map charValue)

/-- `a` and `b` are less than half a turn ahead of `o`, at two places if their lengths differ. -/
structure Placed (o a b : Text) : Prop where
  left : o.ahead a < 2 ^ 31
  right : o.ahead b < 2 ^ 31
  apart : a.data.length ≠ b.data.length → a.ahead b ≠ 0

theorem Placed.ahead_ne (h : Placed o a b) (hne : a.data.length ≠ b.data.length) :
    o.ahead a ≠ o.ahead b := by
  have := h.apart hne
  unfold ahead at this ⊢
  omega

theorem Placed.value_eq_zero (h : Placed o a b) : a.value b = 0 ↔ a.data = b.data := by
  by_cases hl : a.data.length = b.data.length
  · rw [value_of_length_eq hl, strncmpLoop_eq_zero hl]
  · rw [value_eq_ahead hl h.left h.right, sub_eq_zero]
    exact iff_of_false (h.ahead_ne hl) fun he => hl (congrArg List.length he)

theorem Placed.value_swap (h : Placed o a b) : a.value b = -b.value a := by
  by_cases hl : a.data.length = b.data.length
  · rw [value_of_length_eq hl, value_of_length_eq hl.symm, strncmpLoop_swap]
  · rw [value_eq_ahead hl h.left h.right, value_eq_ahead (Ne.symm hl) h.right h.left, neg_sub]

theorem Placed.value_neg (h : Placed o a b) : a.value b < 0 ↔ key o a < key o b := by
  rw [Prod.Lex.lt_iff]
  change _ ↔ o.ahead a < o.ahead b ∨ o.ahead a = o.ahead b ∧
    a.data.map charValue < b.data.map charValue
  by_cases hl : a.data.length = b.data.length
  · have he : o.ahead a = o.ahead b := by rw [ahead, ahead, hl]
    rw [value_of_length_eq hl, strncmpLoop_neg hl, he]
    simp
  · rw [value_eq_ahead hl h.left h.right, sub_neg]
    simp [h.ahead_ne hl]

end Text

theorem Fits.ordered {S : List Text} (hS : Fits S) {x y z : Text} (hx : x ∈ S) (hy : y ∈ S)
    (hz : z ∈ S) : Ordered x y z := by
  obtain ⟨o, -, ho⟩ := hS.near
  have placed : ∀ {a b}, a ∈ S → b ∈ S → Text.Placed o a b :=
    fun ha hb => ⟨ho _ ha, ho _ hb, hS.apart _ ha _ hb⟩
  have heq : x.eq y = true ↔ x.data = y.data := by
    rw [Text.eq_iff_value, (placed hx hy).value_eq_zero]
  refine ⟨Text.one_of_value, ?_, ?_, ?_, ?_, ?_, heq, ?_⟩
  · rw [Text.gt_iff_value, Text.lt_iff_value, (placed hx hy).value_swap, neg_pos]
  · rw [Text.lt_iff_value, Text.lt_iff_value, Text.lt_iff_value, (placed hx hy).value_neg,
      (placed hy hz).value_neg, (placed hx hz).value_neg]
    exact lt_trans
  · rw [Text.le_iff_value, Text.lt_iff_value, Text.eq_iff_value, le_iff_lt_or_eq]
  · rw [Text.ge_iff_value, Text.gt_iff_value, Text.eq_iff_value, le_iff_lt_or_eq, eq_comm]
  · rw [Text.ne_eq_not, Bool.not_eq_true', Bool.not_eq_true]
  · intro h
    rw [Text.hash, Text.hash, heq.mp h]

/-! ### Strings in order fit -/

/-- Among finitely many there is a first one. -/
theorem exists_first {α : Type*} {r : α → α → Prop} (refl : ∀ x, r x x) (a : α) (S : List α)
    (total : ∀ x ∈ a :: S, ∀ y ∈ a :: S, r x y ∨ r y x)
    (trans : ∀ x ∈ a :: S, ∀ y ∈ a :: S, ∀ z ∈ a :: S, r x y → r y z → r x z) :
    ∃ o ∈ a :: S, ∀ x ∈ a :: S, r o x := by
  induction S generalizing a with
  | nil => exact ⟨a, List.mem_singleton_self a, fun x hx => List.mem_singleton.mp hx ▸ refl a⟩
  | cons b S ih =>
    have tail : ∀ {x}, x ∈ b :: S → x ∈ a :: b :: S := List.mem_cons_of_mem a
    obtain ⟨o, ho, hfirst⟩ := ih b (fun x hx y hy => total x (tail hx) y (tail hy))
      fun x hx y hy z hz => trans x (tail hx) y (tail hy) z (tail hz)
    have ha : a ∈ a :: b :: S := List.mem_cons_self
    rcases total a ha o (tail ho) with h | h
    · refine ⟨a, ha, fun x hx => ?_⟩
      rcases List.mem_cons.mp hx with rfl | hx
      · exact refl _
      · exact trans a ha o (tail ho) x (tail hx) h (hfirst x hx)
    · refine ⟨o, tail ho, fun x hx => ?_⟩
      rcases List.mem_cons.mp hx with rfl | hx
      · exact h
      · exact hfirst x hx

namespace Text
variable {a b c : Text}

theorem value_self (a : Text) : a.value a = 0 := by
  rw [value_of_length_eq rfl]
  exact (strncmpLoop_eq_zero rfl).mpr rfl

/-- Lengths that 32 bits do not tell apart compare as equal. -/
theorem value_of_ahead_eq_zero (h : a.data.length ≠ b.data.length) (h₀ : a.ahead b = 0) :
    a.value b = 0 := by
  rw [value_of_length_ne h, Int.bmod_def]
  unfold ahead at h₀
  omega

/-- Half a turn ahead, each of the two strings compares below the other. -/
theorem value_neg_of_halfTurn (h : a.ahead b = 2 ^ 31) : a.value b < 0 ∧ b.value a < 0 := by
  have hne : a.data.length ≠ b.data.length := fun he => by
    rw [ahead_of_length_eq he] at h
    omega
  rw [value_of_length_ne hne, value_of_length_ne hne.symm, Int.bmod_def, Int.bmod_def]
  unfold ahead at h
  omega

theorem ahead_le_of_value (h : a.value b ≤ 0) : a.ahead b ≤ 2 ^ 31 := by
  by_cases hl : a.data.length = b.data.length
  · rw [ahead_of_length_eq hl]
    omega
  · rw [value_of_length_ne hl, Int.bmod_def] at h
    unfold ahead
    omega

end Text

namespace Ordered
variable {x y z : Text}

theorem value_swap (h : Ordered x y z) : 0 < x.value y ↔ y.value x < 0 := by
  rw [← Text.gt_iff_value, ← Text.lt_iff_value]
  exact h.gt_iff

theorem value_trans (h : Ordered x y z) (h' : Ordered y z x) (hxy : x.value y ≤ 0)
    (hyz : y.value z ≤ 0) : x.value z ≤ 0 := by
  rcases hxy.lt_or_eq with hlt | heq
  · rcases hyz.lt_or_eq with hlt' | heq'
    · have := h.lt_trans (Text.lt_iff_value.mpr hlt) (Text.lt_iff_value.mpr hlt')
      exact (Text.lt_iff_value.mp this).le
    · have := Text.ext (h'.eq_iff.mp (Text.eq_iff_value.mpr heq'))
      exact this ▸ hxy
  · have := Text.ext (h.eq_iff.mp (Text.eq_iff_value.mpr heq))
    exact this ▸ hyz

theorem apart (h : Ordered x y z) (hl : x.data.length ≠ y.data.length) : x.ahead y ≠ 0 := by
  intro h₀
  have heq := Text.eq_iff_value.mpr (Text.value_of_ahead_eq_zero hl h₀)
  exact hl (congrArg List.length (h.eq_iff.mp heq))

theorem ahead_lt (h : Ordered x y z) (hxy : x.value y ≤ 0) : x.ahead y < 2 ^ 31 := by
  refine lt_of_le_of_ne (Text.ahead_le_of_value hxy) fun hhalf => ?_
  have hneg := Text.value_neg_of_halfTurn hhalf
  exact absurd (h.value_swap.mpr hneg.2) hneg.1.le.not_gt

end Ordered

theorem fits_of_ordered {a : Text} {S : List Text}
    (h : ∀ x ∈ a :: S, ∀ y ∈ a :: S, ∀ z ∈ a :: S, Ordered x y z) : Fits (a :: S) where
  apart x hx y hy := (h x hx y hy y hy).apart
  near := by
    have total : ∀ x ∈ a :: S, ∀ y ∈ a :: S, x.value y ≤ 0 ∨ y.value x ≤ 0 := by
      intro x hx y hy
      rcases le_or_gt (x.value y) 0 with hle | hgt
      · exact .inl hle
      · exact .inr ((h x hx y hy y hy).value_swap.mp hgt).le
    obtain ⟨o, ho, hfirst⟩ := exists_first (r := fun x y => x.value y ≤ 0)
      (fun x => (Text.value_self x).le) a S total fun x hx y hy z hz =>
        (h x hx y hy z hz).value_trans (h y hy z hz x hx)
    exact ⟨o, ho, fun x hx => (h o ho x hx x hx).ahead_lt (hfirst x hx)⟩

/-- The comparison orders strings exactly where 32 bits of their lengths do. -/
theorem totally_ordered_iff (a : Text) (S : List Text) :
    (∀ x ∈ a :: S, ∀ y ∈ a :: S, ∀ z ∈ a :: S, Ordered x y z) ↔ Fits (a :: S) :=
  ⟨fits_of_ordered, fun hS _ hx _ hy _ hz => hS.ordered hx hy hz⟩

/-- The empty string and one of `2 ^ 32` characters compare equal. -/
theorem long_eq_empty :
    ¬ ∀ x y z : Text, Ordered x y z := by
  intro h
  have hlong : (List.replicate (2 ^ 32) (0 : UInt8)).length = 2 ^ 32 := List.length_replicate
  let empty : Text := ⟨[], by decide⟩
  let long : Text := ⟨List.replicate (2 ^ 32) 0, by rw [hlong]; decide⟩
  have hne : empty.data.length ≠ long.data.length := by
    change 0 ≠ (List.replicate (2 ^ 32) (0 : UInt8)).length
    rw [hlong]
    decide
  refine (h empty long long).apart hne ?_
  change (((List.replicate (2 ^ 32) (0 : UInt8)).length : ℤ) - 0) % 2 ^ 32 = 0
  rw [hlong]
  decide

/-- Strings of less than `2 ^ 31` characters, as every `chararr_templ` holds, are in order. -/
theorem ordered_of_short {x y z : Text} (hx : x.data.length < 2 ^ 31)
    (hy : y.data.length < 2 ^ 31) (hz : z.data.length < 2 ^ 31) : Ordered x y z := by
  have hshort : ∀ t ∈ [x, y, z], t.data.length < 2 ^ 31 := by
    intro t ht
    simp only [List.mem_cons, List.not_mem_nil, or_false] at ht
    rcases ht with rfl | rfl | rfl
    · exact hx
    · exact hy
    · exact hz
  obtain ⟨o, ho, hfirst⟩ := exists_first
    (r := fun a b : Text => a.data.length ≤ b.data.length) (fun _ => le_rfl) x [y, z]
    (fun _ _ _ _ => le_total _ _) fun _ _ _ _ _ _ => le_trans
  have hfits : Fits [x, y, z] := by
    refine ⟨fun a ha b hb hne => ?_, o, ho, fun a ha => ?_⟩
    · have := hshort a ha
      have := hshort b hb
      unfold Text.ahead
      omega
    · have := hshort a ha
      have := hfirst a ha
      unfold Text.ahead
      omega
  exact hfits.ordered (by simp) (by simp) (by simp)

end HermesShm.Ipc.StringCompare
