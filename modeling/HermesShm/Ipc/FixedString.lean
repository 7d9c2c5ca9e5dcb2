import HermesShm.Ipc.StringCompare

/-! # `chararr_templ`

A string in a buffer of a fixed length. An access outside of `buf_` has no result. -/
namespace HermesShm.Ipc.FixedString
open HermesShm.Ipc.StringCompare

/-- The template parameters. Lengths are `int`. -/
structure Params where
  LENGTH : Nat
  WithNull : Bool
  full_lt : LENGTH + WithNull.toNat < 2 ^ 31

def Params.FULL_LENGTH (p : Params) : Nat := p.LENGTH + p.WithNull.toNat

structure Chararr (p : Params) where
  buf_ : Vector UInt8 p.FULL_LENGTH
  length_ : Int32

/-- Writes the first `n` characters of `src`. -/
def memcpy {m : Nat} (buf_ : Vector UInt8 m) (src : List UInt8) (n : Nat) :
    Option (Vector UInt8 m) :=
  if n ≤ m then some (.ofFn fun i => (src.take n)[i.val]?.getD buf_[i]) else none

/-- `buf_[i] = c`. -/
def put {m : Nat} (buf_ : Vector UInt8 m) (i : Int) (c : UInt8) : Option (Vector UInt8 m) :=
  if h : 0 ≤ i ∧ i.toNat < m then some (buf_.set i.toNat c h.2) else none

/-- Up to `max_len`, the characters before the first zero; behind `data` stands a zero. -/
def strnlen : List UInt8 → Nat → Nat
  | _, 0 => 0
  | [], _ + 1 => 0
  | c :: data, max_len + 1 => if c = 0 then 0 else strnlen data max_len + 1

namespace Chararr
variable {p : Params}

/-- The `int` becomes a `size_t`. -/
def size (c : Chararr p) : Nat := (c.length_.toInt % 2 ^ 64).toNat

def setLength (c : Chararr p) (n : Nat) : Chararr p := { c with length_ := .ofNat n }

/-- The characters and the terminator, for the length already set. -/
def fill (c : Chararr p) (data : List UInt8) (n : Nat) : Option (Chararr p) :=
  (memcpy c.buf_ data n).bind fun buf_ =>
    if p.WithNull then (put buf_ c.length_.toInt 0).map fun buf_ => { c with buf_ }
    else some { c with buf_ }

/-- The constructor from a `const char*`. -/
def ofCStr (raw : Chararr p) (data : Text) : Option (Chararr p) :=
  let c := raw.setLength (strnlen data.data p.LENGTH)
  c.fill data.data c.size

/-- The constructor from a pointer and a length. -/
def ofSized (raw : Chararr p) (data : Text) : Option (Chararr p) :=
  let length := data.data.length
  let c := if p.LENGTH < length then raw.setLength p.LENGTH else raw
  -- what the clamp has set is overwritten
  let c := c.setLength length
  c.fill data.data length

/-- The constructor from a `std::string`. -/
def ofString (raw : Chararr p) (data : Text) : Option (Chararr p) :=
  let c := raw.setLength data.data.length
  c.fill data.data c.size

def resize (c : Chararr p) (new_size : UInt64) : Chararr p := c.setLength new_size.toNat

def ofSize (raw : Chararr p) (size : UInt64) : Chararr p := raw.resize size

/-- What the copy and move constructors and assignments share. -/
def copyFrom (c other : Chararr p) (length_ : Int32) : Option (Chararr p) :=
  let c := { c with length_ }
  c.fill other.buf_.toList c.size

def copy (raw other : Chararr p) : Option (Chararr p) :=
  raw.copyFrom other (.ofNat other.size)

def move (raw other : Chararr p) : Option (Chararr p) := raw.copyFrom other other.length_

/-- For `this != &other`. -/
def copyAssign (c other : Chararr p) : Option (Chararr p) := c.copyFrom other (.ofNat other.size)

/-- For `this != &other`. -/
def moveAssign (c other : Chararr p) : Option (Chararr p) := c.copyFrom other other.length_

end Chararr

/-! ## What a buffer holds -/

/-- `c` holds `text`, of which some characters may be any. -/
structure Holds {p : Params} (c : Chararr p) (text : List (Option UInt8)) : Prop where
  length_ : c.length_.toInt = text.length
  le : text.length ≤ p.LENGTH
  char : ∀ (k : Nat) (b : UInt8), text[k]? = some (some b) → c.buf_[k]? = some b
  null : p.WithNull = true → c.buf_[text.length]? = some 0

/-- The length `n` as an `int` is `n` clamped to `LENGTH`. -/
def Params.Keeps (p : Params) (n : Nat) : Prop := n ≤ p.LENGTH ∨ n % 2 ^ 32 = p.LENGTH

/-- An input clamped to `LENGTH`. -/
def Params.clamp (p : Params) (data : List UInt8) : List (Option UInt8) :=
  (data.take p.LENGTH).map some

/-- A text resized to `n`, clamped to `LENGTH`. -/
def Params.resized (p : Params) (text : List (Option UInt8)) (n : Nat) : List (Option UInt8) :=
  text.take (min n p.LENGTH) ++ List.replicate (min n p.LENGTH - text.length) none

section
variable {m : Nat} {buf_ buf' : Vector UInt8 m} {src : List UInt8} {n k : Nat} {i : Int} {b : UInt8}

theorem memcpy_eq_some (h : memcpy buf_ src n = some buf') :
    n ≤ m ∧ (∀ k, k < n → k < src.length → buf'[k]? = src[k]?) ∧
      ∀ k, n ≤ k → buf'[k]? = buf_[k]? := by
  rw [memcpy] at h
  split at h
  next hn =>
    rw [← Option.some.inj h]
    refine ⟨hn, fun k hk hsrc => ?_, fun k hk => ?_⟩
    · rw [Vector.getElem?_ofFn, dif_pos (by omega), List.getElem?_take_of_lt hk,
        List.getElem?_eq_getElem hsrc, Option.getD_some]
    · have hnone : (src.take n)[k]? = none := by
        rw [List.getElem?_eq_none_iff, List.length_take]
        omega
      rw [Vector.getElem?_ofFn]
      split
      next hm => rw [hnone, Option.getD_none, Vector.getElem?_eq_getElem hm]; rfl
      next hm => rw [Vector.getElem?_eq_none (by omega)]
  next => cases h

theorem memcpy_isSome (h : n ≤ m) : ∃ buf', memcpy buf_ src n = some buf' :=
  ⟨_, if_pos h⟩

theorem put_eq_some (h : put buf_ i b = some buf') :
    0 ≤ i ∧ i.toNat < m ∧ buf'[i.toNat]? = some b ∧
      ∀ k, k ≠ i.toNat → buf'[k]? = buf_[k]? := by
  rw [put] at h
  split at h
  next hi =>
    rw [← Option.some.inj h]
    refine ⟨hi.1, hi.2, Vector.getElem?_set_self hi.2, fun k hk => ?_⟩
    exact Vector.getElem?_set_ne hi.2 (Ne.symm hk)
  next => cases h

theorem put_isSome (h : 0 ≤ i) (h' : i.toNat < m) : ∃ buf', put buf_ i b = some buf' :=
  ⟨_, dif_pos ⟨h, h'⟩⟩

end

namespace Chararr
variable {p : Params} {c c' raw other : Chararr p} {data : List UInt8} {n : Nat}

/-- A call of `fill` that returns stayed within the buffer. -/
theorem fill_eq_some (h : c.fill data n = some c') :
    c'.length_ = c.length_ ∧ n ≤ p.FULL_LENGTH ∧
      (p.WithNull = true → 0 ≤ c.length_.toInt ∧ c.length_.toInt.toNat < p.FULL_LENGTH) := by
  obtain ⟨buf_, hbuf, h⟩ := Option.bind_eq_some_iff.mp h
  refine ⟨?_, (memcpy_eq_some hbuf).1, fun hnull => ?_⟩
  · split at h
    · obtain ⟨buf', -, rfl⟩ := Option.map_eq_some_iff.mp h
      rfl
    · rw [← Option.some.inj h]
  · rw [if_pos hnull] at h
    obtain ⟨buf', hput, -⟩ := Option.map_eq_some_iff.mp h
    exact ⟨(put_eq_some hput).1, (put_eq_some hput).2.1⟩

theorem toInt_ofNat (hn : n ≤ p.LENGTH) : (Int32.ofNat n).toInt = n :=
  Int32.toInt_ofNat_of_lt (by have := p.full_lt; omega)

theorem toInt_ofNat_eq_iff :
    (Int32.ofNat n).toInt = (min n p.LENGTH : Nat) ↔ p.Keeps n := by
  have := p.full_lt
  have hsize : Int32.size = 4294967296 := rfl
  rw [Int32.toInt_ofNat', hsize, Int.bmod_def, Params.Keeps]
  omega

theorem size_of_length (h : c.length_.toInt = n) (hn : n ≤ p.LENGTH) : c.size = n := by
  have := p.full_lt
  rw [size, h]
  omega

/-- A length in bounds is filled, and the terminator stands behind it. -/
theorem fill_isSome (hlen : c.length_.toInt = n) (hn : n ≤ p.LENGTH) (hdata : n ≤ data.length) :
    ∃ c', c.fill data n = some c' ∧ c'.length_ = c.length_ ∧
      (∀ k, k < n → c'.buf_[k]? = data[k]?) ∧ (p.WithNull = true → c'.buf_[n]? = some 0) := by
  have hfull : p.FULL_LENGTH = p.LENGTH + p.WithNull.toNat := rfl
  obtain ⟨buf_, hbuf⟩ : ∃ buf_, memcpy c.buf_ data n = some buf_ := memcpy_isSome (by omega)
  have hchar : ∀ k, k < n → buf_[k]? = data[k]? := fun k hk =>
    (memcpy_eq_some hbuf).2.1 k hk (by omega)
  rw [fill, hbuf, Option.bind_some]
  by_cases hnull : p.WithNull = true
  · obtain ⟨buf', hput⟩ : ∃ buf', put buf_ c.length_.toInt 0 = some buf' := by
      refine put_isSome (by omega) ?_
      rw [hfull, hnull, Bool.toNat_true]
      omega
    obtain ⟨-, -, hzero, hrest⟩ := put_eq_some hput
    rw [hlen, Int.toNat_natCast] at hzero hrest
    rw [if_pos hnull, hput]
    exact ⟨_, rfl, rfl, fun k hk => (hrest k (by omega)).trans (hchar k hk), fun _ => hzero⟩
  · rw [if_neg hnull]
    exact ⟨_, rfl, rfl, hchar, fun h => absurd h hnull⟩

/-- So it holds a text whose known characters are the data's. -/
theorem fill_holds {text : List (Option UInt8)} (hlen : c.length_.toInt = n) (hn : n ≤ p.LENGTH)
    (hdata : n ≤ data.length) (htext : text.length = n)
    (hchar : ∀ (k : Nat) (b : UInt8), text[k]? = some (some b) → data[k]? = some b) :
    ∃ c', c.fill data n = some c' ∧ Holds c' text := by
  obtain ⟨c', hc, hlength, hfill, hnull⟩ := fill_isSome hlen hn hdata
  refine ⟨c', hc, ?_, htext ▸ hn, fun k b hk => ?_, htext ▸ hnull⟩
  · rw [hlength, hlen, htext]
  · have hk' : k < n := by
      rw [← htext]
      exact (List.getElem?_eq_some_iff.mp hk).1
    rw [hfill k hk', hchar k b hk]

theorem length_clamp (p : Params) (data : List UInt8) :
    (p.clamp data).length = min data.length p.LENGTH := by
  rw [Params.clamp, List.length_map, List.length_take, Nat.min_comm]

theorem clamp_getElem? {data : List UInt8} {k : Nat} {b : UInt8}
    (h : (p.clamp data)[k]? = some (some b)) : data[k]? = some b := by
  rw [Params.clamp, List.getElem?_map] at h
  obtain ⟨x, hx, hb⟩ := Option.map_eq_some_iff.mp h
  rw [List.getElem?_take] at hx
  split at hx
  · rw [hx, Option.some.inj hb]
  · cases hx

theorem length_resized (p : Params) (text : List (Option UInt8)) (n : Nat) :
    (p.resized text n).length = min n p.LENGTH := by
  rw [Params.resized, List.length_append, List.length_take, List.length_replicate]
  omega

theorem resized_getElem? {text : List (Option UInt8)} {n k : Nat} {b : UInt8}
    (h : (p.resized text n)[k]? = some (some b)) : text[k]? = some (some b) := by
  rw [Params.resized, List.getElem?_append] at h
  split at h
  · rw [List.getElem?_take] at h
    split at h
    · exact h
    · cases h
  · rw [List.getElem?_replicate] at h
    split at h <;> cases h

/-! ## The entry points -/

theorem strnlen_eq (data : List UInt8) (n : Nat) :
    strnlen data n = min (data.takeWhile (· ≠ 0)).length n := by
  induction n generalizing data with
  | zero => simp [strnlen]
  | succ n ih =>
    cases data with
    | nil => simp [strnlen]
    | cons c data =>
      rw [strnlen, List.takeWhile_cons]
      split
      next hc => simp [hc]
      next hc => simp [hc, ih]

theorem ofCStr_holds (raw : Chararr p) (data : Text) :
    ∃ c', raw.ofCStr data = some c' ∧ Holds c' (p.clamp (data.data.takeWhile (· ≠ 0))) := by
  have hprefix := List.takeWhile_prefix (p := (· ≠ (0 : UInt8))) (l := data.data)
  have hlen := strnlen_eq data.data p.LENGTH
  have hle : strnlen data.data p.LENGTH ≤ p.LENGTH := by omega
  have hlength : (raw.setLength (strnlen data.data p.LENGTH)).length_.toInt =
      strnlen data.data p.LENGTH := toInt_ofNat hle
  rw [ofCStr, size_of_length hlength hle]
  refine fill_holds hlength hle ?_ ?_ fun k b hk => ?_
  · have := hprefix.length_le
    omega
  · rw [length_clamp, hlen]
  · obtain ⟨hlt, hget⟩ := List.getElem?_eq_some_iff.mp (clamp_getElem? hk)
    rw [← hget, hprefix.getElem hlt]
    exact List.getElem?_eq_getElem _

/-- The length kept in 32 bits decides. -/
theorem ofString_iff (raw : Chararr p) (data : Text) :
    (∃ c', raw.ofString data = some c' ∧ Holds c' (p.clamp data.data)) ↔
      p.Keeps data.data.length := by
  constructor
  · rintro ⟨c', hc, hholds⟩
    have hlength := (fill_eq_some hc).1
    rw [← toInt_ofNat_eq_iff, ← length_clamp, ← hholds.length_, hlength]
    rfl
  · intro hkeeps
    have hlength : (raw.setLength data.data.length).length_.toInt =
        (min data.data.length p.LENGTH : Nat) := toInt_ofNat_eq_iff.mpr hkeeps
    rw [ofString, size_of_length hlength (Nat.min_le_right ..)]
    exact fill_holds hlength (Nat.min_le_right ..) (Nat.min_le_left ..) (length_clamp p _)
      fun k b hk => clamp_getElem? hk

/-- `memcpy` is given the length that was not clamped. -/
theorem ofSized_iff (raw : Chararr p) (data : Text) :
    (∃ c', raw.ofSized data = some c' ∧ Holds c' (p.clamp data.data)) ↔
      data.data.length ≤ p.LENGTH := by
  constructor
  · rintro ⟨c', hc, hholds⟩
    obtain ⟨hlength, hfull, -⟩ := fill_eq_some hc
    have hkeeps : p.Keeps data.data.length := by
      rw [← toInt_ofNat_eq_iff, ← length_clamp, ← hholds.length_, hlength]
      rfl
    have := p.full_lt
    rw [Params.FULL_LENGTH] at hfull
    rcases hkeeps with hle | hmod
    · exact hle
    · omega
  · intro hle
    rw [ofSized]
    refine fill_holds (toInt_ofNat hle) hle le_rfl ?_ fun k b hk => clamp_getElem? hk
    rw [length_clamp, Nat.min_eq_left hle]

/-- No byte is written: the terminator has to be there. -/
theorem setLength_iff {text : List (Option UInt8)}
    (hchar : ∀ (k : Nat) (b : UInt8), text[k]? = some (some b) → c.buf_[k]? = some b) (n : Nat) :
    Holds (c.setLength n) (p.resized text n) ↔
      p.Keeps n ∧ (p.WithNull = true → c.buf_[min n p.LENGTH]? = some 0) := by
  have hlength := length_resized p text n
  constructor
  · intro h
    refine ⟨toInt_ofNat_eq_iff.mp ?_, fun hnull => ?_⟩
    · rw [← hlength, ← h.length_]
      rfl
    · rw [← hlength]
      exact h.null hnull
  · intro ⟨hkeeps, hnull⟩
    refine ⟨?_, ?_, fun k b hk => hchar k b (resized_getElem? hk), ?_⟩
    · rw [hlength]
      exact toInt_ofNat_eq_iff.mpr hkeeps
    · rw [hlength]
      exact Nat.min_le_right ..
    · rw [hlength]
      exact hnull

theorem copyFrom_holds {text : List (Option UInt8)} (h : Holds other text) {length_ : Int32}
    (hlen : length_.toInt = text.length) (c : Chararr p) :
    ∃ c', c.copyFrom other length_ = some c' ∧ Holds c' text := by
  have hfull : text.length ≤ p.FULL_LENGTH := by
    have := h.le
    rw [Params.FULL_LENGTH]
    omega
  rw [copyFrom, size_of_length (c := { c with length_ }) hlen h.le]
  refine fill_holds (c := { c with length_ }) hlen h.le ?_ rfl fun k b hk => ?_
  · rw [Vector.length_toList]
    exact hfull
  · rw [Vector.getElem?_toList]
    exact h.char k b hk

end Chararr

section
variable {p : Params} {c : Chararr p} {text : List (Option UInt8)}

theorem Holds.size_eq (h : Holds c text) : c.size = text.length :=
  Chararr.size_of_length h.length_ h.le

/-- The length goes through `size_t` and back. -/
theorem Holds.ofNat_size (h : Holds c text) : (Int32.ofNat c.size).toInt = text.length := by
  rw [h.size_eq]
  exact Chararr.toInt_ofNat h.le

end

/-! ## Comparison -/

/-- What the operators compare. -/
def Chararr.text {p : Params} (c : Chararr p) : Text where
  data := c.buf_.toList.take c.size
  length_lt := by
    have := p.full_lt
    have : c.buf_.toList.length = p.LENGTH + p.WithNull.toNat := Vector.length_toList
    rw [List.length_take]
    omega

/-- A buffer is too short for two lengths to be mistaken. -/
theorem compare_ordered {p : Params} (a b c : Chararr p) : Ordered a.text b.text c.text := by
  have hshort : ∀ c : Chararr p, c.text.data.length < 2 ^ 31 := by
    intro c
    have := p.full_lt
    have : c.buf_.toList.length = p.LENGTH + p.WithNull.toNat := Vector.length_toList
    rw [Chararr.text, List.length_take]
    omega
  exact ordered_of_short (hshort a) (hshort b) (hshort c)

end HermesShm.Ipc.FixedString
