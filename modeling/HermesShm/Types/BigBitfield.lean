import Mathlib.Data.Int.Init
import Mathlib.Data.Nat.Notation
import Mathlib.Tactic.ByContra

/-! # Ranges of a big bitfield

`big_bitfield` of `bitfield.h`, an array of 32-bit words. A range of bits goes over the words
in a loop, which masks each of them by two shifts. A shift of a `u32` by a negative count or
by 32 and more is undefined. -/
namespace HermesShm.Types.BigBitfield

/-- What an implementation makes of a shift that the language leaves undefined. -/
abbrev Undefined := BitVec 32 → ℤ → Option (BitVec 32)

/-! ## A word -/

section
variable (undef : Undefined)

/-- `x << n`. -/
def shiftLeft (x : BitVec 32) (n : ℤ) : Option (BitVec 32) :=
  if 0 ≤ n ∧ n < 32 then some (x <<< n.toNat) else undef x n

def makeMask (start length : ℤ) : Option (BitVec 32) := do
  let ones ← shiftLeft undef 1 length
  shiftLeft undef (ones - 1) start

end

namespace Bitfield

def setBits (bits_ mask : BitVec 32) : BitVec 32 := bits_ ||| mask

def any (bits_ mask : BitVec 32) : BitVec 32 := bits_ &&& mask

def all (bits_ mask : BitVec 32) : BitVec 32 := if any bits_ mask = mask then 1 else 0

end Bitfield

/-! ## The words -/

/-- `LEN::value`. -/
def size (NUM_BITS : ℕ) : ℕ :=
  if NUM_BITS % 32 = 0 ∧ NUM_BITS > 0 then NUM_BITS / 32 else NUM_BITS / 32 + 1

abbrev Words (NUM_BITS : ℕ) := Vector (BitVec 32) (size NUM_BITS)

variable {NUM_BITS : ℕ}

def index (NUM_BITS : ℕ) (bf_idx : ℤ) : Option (Fin (size NUM_BITS)) :=
  if h : 0 ≤ bf_idx ∧ bf_idx.toNat < size NUM_BITS then some ⟨bf_idx.toNat, h.2⟩ else none

/-- `bf_idx_count` after a turn of the loop. -/
def nextCount (rem : ℤ) : ℤ := if rem ≥ 32 then 32 else rem

section
variable (undef : Undefined) {σ : Type}

/-- The `while` loop of the four operations, with `body` what is done to a word. The integers
are `int`s, which do not overflow where `start + length` does not. -/
def loop (body : ℤ → BitVec 32 → σ → Option (ForInStep σ)) (start rem bf_idx bf_idx_count : ℤ)
    (s : σ) : Option σ :=
  if rem = 0 then some s
  else do
    let mask ← makeMask undef start bf_idx_count
    match ← body bf_idx mask s with
    | .done s => some s
    | .yield s =>
      loop body start (rem - bf_idx_count) (bf_idx + 1) (nextCount (rem - bf_idx_count)) s
-- the count is only once not that of `nextCount`, which takes `rem` towards zero
termination_by (if bf_idx_count = nextCount rem then 0 else 1, rem.natAbs)
decreasing_by
  rw [if_pos trivial]
  split
  · refine Prod.Lex.right _ ?_
    unfold nextCount at *
    split at * <;> omega
  · exact Prod.Lex.left _ _ Nat.zero_lt_one

def range (body : ℤ → BitVec 32 → σ → Option (ForInStep σ)) (start length : ℤ) (s : σ) :
    Option σ :=
  let bf_idx := start.tdiv 32
  loop undef body start length bf_idx (32 - bf_idx) s

def setWord (bf_idx : ℤ) (mask : BitVec 32) (bits_ : Words NUM_BITS) :
    Option (ForInStep (Words NUM_BITS)) := do
  let i ← index NUM_BITS bf_idx
  some (.yield (bits_.set i (Bitfield.setBits bits_[i] mask)))

def setBits (bits_ : Words NUM_BITS) (start length : ℤ) : Option (Words NUM_BITS) :=
  range undef setWord start length bits_

/-- The words are set here as well. -/
def unsetBits (bits_ : Words NUM_BITS) (start length : ℤ) : Option (Words NUM_BITS) :=
  range undef setWord start length bits_

def any (bits_ : Words NUM_BITS) (start length : ℤ) : Option Bool :=
  range undef (fun bf_idx mask _ => do
    let i ← index NUM_BITS bf_idx
    some (if Bitfield.any bits_[i] mask ≠ 0 then .done true else .yield false)) start length false

def all (bits_ : Words NUM_BITS) (start length : ℤ) : Option Bool :=
  range undef (fun bf_idx mask _ => do
    let i ← index NUM_BITS bf_idx
    some (if Bitfield.all bits_[i] mask = 0 then .done false else .yield true)) start length true

end

/-! ## What the operations are for -/

def bit (bits_ : Words NUM_BITS) (i : ℕ) : Bool := (bits_[i / 32]?.getD 0).getLsbD (i % 32)

/-- The four operations treat the range as a set of bits. -/
structure Meets (undef : Undefined) (bits_ : Words NUM_BITS) (start length : ℕ) : Prop where
  set : ∃ bits', setBits undef bits_ start length = some bits' ∧ ∀ i, i < 32 * size NUM_BITS →
    bit bits' i = (bit bits_ i || decide (start ≤ i ∧ i < start + length))
  unset : ∃ bits', unsetBits undef bits_ start length = some bits' ∧
    ∀ i, i < 32 * size NUM_BITS →
      bit bits' i = (bit bits_ i && !decide (start ≤ i ∧ i < start + length))
  any : ∃ b, any undef bits_ start length = some b ∧
    (b = true ↔ ∃ i, start ≤ i ∧ i < start + length ∧ bit bits_ i = true)
  all : ∃ b, all undef bits_ start length = some b ∧
    (b = true ↔ ∀ i, start ≤ i → i < start + length → bit bits_ i = true)

variable {undef : Undefined} {bits_ : Words NUM_BITS} {σ : Type}
  {body : ℤ → BitVec 32 → σ → Option (ForInStep σ)} {s : σ}

/-! ## What is handled -/

@[simp] theorem range_zero (start : ℤ) : range undef body start 0 s = some s := by
  unfold range loop
  rw [if_pos rfl]

/-- An empty range is done right. -/
theorem meets_empty (start : ℕ) : Meets undef bits_ start 0 where
  set := by
    refine ⟨bits_, range_zero _, fun i _ => ?_⟩
    rw [decide_eq_false (by omega), Bool.or_false]
  unset := by
    refine ⟨bits_, range_zero _, fun i _ => ?_⟩
    rw [decide_eq_false (by omega), Bool.not_false, Bool.and_true]
  any := ⟨false, range_zero _, ⟨fun h => (nomatch h), fun ⟨i, _, _, _⟩ => by omega⟩⟩
  all := ⟨true, range_zero _, ⟨fun _ i _ _ => by omega, fun _ => rfl⟩⟩

/-- The first mask shifts by 32, or its second shift is one by `start ≥ 32`. -/
theorem makeMask_first (start : ℕ) :
    makeMask (fun _ _ => none) start (32 - (start : ℤ).tdiv 32) = none := by
  have hdiv : (start : ℤ).tdiv 32 = ((start / 32 : ℕ) : ℤ) := rfl
  unfold makeMask
  by_cases hstart : start < 32
  · rw [hdiv, shiftLeft, if_neg (by omega)]
    rfl
  · rw [Option.bind_eq_bind, Option.bind_eq_none_iff]
    intro ones _
    rw [shiftLeft, if_neg (by omega)]

theorem range_undefined (start : ℕ) {length : ℕ} (hlen : length ≠ 0) :
    range (fun _ _ => none) body start length s = none := by
  unfold range loop
  rw [if_neg (by omega), makeMask_first, Option.bind_eq_bind, Option.bind_none]

/-- **Only the empty range is handled.** Whatever an implementation makes of the shifts that
are undefined, the operations do what they are for: so it is where `length = 0`, and nowhere
else. -/
theorem meets_iff (bits_ : Words NUM_BITS) (start length : ℕ) :
    (∀ undef, Meets undef bits_ start length) ↔ length = 0 := by
  constructor
  · intro h
    by_contra hlen
    obtain ⟨bits', he, -⟩ := (h fun _ _ => none).set
    rw [setBits, range_undefined start hlen] at he
    cases he
  · rintro rfl undef
    exact meets_empty start

/-- The count of a shift is taken modulo 32. -/
def shiftMod : Undefined := fun x n => some (x <<< (n % 32).toNat)

theorem loop_turn {start rem bf_idx bf_idx_count : ℤ} {mask : BitVec 32} {s' : σ}
    (hrem : rem ≠ 0) (hmask : makeMask undef start bf_idx_count = some mask)
    (hbody : body bf_idx mask s = some (.yield s')) :
    loop undef body start rem bf_idx bf_idx_count s = loop undef body start
      (rem - bf_idx_count) (bf_idx + 1) (nextCount (rem - bf_idx_count)) s' := by
  rw [loop, if_neg hrem, hmask, Option.bind_eq_bind, Option.bind_some, hbody, Option.bind_eq_bind,
    Option.bind_some]

/-- The first five bits of 64 are asked for, and those of the second word are set. -/
theorem setBits_wrong_word :
    setBits shiftMod (.replicate (size 64) 0) 0 5 = some #v[0, 31] ∧
      ¬ Meets shiftMod (.replicate (size 64) 0) 0 5 := by
  have hfirst : makeMask shiftMod 0 32 = some 0 := by decide
  have hsecond : makeMask shiftMod 0 (-27) = some 31 := by decide
  have hset : setBits shiftMod (.replicate (size 64) 0) 0 5 = some #v[0, 31] := by
    change loop shiftMod setWord 0 5 0 32 (Vector.replicate (size 64) 0) = _
    refine (loop_turn (by decide) hfirst rfl).trans ?_
    refine (loop_turn (by decide) hsecond rfl).trans ?_
    exact (loop.eq_1 ..).trans (if_pos rfl)
  refine ⟨hset, fun h => ?_⟩
  obtain ⟨bits', he, hbits⟩ := h.set
  cases hset.symm.trans he
  exact absurd (hbits 0 (by decide)) (by decide)

end HermesShm.Types.BigBitfield
