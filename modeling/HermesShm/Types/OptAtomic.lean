import HermesShm.Base.Lockstep
import Mathlib.Data.Nat.Notation

/-! # Atomic and nonatomic integers

`nonatomic` and `std_atomic` of `atomic.h`, between which a template flag chooses, as one
thread uses them. The count of an operation is of the type of the value. -/
namespace HermesShm.Types.OptAtomic
open HermesShm.Base

/-! ## Integers -/

/-- An integer type. -/
structure IntType where
  width : ℕ
  isSigned : Bool

abbrev IntType.Value (T : IntType) := BitVec T.width

/-- `T` is not promoted to a wider type, and a signed one does not wrap. -/
def IntType.mayOverflow (T : IntType) : Bool := T.isSigned && decide (32 ≤ T.width)

def IntType.addOverflows (T : IntType) (x count : T.Value) : Bool :=
  T.mayOverflow && x.saddOverflow count

def IntType.subOverflows (T : IntType) (x count : T.Value) : Bool :=
  T.mayOverflow && x.ssubOverflow count

variable {T : IntType}

/-! ## Operations -/

inductive Op (T : IntType) where
  | load
  | assign (count : T.Value)
  | exchange (count : T.Value)
  | fetchAdd (count : T.Value)
  | fetchSub (count : T.Value)
  | increment
  | decrement
  | addAssign (count : T.Value)
  | subAssign (count : T.Value)
  | andAssign (count : T.Value)
  | orAssign (count : T.Value)
  | xorAssign (count : T.Value)
  | compareExchangeWeak (expected desired : T.Value)
  | compareExchangeStrong (expected desired : T.Value)

/-- What a call returns, with `expected` as it is left. A reference to the object counts as
the value that it holds. -/
inductive Result (T : IntType) where
  | void
  | value (x : T.Value)
  | flag (success : Bool) (expected : T.Value)
deriving DecidableEq

/-- The value after a call, and its result. There is none where a signed addition
overflows. -/
abbrev Outcome (T : IntType) := Option (T.Value × Result T)

namespace Nonatomic

def add (x count : T.Value) : Option T.Value :=
  if T.addOverflows x count then none else some (x + count)

def sub (x count : T.Value) : Option T.Value :=
  if T.subOverflows x count then none else some (x - count)

/-- The `expected` value is not looked at. -/
def compareExchange (expected desired : T.Value) : Outcome T := some (desired, .flag true expected)

def step (x : T.Value) : Op T → Outcome T
  | .load => some (x, .value x)
  | .assign count => some (count, .value count)
  | .exchange count => some (count, .void)
  | .fetchAdd count => do
    let orig_x := x
    let x ← add x count
    some (x, .value orig_x)
  | .fetchSub count => do
    let orig_x := x
    let x ← sub x count
    some (x, .value orig_x)
  | .increment => do
    let x ← add x 1
    some (x, .value x)
  | .decrement => do
    let x ← sub x 1
    some (x, .value x)
  | .addAssign count => do
    let x ← add x count
    some (x, .value x)
  | .subAssign count => do
    let x ← sub x count
    some (x, .value x)
  | .andAssign count => some (x &&& count, .value (x &&& count))
  | .orAssign count => some (x ||| count, .value (x ||| count))
  | .xorAssign count => some (x ^^^ count, .value (x ^^^ count))
  | .compareExchangeWeak expected desired => compareExchange expected desired
  | .compareExchangeStrong expected desired => compareExchange expected desired

end Nonatomic

namespace StdAtomic

/-- That of `std::atomic`; the weak one does not fail for no reason. -/
def compareExchange (x expected desired : T.Value) : T.Value × Result T :=
  if x = expected then (desired, .flag true expected) else (x, .flag false x)

/-- The arithmetic of `std::atomic` wraps. -/
def step (x : T.Value) : Op T → T.Value × Result T
  | .load => (x, .value x)
  | .assign count => (count, .value count)
  | .exchange count => (count, .void)
  | .fetchAdd count => (x + count, .value x)
  | .fetchSub count => (x - count, .value x)
  | .increment => (x + 1, .value (x + 1))
  | .decrement => (x - 1, .value (x - 1))
  | .addAssign count => (x + count, .value (x + count))
  | .subAssign count => (x - count, .value (x - count))
  | .andAssign count => (x &&& count, .value (x &&& count))
  | .orAssign count => (x ||| count, .value (x ||| count))
  | .xorAssign count => (x ^^^ count, .value (x ^^^ count))
  | .compareExchangeWeak expected desired => compareExchange x expected desired
  | .compareExchangeStrong expected desired => compareExchange x expected desired

end StdAtomic

/-- `opt_atomic`. -/
def optStep (is_atomic : Bool) (x : T.Value) (op : Op T) : Outcome T :=
  if is_atomic then some (StdAtomic.step x op) else Nonatomic.step x op

/-! ## Offset pointers -/

def size_t : IntType := ⟨64, false⟩

inductive PointerOp where
  | load
  | exchange (count : size_t.Value)
  | compareExchangeWeak (expected desired : size_t.Value)
  | compareExchangeStrong (expected desired : size_t.Value)
  | addAssign (count : size_t.Value)
  | subAssign (count : size_t.Value)
  | increment
  | decrement
  | assign (count : size_t.Value)

/-- What is done to `off_`. The strong exchange calls the weak one. -/
def PointerOp.off : PointerOp → Op size_t
  | .load => .load
  | .exchange count => .exchange count
  | .compareExchangeWeak expected desired => .compareExchangeWeak expected desired
  | .compareExchangeStrong expected desired => .compareExchangeWeak expected desired
  | .addAssign count => .addAssign count
  | .subAssign count => .subAssign count
  | .increment => .increment
  | .decrement => .decrement
  | .assign count => .assign count

/-- `OffsetPointer`, or `AtomicOffsetPointer`. -/
def offsetPointerStep (is_atomic : Bool) (off_ : size_t.Value) (op : PointerOp) : Outcome size_t :=
  optStep is_atomic off_ op.off

/-! ## One step -/

/-- What is asked of an operation: an exchange finds what it expects, and a signed addition
does not overflow. -/
def Met (x : T.Value) : Op T → Prop
  | .fetchAdd count => T.addOverflows x count = false
  | .fetchSub count => T.subOverflows x count = false
  | .increment => T.addOverflows x 1 = false
  | .decrement => T.subOverflows x 1 = false
  | .addAssign count => T.addOverflows x count = false
  | .subAssign count => T.subOverflows x count = false
  | .compareExchangeWeak expected _ => x = expected
  | .compareExchangeStrong expected _ => x = expected
  | _ => True

variable {x : T.Value} {ops : List (Op T)}

/-- What is done unless it overflows is done exactly where it does not. -/
theorem unless_iff {overflows : Bool} (y : T.Value) (r : T.Value → T.Value × Result T) :
    ((if overflows = true then none else some y).bind fun y => some (r y)) = some (r y) ↔
      overflows = false := by
  cases overflows with
  | false => exact iff_of_true rfl rfl
  | true => exact iff_of_false nofun nofun

theorem add_iff (count : T.Value) (r : T.Value → T.Value × Result T) :
    ((Nonatomic.add x count).bind fun y => some (r y)) = some (r (x + count)) ↔
      T.addOverflows x count = false := unless_iff (x + count) r

theorem sub_iff (count : T.Value) (r : T.Value → T.Value × Result T) :
    ((Nonatomic.sub x count).bind fun y => some (r y)) = some (r (x - count)) ↔
      T.subOverflows x count = false := unless_iff (x - count) r

/-- An exchange that does not find what it expects says so where it is atomic. -/
theorem compareExchange_iff (expected desired : T.Value) :
    Nonatomic.compareExchange expected desired =
      some (StdAtomic.compareExchange x expected desired) ↔ x = expected := by
  unfold Nonatomic.compareExchange StdAtomic.compareExchange
  split
  · rename_i h
    exact iff_of_true rfl h
  · rename_i h
    refine iff_of_false (fun he => ?_) h
    cases he

/-- The two take the same step exactly where what is asked of it is met. -/
theorem step_eq_iff (x : T.Value) (op : Op T) :
    Nonatomic.step x op = some (StdAtomic.step x op) ↔ Met x op := by
  cases op with
  | fetchAdd count => exact add_iff count fun y => (y, .value x)
  | fetchSub count => exact sub_iff count fun y => (y, .value x)
  | increment => exact add_iff 1 fun y => (y, .value y)
  | decrement => exact sub_iff 1 fun y => (y, .value y)
  | addAssign count => exact add_iff count fun y => (y, .value y)
  | subAssign count => exact sub_iff count fun y => (y, .value y)
  | compareExchangeWeak expected desired => exact compareExchange_iff expected desired
  | compareExchangeStrong expected desired => exact compareExchange_iff expected desired
  | _ => exact iff_of_true rfl trivial

/-! ## Runs -/

/-- The two have the same values after every operation, and the same results. -/
def Agree (x : T.Value) (ops : List (Op T)) : Prop :=
  trace (optStep false) x ops = trace (optStep true) x ops

def PointersAgree (off_ : size_t.Value) (ops : List PointerOp) : Prop :=
  trace (offsetPointerStep false) off_ ops = trace (offsetPointerStep true) off_ ops

/-- **The two agree where every exchange finds what it expects** and no signed addition
overflows; so do the two pointers. -/
theorem agree_iff (T : IntType) (x : T.Value) (ops : List (Op T)) (off_ : size_t.Value)
    (pointerOps : List PointerOp) :
    (Agree x ops ↔ Along Met StdAtomic.step x ops) ∧
    (PointersAgree off_ pointerOps ↔ Along (fun x op => Met x op.off)
      (fun x op => StdAtomic.step x op.off) off_ pointerOps) :=
  ⟨trace_eq_iff.trans (Along.congr step_eq_iff),
    trace_eq_iff.trans (Along.congr fun x op => step_eq_iff x op.off)⟩

/-- An exchange that expects 1 where the value is 0. -/
theorem not_agree_exchange :
    ¬ Agree (T := ⟨32, false⟩) 0 [.compareExchangeStrong 1 2] ∧
      ¬ PointersAgree 0 [.compareExchangeStrong 1 2] := by
  unfold Agree PointersAgree
  decide

end HermesShm.Types.OptAtomic
