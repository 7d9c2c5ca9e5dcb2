import HermesShm.Base.Traced

/-! # The bounded deque

What a queue that is filled at its back and emptied at both ends is meant to
answer, for one caller. -/
namespace HermesShm.Base.Deque

variable {α β : Type*}

inductive Call (α : Type*)
  | pushBack (v : α)
  | popFront
  | dropFront
  | popBack
  | size
  deriving DecidableEq

/-- Whether a push or a drop was done, the value of a pop, or the size. -/
inductive Reply (α : Type*)
  | done (ok : Bool)
  | popped (v : Option α)
  | size (n : Nat)
  deriving DecidableEq

def Reply.map (f : α → β) : Reply α → Reply β
  | .done ok => .done ok
  | .popped v => .popped (v.map f)
  | .size n => .size n

/-- A deque of at most `cap` values. -/
def answer (cap : Nat) (xs : List α) : Call α → Reply α × List α
  | .pushBack v => if xs.length < cap then (.done true, xs ++ [v]) else (.done false, xs)
  | .popFront => (.popped xs.head?, xs.tail)
  | .dropFront => (.done !xs.isEmpty, xs.tail)
  | .popBack => (.popped xs.getLast?, xs.dropLast)
  | .size => (.size xs.length, xs)

end HermesShm.Base.Deque
