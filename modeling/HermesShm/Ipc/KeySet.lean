import HermesShm.Ipc.RingQueueSerial
import Mathlib.Data.List.Perm.Basic

/-! # The key set of one thread

`key_set_templ` hands out numbers and stores a value under each. Erased keys go
through a ring, fresh ones come from a counter; `set_` is a vector whose length
stays 0 and which is indexed up to its capacity. Without atomic counters the
set grows when it has no key left. Allocations succeed. -/
namespace HermesShm.Ipc.KeySet
open HermesShm.Base HermesShm.Ipc.RingQueue

variable {τ : Type*}

/-- What the set and its vector depend on in an element type. -/
structure ElemType (τ : Type*) where
  /-- `std::is_pod<T>() && !IS_SHM_ARCHIVEABLE(T)` -/
  isPod : Bool
  /-- What an assignment leaves in storage that holds no object, `none` where
  that is no value of the type. -/
  assignRaw : τ → Option τ
  pod_assign : isPod = true → ∀ v, assignRaw v = some v

/-- `entry = v`, where `none` is storage that holds no object. -/
def ElemType.assign (T : ElemType τ) (entry : Option τ) (v : τ) : Option τ :=
  match entry with
  | some _ => some v
  | none => T.assignRaw v

/-! ## The vector -/

structure Vec (τ : Type*) where
  data : Nat → Option τ := fun _ => none
  max_length_ : Nat := 0
  length_ : Nat := 0

namespace Vec

/-- `grow_vector` to a given length: other elements than a POD's are moved one by
one, as many as `length_` tells. -/
def growVector (T : ElemType τ) (v : Vec τ) (max_length : Nat) : Vec τ :=
  if max_length < v.max_length_ then v
  else
    let kept := if T.isPod then v.max_length_ else v.length_
    { v with data := fun i => if i < kept then v.data i else none, max_length_ := max_length }

def reserve (T : ElemType τ) (v : Vec τ) (length : Nat) : Vec τ :=
  if length = 0 then v else v.growVector T length

def set (v : Vec τ) (i : Nat) (e : Option τ) : Vec τ :=
  { v with data := Function.update v.data i e }

end Vec

/-- `resize` of a ring: the values are popped and pushed to a new ring. -/
def resizeRing (flags : RingQueueFlag) (r : RingQueue.Ring Nat) (new_depth : Nat) :
    Option (RingQueue.Ring Nat) :=
  Ring.drain (fun q val => val.map fun v => (q.emplaceSerial flags v).2) (r.tail_ + 1) r
    { depth := new_depth }

/-! ## The set -/

/-- A key set, the keys in use with the value last stored under each, and the
keys erased so far; no step reads `erased`. -/
structure State (τ : Type*) where
  keys_ : RingQueue.Ring Nat
  set_ : Vec τ
  heap_ : Nat
  max_size_ : Nat
  held : List (Nat × τ) := []
  erased : List Nat := []

inductive Op (τ : Type*)
  | emplace (v : τ)
  | store (key : Nat) (v : τ)
  | pop (key : Nat)

/-- `Init` on a set just constructed. -/
def init (T : ElemType τ) (max_size : Nat) : Option (State τ) :=
  (resizeRing fixedSpscFlags { depth := 1024 } max_size).map fun keys_ =>
    { keys_, set_ := Vec.reserve T {} max_size, heap_ := 0, max_size_ := max_size }

namespace State

def resize (T : ElemType τ) (s : State τ) : Option (State τ) :=
  let new_size := s.set_.max_length_ * 2 % sizeMod
  (resizeRing fixedSpscFlags s.keys_ new_size).map fun keys_ =>
    { s with keys_, set_ := s.set_.reserve T new_size, max_size_ := new_size }

/-- `pop_key(key)` -/
def popKey (T : ElemType τ) (s : State τ) : Option (Nat × State τ) :=
  match s.keys_.pop with
  | (some (_, val), keys_) => val.map fun key => (key, { s with keys_ })
  | (none, keys_) =>
    let s := { s with keys_ }
    if s.heap_ < s.max_size_ then some (s.heap_, { s with heap_ := s.heap_ + 1 })
    else (s.resize T).map fun s => (s.heap_, { s with heap_ := s.heap_ + 1 })

/-- `erase(key)` -/
def erase (s : State τ) (key : Nat) : State τ :=
  { s with keys_ := (s.keys_.emplaceSerial fixedSpscFlags key).2 }

/-- `set_[key] = entry` -/
def write (T : ElemType τ) (s : State τ) (key : Nat) (v : τ) : State τ :=
  { s with set_ := s.set_.set key (T.assign (s.set_.data key) v) }

/-- The keys in use. -/
def keys (s : State τ) : List Nat := s.held.map Prod.fst

def drop (s : State τ) (key : Nat) : List (Nat × τ) := s.held.filter fun e => e.1 ≠ key

end State

/-- One call. `store` writes through the pointer that `peek` returned; it and
`pop` are for keys in use. -/
def step (T : ElemType τ) (s : State τ) : Op τ → Option (State τ)
  | .emplace v => (s.popKey T).map fun (key, s) =>
    { s.write T key v with held := s.held ++ [(key, v)] }
  | .store key v =>
    if key ∈ s.keys then some { s.write T key v with held := s.drop key ++ [(key, v)] } else none
  | .pop key =>
    if key ∈ s.keys then
      some { s.erase key with held := s.drop key, erased := s.erased ++ [key] }
    else none

/-- What `peek` finds and `pop(key, entry)` returns. -/
def State.entry (s : State τ) (key : Nat) : Option τ := s.set_.data key

structure Sound (T : ElemType τ) (s : State τ) : Prop where
  distinct : s.keys.Nodup
  below : ∀ k ∈ s.keys, k < s.max_size_
  values : ∀ e ∈ s.held, s.entry e.1 = some e.2
  /-- After enough emplaces an erased key is in use again. -/
  recycled : ∀ k ∈ s.erased, ∀ v, ∃ n t,
    exec (step T) s (List.replicate n (.emplace v)) = some t ∧ k ∈ t.keys

/-- The condition on a call. An emplace that finds no key left makes the set grow:
this is for types whose elements `grow_vector` copies with their block. Assigning
to storage without an object has to store the value. A key comes back through the
ring within the widths of its counters. -/
def Guarded (T : ElemType τ) (s : State τ) : Op τ → Prop
  | .emplace v => T.assignRaw v = some v ∧ (s.keys_.pop.1 = none → s.max_size_ ≤ s.heap_ →
    T.isPod = true ∧ s.max_size_ * 2 < sizeMod)
  | .store _ _ => True
  | .pop _ => s.keys_.Fits

instance [DecidableEq τ] (T : ElemType τ) (s : State τ) : ∀ op, Decidable (Guarded T s op)
  | .emplace _ => inferInstanceAs (Decidable (_ ∧ (_ → _ → _ ∧ _)))
  | .store _ _ => isTrue trivial
  | .pop _ => inferInstanceAs (Decidable s.keys_.Fits)

/-! ## The invariant -/

/-- The keys below `heap_` are in the ring, in order `free`, or in use. -/
structure Inv (s : State τ) (free : List Nat) : Prop where
  max_size_pos : 0 < s.max_size_
  keys_ : s.keys_.Holds free
  depth : s.keys_.depth = s.max_size_
  capacity : s.set_.max_length_ = s.max_size_
  heap_le : s.heap_ ≤ s.max_size_
  keys : (free ++ s.keys).Perm (List.range s.heap_)
  values : ∀ e ∈ s.held, s.set_.data e.1 = some e.2
  erased : ∀ k ∈ s.erased, k < s.heap_

theorem resizeRing_empty {flags : RingQueueFlag} {r : RingQueue.Ring Nat} (h : r.pop.1 = none)
    (new_depth : Nat) : resizeRing flags r new_depth = some { depth := new_depth } := by
  obtain ⟨tok, r', hp⟩ : ∃ tok r', r.pop = (tok, r') := ⟨_, _, rfl⟩
  rw [hp] at h
  obtain rfl : tok = none := h
  simp only [resizeRing, Ring.drain, hp]

theorem init_inv {T : ElemType τ} {max_size : Nat} {s : State τ} (hpos : 0 < max_size)
    (h : init T max_size = some s) : Inv s [] := by
  have hempty : ({ depth := 1024 } : RingQueue.Ring Nat).pop.1 = none := rfl
  rw [init, resizeRing_empty hempty] at h
  cases h
  refine ⟨hpos, .init hpos, rfl, ?_, Nat.zero_le _, .refl _, nofun, nofun⟩
  simp [Vec.reserve, Vec.growVector, Nat.ne_of_gt hpos]

namespace Inv

variable {T : ElemType τ} {s : State τ} {free : List Nat} {k : Nat} {v : τ}

theorem nodup (h : Inv s free) : (free ++ s.keys).Nodup :=
  h.keys.nodup_iff.mpr List.nodup_range

theorem key_lt (h : Inv s free) (hk : k ∈ s.keys) : k < s.heap_ :=
  List.mem_range.mp (h.keys.mem_iff.mp (List.mem_append_right _ hk))

theorem assign_eq {entry : Option τ} (hv : T.assignRaw v = some v) : T.assign entry v = some v := by
  cases entry with
  | none => exact hv
  | some _ => rfl

/-- Storing under a key that no other entry has. -/
theorem values_write {held : List (Nat × τ)} {data : Nat → Option τ} {e : Option τ}
    (hv : ∀ x ∈ held, data x.1 = some x.2) (hk : k ∉ held.map Prod.fst) (he : e = some v) :
    ∀ x ∈ held ++ [(k, v)], Function.update data k e x.1 = some x.2 := by
  intro x hx
  rcases List.mem_append.mp hx with hx | hx
  · have hne : x.1 ≠ k := fun he => hk (he ▸ List.mem_map_of_mem hx)
    rw [Function.update_of_ne hne]
    exact hv x hx
  · cases List.mem_singleton.mp hx
    rw [Function.update_self, he]

theorem mem_drop {e : Nat × τ} : e ∈ s.drop k ↔ e ∈ s.held ∧ e.1 ≠ k := by
  simp [State.drop]

theorem drop_keys : (s.drop k).map Prod.fst = s.keys.filter (· ≠ k) := by
  rw [State.drop, State.keys, List.filter_map]
  rfl

/-- A key in use, set apart from the others. -/
theorem keys_perm (h : Inv s free) (hk : k ∈ s.keys) :
    s.keys.Perm (k :: (s.drop k).map Prod.fst) := by
  have hnodup : s.keys.Nodup := (List.nodup_append.mp h.nodup).2.1
  have hfilter : s.keys.filter (· ≠ k) = s.keys.erase k := (hnodup.erase_eq_filter k).symm ▸ by
    congr 1
    funext x
    simp [bne, Bool.beq_eq_decide_eq]
  rw [drop_keys, hfilter]
  exact List.perm_cons_erase hk

theorem drop_keys_notMem : k ∉ (s.drop k).map Prod.fst := by
  rw [drop_keys]
  simp

/-! ## Steps -/

/-- A key handed out: it was free, `free'` are left of the keys below `heap`. -/
structure HandsOut (s t : State τ) (free' : List Nat) (heap key : Nat) : Prop where
  max_size_pos : 0 < t.max_size_
  keys_ : t.keys_.Holds free'
  depth : t.keys_.depth = t.max_size_
  capacity : t.set_.max_length_ = t.max_size_
  heap_ : t.heap_ = heap
  heap_le : heap ≤ t.max_size_
  keys : (free' ++ key :: s.keys).Perm (List.range heap)
  values : ∀ e ∈ s.held, t.set_.data e.1 = some e.2
  held : t.held = s.held
  erased : t.erased = s.erased
  le : s.heap_ ≤ heap

/-- A key from the ring. -/
theorem popKey_cons (h : Inv s (k :: free)) :
    ∃ t, s.popKey T = some (k, t) ∧ HandsOut s t free s.heap_ k := by
  obtain ⟨r, hp, hr, hd⟩ := h.keys_.pop_cons
  refine ⟨{ s with keys_ := r }, by simp only [State.popKey, hp, Option.map_some], ?_⟩
  refine ⟨h.max_size_pos, hr, hd.trans h.depth, h.capacity, rfl, h.heap_le, ?_, h.values, rfl, rfl,
    Nat.le_refl _⟩
  exact List.perm_middle.trans h.keys

/-- With nothing in the ring, every key below `heap_` is in use, and the next one
is fresh. -/
theorem keys_fresh (h : Inv s []) : ([] ++ s.heap_ :: s.keys).Perm (List.range (s.heap_ + 1)) := by
  rw [List.range_succ]
  exact (List.Perm.cons _ h.keys).trans (List.perm_append_singleton _ _).symm

/-- A key from the counter. -/
theorem popKey_heap (h : Inv s []) (hlt : s.heap_ < s.max_size_) :
    ∃ t, s.popKey T = some (s.heap_, t) ∧ HandsOut s t [] (s.heap_ + 1) s.heap_ := by
  refine ⟨{ s with heap_ := s.heap_ + 1 }, ?_, ?_⟩
  · simp only [State.popKey, h.keys_.pop_nil, if_pos hlt]
  · exact ⟨h.max_size_pos, h.keys_, h.depth, h.capacity, rfl, hlt, h.keys_fresh, h.values, rfl, rfl,
      Nat.le_succ _⟩

/-- A key after growth: a POD's elements are kept. -/
theorem popKey_grow (h : Inv s []) (hge : s.max_size_ ≤ s.heap_) (hpod : T.isPod = true)
    (hw : s.max_size_ * 2 < sizeMod) :
    ∃ t, s.popKey T = some (s.heap_, t) ∧ HandsOut s t [] (s.heap_ + 1) s.heap_ := by
  have hpos := h.max_size_pos
  have hheap : s.heap_ = s.max_size_ := Nat.le_antisymm h.heap_le hge
  have hpop : s.keys_.pop.1 = none := by rw [h.keys_.pop_nil]
  have hdouble : s.set_.max_length_ * 2 % sizeMod = s.max_size_ * 2 := by
    rw [h.capacity, Nat.mod_eq_of_lt hw]
  have hreserve : s.set_.reserve T (s.max_size_ * 2) =
      { s.set_ with
        data := fun i => if i < s.max_size_ then s.set_.data i else none
        max_length_ := s.max_size_ * 2 } := by
    rw [Vec.reserve, if_neg (by omega), Vec.growVector, if_neg (by rw [h.capacity]; omega),
      if_pos hpod, h.capacity]
  refine ⟨{ s with
    keys_ := { depth := s.max_size_ * 2 }
    set_ := s.set_.reserve T (s.max_size_ * 2)
    max_size_ := s.max_size_ * 2
    heap_ := s.heap_ + 1 }, ?_, ?_⟩
  · simp only [State.popKey, h.keys_.pop_nil, if_neg (Nat.not_lt.mpr hge), State.resize, hdouble,
      resizeRing_empty hpop, Option.map_some]
  · refine ⟨by simp only; omega, .init (by omega), rfl, by rw [hreserve], rfl, ?_, h.keys_fresh,
      fun e he => ?_, rfl, rfl, Nat.le_succ _⟩
    · simp only
      omega
    · have hlt := h.key_lt (List.mem_map_of_mem he)
      rw [hreserve]
      simp only [if_pos (show e.1 < s.max_size_ by omega)]
      exact h.values e he

theorem popKey (h : Inv s free) (hg : s.keys_.pop.1 = none → s.max_size_ ≤ s.heap_ →
      T.isPod = true ∧ s.max_size_ * 2 < sizeMod) :
    ∃ key t free' heap, s.popKey T = some (key, t) ∧ HandsOut s t free' heap key := by
  cases free with
  | cons k free =>
    obtain ⟨t, ht, ho⟩ := h.popKey_cons (T := T)
    exact ⟨k, t, free, _, ht, ho⟩
  | nil =>
    rcases Nat.lt_or_ge s.heap_ s.max_size_ with hlt | hge
    · obtain ⟨t, ht, ho⟩ := h.popKey_heap (T := T) hlt
      exact ⟨_, t, [], _, ht, ho⟩
    · obtain ⟨hpod, hw⟩ := hg (by rw [h.keys_.pop_nil]) hge
      obtain ⟨t, ht, ho⟩ := h.popKey_grow hge hpod hw
      exact ⟨_, t, [], _, ht, ho⟩

theorem HandsOut.emplace {t : State τ} {free' : List Nat} {heap : Nat}
    (ho : HandsOut s t free' heap k) (h : Inv s free) (hv : T.assignRaw v = some v) :
    Inv { t.write T k v with held := t.held ++ [(k, v)] } free' := by
  have hnodup : (k :: s.keys).Nodup :=
    (List.nodup_append.mp (ho.keys.nodup_iff.mpr List.nodup_range)).2.1
  have hk : k ∉ s.keys := (List.nodup_cons.mp hnodup).1
  refine ⟨ho.max_size_pos, ho.keys_, ho.depth, ho.capacity, ?_, ?_, ?_, ?_⟩
  · show t.heap_ ≤ t.max_size_
    rw [ho.heap_]
    exact ho.heap_le
  · show (free' ++ (t.held ++ [(k, v)]).map Prod.fst).Perm (List.range t.heap_)
    rw [ho.held, ho.heap_, List.map_append]
    refine List.Perm.trans ?_ ho.keys
    exact (List.perm_append_singleton _ _).append_left _
  · rw [ho.held]
    exact values_write ho.values hk (assign_eq hv)
  · show ∀ j ∈ t.erased, j < t.heap_
    rw [ho.erased, ho.heap_]
    exact fun j hj => Nat.lt_of_lt_of_le (h.erased j hj) ho.le

theorem store (h : Inv s free) (hk : k ∈ s.keys) :
    Inv { s.write T k v with held := s.drop k ++ [(k, v)] } free := by
  have hsome : (s.set_.data k).isSome := by
    obtain ⟨e, he, rfl⟩ := List.mem_map.mp hk
    rw [h.values e he]
    rfl
  have hassign : T.assign (s.set_.data k) v = some v := by
    obtain ⟨u, hu⟩ := Option.isSome_iff_exists.mp hsome
    rw [hu]
    rfl
  refine { h with
    keys := ?_
    values := values_write (fun e he => h.values e (mem_drop.mp he).1) drop_keys_notMem hassign }
  show (free ++ (s.drop k ++ [(k, v)]).map Prod.fst).Perm _
  rw [List.map_append]
  refine List.Perm.trans ?_ h.keys
  exact ((List.perm_append_singleton _ _).trans (h.keys_perm hk).symm).append_left _

theorem pop (h : Inv s free) (hk : k ∈ s.keys) (hf : s.keys_.Fits) :
    Inv { s.erase k with held := s.drop k, erased := s.erased ++ [k] } (free ++ [k]) := by
  have hperm := h.keys_perm hk
  have hroom : free.length < s.keys_.depth := by
    have hlen := h.keys.length_eq
    have hpos := List.length_pos_of_mem hk
    have hle := h.heap_le
    rw [List.length_append, List.length_range] at hlen
    rw [h.depth]
    omega
  obtain ⟨r, he, hr, hd⟩ := h.keys_.emplaceSerial fixedSpscFlags k hroom hf
  refine ⟨h.max_size_pos, ?_, ?_, h.capacity, h.heap_le, ?_, fun e he => ?_, fun j hj => ?_⟩
  · simp only [State.erase, he]
    exact hr
  · simp only [State.erase, he]
    exact hd.trans h.depth
  · show (free ++ [k] ++ (s.drop k).map Prod.fst).Perm (List.range s.heap_)
    rw [List.append_assoc]
    exact (hperm.symm.append_left _).trans h.keys
  · exact h.values e (mem_drop.mp he).1
  · rcases List.mem_append.mp hj with hj | hj
    · exact h.erased j hj
    · cases List.mem_singleton.mp hj
      exact h.key_lt hk

end Inv

theorem step_inv {T : ElemType τ} {s t : State τ} {op : Op τ} (hi : ∃ free, Inv s free)
    (hg : Guarded T s op) (h : step T s op = some t) : ∃ free, Inv t free := by
  obtain ⟨free, hi⟩ := hi
  cases op with
  | emplace v =>
    obtain ⟨key, t', free', heap, hp, ho⟩ := hi.popKey hg.2
    simp only [step, hp, Option.map_some] at h
    cases h
    exact ⟨free', ho.emplace hi hg.1⟩
  | store key v =>
    simp only [step] at h
    split at h <;> cases h
    rename_i hk
    exact ⟨free, hi.store hk⟩
  | pop key =>
    simp only [step] at h
    split at h <;> cases h
    rename_i hk
    exact ⟨free ++ [key], hi.pop hk hg⟩

/-! ## Recycling -/

/-- An emplace takes the oldest key of the ring. -/
theorem step_emplace_cons {T : ElemType τ} {s : State τ} {k : Nat} {free : List Nat}
    (h : s.keys_.Holds (k :: free)) (v : τ) :
    ∃ t, step T s (.emplace v) = some t ∧ t.keys_.Holds free ∧ t.held = s.held ++ [(k, v)] := by
  obtain ⟨r, hp, hr, -⟩ := h.pop_cons
  let t : State τ := { s with keys_ := r }
  refine ⟨{ t.write T k v with held := t.held ++ [(k, v)] }, ?_, hr, rfl⟩
  simp only [step, State.popKey, hp, Option.map_some, t]

theorem recycled {T : ElemType τ} {s : State τ} {pre post : List Nat} {k : Nat}
    (h : s.keys_.Holds (pre ++ k :: post)) (v : τ) :
    ∃ t, exec (step T) s (List.replicate (pre.length + 1) (.emplace v)) = some t ∧ k ∈ t.keys := by
  induction pre generalizing s with
  | nil =>
    obtain ⟨t, ht, -, hheld⟩ := step_emplace_cons (T := T) h v
    refine ⟨t, by simp [exec, ht], ?_⟩
    rw [State.keys, hheld]
    simp
  | cons p pre ih =>
    obtain ⟨t, ht, hr, -⟩ := step_emplace_cons (T := T) h v
    obtain ⟨u, hu, hk⟩ := ih hr
    refine ⟨u, ?_, hk⟩
    rw [List.length_cons, List.replicate_succ, exec, ht]
    exact hu

theorem Inv.sound {T : ElemType τ} {s : State τ} {free : List Nat} (h : Inv s free) :
    Sound T s := by
  refine ⟨(List.nodup_append.mp h.nodup).2.1, fun k hk => ?_, h.values, fun k hk v => ?_⟩
  · exact Nat.lt_of_lt_of_le (h.key_lt hk) h.heap_le
  · have hmem : k ∈ free ++ s.keys := h.keys.mem_iff.mpr (List.mem_range.mpr (h.erased k hk))
    rcases List.mem_append.mp hmem with hf | hheld
    · obtain ⟨pre, post, rfl⟩ := List.append_of_mem hf
      obtain ⟨t, ht, hkt⟩ := recycled (T := T) h.keys_ v
      exact ⟨_, t, ht, hkt⟩
    · exact ⟨0, s, rfl, hheld⟩

/-! ## Runs -/

/-- **Keys are distinct, and hold what was stored under them.** Over every run in
which the set grows only with a type whose elements are copied with their block. -/
theorem guarded_keys {T : ElemType τ} {max_size : Nat} {s₀ s : State τ} {ops : List (Op τ)}
    (hpos : 0 < max_size) (h₀ : init T max_size = some s₀)
    (h : Run (step T) (Guarded T) s₀ ops s) : Sound T s := by
  obtain ⟨free, hi⟩ := h.invariant (I := fun s => ∃ free, Inv s free) ⟨[], init_inv hpos h₀⟩
    fun _ _ _ hi hg hs => step_inv hi hg hs
  exact hi.sound

/-- A POD, and a struct with a constructor of its own. -/
def podType : ElemType Nat := ⟨true, some, fun _ _ => rfl⟩
def structType : ElemType Nat := ⟨false, some, nofun⟩

/-- One key, then growth to two: both values are kept, and an erased key comes
back. -/
theorem guarded_keys_growth : ∃ s : State Nat,
    s.held = [(1, 20), (0, 30)] ∧ s.max_size_ = 2 ∧ Sound podType s := by
  have hs : ((init podType 1).bind fun s₀ => (execOk (step podType) (Guarded podType) s₀
      [.emplace 10, .emplace 20, .pop 0, .emplace 30]).map
        fun s => (s.held, s.max_size_)) = some ([(1, 20), (0, 30)], 2) := by decide +kernel
  obtain ⟨s₀, h₀, hs⟩ := Option.bind_eq_some_iff.mp hs
  obtain ⟨s, hs, hv⟩ := Option.map_eq_some_iff.mp hs
  obtain ⟨hh, hm⟩ := Prod.mk.inj hv
  exact ⟨s, hh, hm, guarded_keys (by decide) h₀ (run_of_execOk hs)⟩

/-- **Growth loses the values of other types.** One key in use, and a second
emplace: the vector moves `length_ = 0` elements to its new block. -/
theorem growth_loses_values : ¬ ∀ (T : ElemType Nat) (max_size : Nat) (s₀ s : State Nat)
    (ops : List (Op Nat)), 0 < max_size → init T max_size = some s₀ →
    Run (step T) Unrestricted s₀ ops s → Sound T s := by
  intro h
  have hs : ((init structType 1).bind fun s₀ => (exec (step structType) s₀
      [.emplace 10, .emplace 20]).map fun s => (s.held, s.entry 0)) =
      some ([(0, 10), (1, 20)], none) := by decide +kernel
  obtain ⟨s₀, h₀, hs⟩ := Option.bind_eq_some_iff.mp hs
  obtain ⟨s, hs, hv⟩ := Option.map_eq_some_iff.mp hs
  obtain ⟨hheld, hentry⟩ := Prod.mk.inj hv
  have := (h structType 1 s₀ s _ (by decide) h₀ (run_iff_exec.mpr hs)).values (0, 10)
    (by rw [hheld]; simp)
  rw [hentry] at this
  cases this

end HermesShm.Ipc.KeySet
