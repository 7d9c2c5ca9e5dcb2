import HermesShm.Ipc.RingQueueSerial
import Mathlib.Data.List.Perm.Basic

/-! # The circular ring queue

Without a space flag `emplace` neither waits nor refuses: on a full ring it
overwrites the oldest value and leaves `head_` where it is. One thread runs
`emplace` and `pop(val)`. -/
namespace HermesShm.Ipc.RingQueue
open HermesShm.Base

variable {α : Type*}

/-- A circular queue, the values pushed so far and what its pops did: the values
returned, and for each pop that returned null the pushes that were waiting. A
value carries the number of its push, which no step reads. -/
structure Circular (α : Type*) where
  ring : Ring (Nat × α)
  pushed : List α := []
  popped : List (Option (Nat × α)) := []
  starved : List (List Nat) := []

inductive CircularOp (α : Type*)
  | emplace (v : α)
  | pop

namespace Circular

/-- The pushes whose values were popped. -/
def tokens (s : Circular α) : List Nat := s.popped.filterMap fun e => e.map Prod.fst

/-- A later push has the slot of push `k`. -/
def Overwritten (s : Circular α) (k : Nat) : Prop :=
  ∃ j < s.pushed.length, k < j ∧ s.ring.emplaceIdx j = s.ring.emplaceIdx k

instance (s : Circular α) (k : Nat) : Decidable (s.Overwritten k) :=
  inferInstanceAs (Decidable (∃ j < _, _))

/-- The pushes that are neither popped nor overwritten. -/
def waiting (s : Circular α) : List Nat :=
  (List.range s.pushed.length).filter fun k => k ∉ s.tokens ∧ ¬ s.Overwritten k

/-- The pushes that were overwritten before they were popped. -/
def lost (s : Circular α) : List Nat :=
  (List.range s.pushed.length).filter fun k => k ∉ s.tokens ∧ s.Overwritten k

def init (α : Type*) (depth : Nat) : Circular α := { ring := { depth } }

def step (flags : RingQueueFlag) (s : Circular α) : CircularOp α → Option (Circular α)
  | .emplace v =>
    let (_, ring) := s.ring.emplaceSerial flags (s.pushed.length, v)
    some { s with ring, pushed := s.pushed ++ [v] }
  | .pop =>
    match s.ring.pop with
    | (none, ring) => some { s with ring, starved := s.starved ++ [s.waiting] }
    | (some (_, val), ring) => some { s with ring, popped := s.popped ++ [val] }

/-- Pops return values in push order, each at most once, and return null only
when nothing waits. -/
structure InOrder (s : Circular α) : Prop where
  order : s.tokens.Pairwise (· < ·)
  value : ∀ e ∈ s.popped, ∃ k v, e = some (k, v) ∧ s.pushed[k]? = some v
  progress : ∀ ws ∈ s.starved, ws = []

/-- The condition on a pop: the values lost so far fill whole laps of the ring,
so `head_` is at the slot of the oldest value that waits. -/
def Aligned (s : Circular α) : CircularOp α → Prop
  | .emplace _ => s.ring.Fits
  | .pop => s.waiting ≠ [] → s.ring.depth ∣ s.lost.length

instance (s : Circular α) : ∀ op, Decidable (Aligned s op)
  | .emplace _ => inferInstanceAs (Decidable s.ring.Fits)
  | .pop => inferInstanceAs (Decidable (_ → _))

/-! ## The values that wait -/

/-- The pushes from `first` on wait in their slots, no other slot is marked. -/
structure Waits (s : Circular α) (first : Nat) : Prop where
  depth_pos : 0 < s.ring.depth
  tail : s.ring.tail_ = s.pushed.length
  tail_lt : s.ring.tail_ < sizeMod
  head : s.ring.head_ = s.tokens.length
  first_le : first ≤ s.pushed.length
  recent : s.pushed.length ≤ first + s.ring.depth
  idx : ∀ k < s.pushed.length, k % s.ring.depth < idxMod
  below : ∀ k ∈ s.tokens, k < first
  gone : ∀ k < first, k ∈ s.tokens ∨ k + s.ring.depth < s.pushed.length
  slot : ∀ k v, first ≤ k → s.pushed[k]? = some v →
    s.ring.queue_ (k % s.ring.depth) = ⟨1, some (k, v)⟩
  unmarked : ∀ idx, (∀ k, first ≤ k → k < s.pushed.length → k % s.ring.depth ≠ idx) →
    (s.ring.queue_ idx).first = 0

namespace Waits

variable {s : Circular α} {first k : Nat}

theorem overwritten_iff (h : s.Waits first) (hk : k < s.pushed.length) :
    s.Overwritten k ↔ k + s.ring.depth < s.pushed.length := by
  have hpos := h.depth_pos
  have hidx : ∀ j < s.pushed.length, s.ring.emplaceIdx j = j % s.ring.depth :=
    fun j hj => Nat.mod_eq_of_lt (h.idx j hj)
  constructor
  · intro ⟨j, hj, hkj, he⟩
    rw [hidx j hj, hidx k hk] at he
    by_contra hlt
    have := window_eq he (h := k) (by omega) (by omega) (Nat.le_refl _) (by omega)
    omega
  · intro hlt
    refine ⟨_, hlt, by omega, ?_⟩
    rw [hidx _ hlt, hidx k hk, Nat.add_mod_right]

theorem mem_waiting (h : s.Waits first) : k ∈ s.waiting ↔ first ≤ k ∧ k < s.pushed.length := by
  have hrecent := h.recent
  simp only [waiting, List.mem_filter, List.mem_range, decide_eq_true_eq]
  constructor
  · intro ⟨hk, hnot, hover⟩
    rw [h.overwritten_iff hk] at hover
    refine ⟨Nat.le_of_not_lt fun hlt => ?_, hk⟩
    exact (h.gone k hlt).elim hnot hover
  · intro ⟨hle, hk⟩
    rw [h.overwritten_iff hk]
    exact ⟨hk, fun hm => Nat.not_lt.mpr hle (h.below k hm), by omega⟩

theorem mem_lost (h : s.Waits first) : k ∈ s.lost ↔ k < first ∧ k ∉ s.tokens := by
  have hle := h.first_le
  have hrecent := h.recent
  simp only [lost, List.mem_filter, List.mem_range, decide_eq_true_eq]
  constructor
  · intro ⟨hk, hnot, hover⟩
    rw [h.overwritten_iff hk] at hover
    exact ⟨by omega, hnot⟩
  · intro ⟨hlt, hnot⟩
    have hk : k < s.pushed.length := Nat.lt_of_lt_of_le hlt hle
    refine ⟨hk, hnot, ?_⟩
    rw [h.overwritten_iff hk]
    exact (h.gone k hlt).resolve_left hnot

/-- What is not waiting was either lost or popped. -/
theorem lost_length (h : s.Waits first) (ho : s.tokens.Pairwise (· < ·)) :
    s.lost.length + s.ring.head_ = first := by
  have htokens : s.tokens.Nodup := ho.imp Nat.ne_of_lt
  have hlost : s.lost.Nodup := List.nodup_range.filter _
  have hnodup : (s.lost ++ s.tokens).Nodup :=
    List.nodup_append.mpr ⟨hlost, htokens, fun a ha b hb he => (h.mem_lost.mp ha).2 (he ▸ hb)⟩
  have hperm : (s.lost ++ s.tokens).Perm (List.range first) := by
    refine (List.perm_ext_iff_of_nodup hnodup List.nodup_range).mpr fun k => ?_
    rw [List.mem_append, h.mem_lost, List.mem_range]
    constructor
    · intro hk
      exact hk.elim And.left (h.below k)
    · intro hk
      by_cases hm : k ∈ s.tokens
      · exact .inr hm
      · exact .inl ⟨hk, hm⟩
  rw [h.head, ← List.length_append, hperm.length_eq, List.length_range]

/-! ## Steps -/

theorem emplace {v : α} (h : s.Waits first) (hf : s.ring.Fits) :
    ∃ first', Waits { s with
      ring := (({ s.ring with tail_ := s.ring.tail_ + 1 } : Ring (Nat × α)).replace
        (s.ring.tail_ % s.ring.depth) (some (s.pushed.length, v))).setBits
          (s.ring.tail_ % s.ring.depth) 1
      pushed := s.pushed ++ [v] } first' := by
  obtain ⟨hw, hidx⟩ := hf
  have hpos := h.depth_pos
  have hle := h.first_le
  have hrecent := h.recent
  have hlen : (s.pushed ++ [v]).length = s.pushed.length + 1 := List.length_append
  rw [h.tail] at hw hidx ⊢
  -- on a full ring the oldest value is overwritten
  obtain ⟨first', hfirst, hroom, hover⟩ : ∃ first', first ≤ first' ∧
      (first' ≤ s.pushed.length ∧ s.pushed.length < first' + s.ring.depth) ∧
      ∀ k, first ≤ k → k < first' → k + s.ring.depth = s.pushed.length := by
    by_cases hfull : s.pushed.length < first + s.ring.depth
    · exact ⟨first, Nat.le_refl _, ⟨hle, hfull⟩, fun k _ _ => by omega⟩
    · exact ⟨first + 1, Nat.le_succ _, ⟨by omega, by omega⟩, fun k _ _ => by omega⟩
  have hqueue : ∀ idx, ((({ s.ring with tail_ := s.pushed.length + 1 } : Ring (Nat × α)).replace
      (s.pushed.length % s.ring.depth) (some (s.pushed.length, v))).setBits
        (s.pushed.length % s.ring.depth) 1).queue_ idx =
      if idx = s.pushed.length % s.ring.depth then ⟨1, some (s.pushed.length, v)⟩
      else s.ring.queue_ idx := by
    intro idx
    simp only [Ring.setBits, Ring.replace, Ring.write, Function.update_apply, if_true]
    split <;> rfl
  refine ⟨first', ⟨hpos, hlen.symm, hw, h.head, ?_, ?_, fun k hk => ?_, fun k hk => ?_,
    fun k hk => ?_, fun k u hk hu => ?_, fun idx hno => ?_⟩⟩
  · rw [hlen]
    omega
  · rw [hlen]
    exact hroom.2
  · rw [hlen] at hk
    rcases Nat.lt_succ_iff_lt_or_eq.mp hk with hk | rfl
    · exact h.idx k hk
    · exact hidx
  · exact Nat.lt_of_lt_of_le (h.below k hk) hfirst
  · rw [hlen]
    show k ∈ s.tokens ∨ k + s.ring.depth < s.pushed.length + 1
    by_cases hk' : k < first
    · exact (h.gone k hk').imp id Nat.lt_succ_of_lt
    · exact .inr (by rw [hover k (by omega) hk]; omega)
  · refine (hqueue _).trans ?_
    show ite (k % s.ring.depth = _) _ _ = _
    rw [List.getElem?_append] at hu
    split at hu
    · rename_i hlt
      have hne := window_ne (h := first') (d := s.ring.depth) (show k ≠ s.pushed.length by omega)
        hk (by omega) hroom.1 hroom.2
      rw [if_neg hne]
      exact h.slot k u (Nat.le_trans hfirst hk) hu
    · obtain ⟨hk', rfl⟩ := List.getElem?_eq_some_iff.mp hu
      simp only [List.length_singleton] at hk'
      obtain rfl : k = s.pushed.length := by omega
      simp
  · rw [hlen] at hno
    have hne : idx ≠ s.pushed.length % s.ring.depth :=
      fun he => hno _ hroom.1 (Nat.lt_succ_self _) he.symm
    rw [hqueue, if_neg hne]
    refine h.unmarked idx fun k hk hk' he => ?_
    by_cases hold : first' ≤ k
    · exact hno k hold (Nat.lt_succ_of_lt hk') he
    · refine hne ?_
      rw [← hover k hk (by omega), Nat.add_mod_right]
      exact he.symm

/-- Nothing waits, and a pop returns null. -/
theorem pop_empty (h : s.Waits s.pushed.length) : s.ring.pop = (none, s.ring) := by
  have hz := h.unmarked (s.ring.popIdx s.ring.head_) fun k hk hk' => by omega
  have hany : s.ring.any (s.ring.popIdx s.ring.head_) 1 = false := by simp [Ring.any, hz]
  rw [Ring.pop]
  by_cases hle : s.ring.tail_ ≤ s.ring.head_
  · exact if_pos hle
  · simp only [if_neg hle, hany]
    rfl

/-- `head_` is at the slot of the oldest value that waits. -/
theorem pop_oldest {v : α} (h : s.Waits first) (hv : s.pushed[first]? = some v)
    (hle : s.ring.head_ ≤ first) (hmod : s.ring.head_ % s.ring.depth = first % s.ring.depth) :
    ∃ ring, s.ring.pop = (some (s.ring.head_, some (first, v)), ring) ∧
      Waits { s with ring, popped := s.popped ++ [some (first, v)] } (first + 1) := by
  have hpos := h.depth_pos
  have hrecent := h.recent
  have htail := h.tail
  have htail_lt := h.tail_lt
  have hlt := (List.getElem?_eq_some_iff.mp hv).1
  have hslot : s.ring.queue_ (first % s.ring.depth) = ⟨1, some (first, v)⟩ :=
    h.slot first v (Nat.le_refl _) hv
  have htokens :
      tokens { s with popped := s.popped ++ [some (first, v)] } = s.tokens ++ [first] := by
    simp [tokens, List.filterMap_append]
  have hpop : s.ring.pop = (some (s.ring.head_, some (first, v)),
      { s.ring with
        queue_ := Function.update s.ring.queue_ (first % s.ring.depth) {}
        head_ := s.ring.head_ + 1 }) := by
    have hany : s.ring.any (first % s.ring.depth) 1 = true := by simp [Ring.any, hslot]
    simp only [Ring.pop, if_neg (show ¬ s.ring.tail_ ≤ s.ring.head_ by omega), Ring.popIdx, hmod,
      hany, if_true, Ring.moveOut, Ring.clear, Ring.write, hslot, Function.update_idem,
      Function.update_self]
    rw [wordAdd_of_lt (by omega)]
  have hother : ∀ k, first < k → k < s.pushed.length → k % s.ring.depth ≠ first % s.ring.depth :=
    fun k hk hk' => window_ne (h := first) (by omega) (by omega) (by omega) (by omega) (by omega)
  refine ⟨_, hpop, ⟨hpos, htail, htail_lt, ?_, hlt, ?_, h.idx, fun k hk => ?_, fun k hk => ?_,
    fun k u hk hu => ?_, fun idx hno => ?_⟩⟩
  · show s.ring.head_ + 1 = (tokens { s with popped := s.popped ++ [some (first, v)] }).length
    rw [htokens, h.head, List.length_append, List.length_singleton]
  · show s.pushed.length ≤ first + 1 + s.ring.depth
    omega
  · change k ∈ tokens { s with popped := s.popped ++ [some (first, v)] } at hk
    rw [htokens] at hk
    rcases List.mem_append.mp hk with hk | hk
    · exact Nat.lt_succ_of_lt (h.below k hk)
    · cases List.mem_singleton.mp hk
      exact Nat.lt_succ_self _
  · show k ∈ tokens { s with popped := s.popped ++ [some (first, v)] } ∨ _
    rw [htokens]
    rcases Nat.lt_succ_iff_lt_or_eq.mp hk with hk | rfl
    · exact (h.gone k hk).imp (List.mem_append_left _) id
    · exact .inl (by simp)
  · have hk' := (List.getElem?_eq_some_iff.mp hu).1
    refine (Function.update_of_ne (hother k hk hk') _ _).trans ?_
    exact h.slot k u (by omega) hu
  · show (Function.update s.ring.queue_ (first % s.ring.depth) {} idx).first = 0
    by_cases he : idx = first % s.ring.depth
    · rw [he, Function.update_self]
    · rw [Function.update_of_ne he]
      refine h.unmarked idx fun k hk hk' hidx => ?_
      rcases Nat.eq_or_lt_of_le hk with rfl | hk
      · exact he hidx.symm
      · exact hno k hk hk' hidx

end Waits

/-! ## Runs -/

structure Inv (s : Circular α) : Prop where
  inOrder : s.InOrder
  waits : ∃ first, s.Waits first

theorem init_inv {depth : Nat} (hpos : 0 < depth) : Inv (init α depth) where
  inOrder := ⟨.nil, nofun, nofun⟩
  waits := ⟨0, hpos, rfl, by simp [init, sizeMod], rfl, Nat.le_refl _, Nat.zero_le _, nofun, nofun,
    nofun, nofun, fun _ _ => rfl⟩

/-- The flags of the circular queues ask for nothing where there is no space. -/
def NoSpaceFlag (flags : RingQueueFlag) : Prop :=
  flags = circularSpscFlags ∨ flags = circularMpmcFlags

theorem NoSpaceFlag.errorOnNoSpace {flags : RingQueueFlag} (h : NoSpaceFlag flags) :
    errorOnNoSpace flags = false := by
  rcases h with rfl | rfl <;> rfl

theorem step_inv {flags : RingQueueFlag} {s t : Circular α} {op : CircularOp α}
    (hflags : NoSpaceFlag flags) (hi : Inv s) (hg : Aligned s op) (h : step flags s op = some t) :
    Inv t := by
  obtain ⟨ho, first, hwaits⟩ := hi
  cases op with
  | emplace v =>
    have hf : s.ring.Fits := hg
    have hno : errorOnNoSpace flags = true →
        Ring.spaceFor s.ring.tail_ s.ring.head_ ≤ s.ring.depth :=
      fun he => by rw [hflags.errorOnNoSpace] at he; cases he
    simp only [step, Ring.emplaceSerial_accept hf hno] at h
    cases h
    refine ⟨⟨ho.order, fun e he => ?_, ho.progress⟩, hwaits.emplace hf⟩
    obtain ⟨k, u, he, hu⟩ := ho.value e he
    exact ⟨k, u, he, List.getElem?_append_left (List.getElem?_eq_some_iff.mp hu).1 ▸ hu⟩
  | pop =>
    rcases Nat.eq_or_lt_of_le hwaits.first_le with heq | hlt
    · obtain rfl := heq
      have hnone : s.waiting = [] := by
        refine List.eq_nil_iff_forall_not_mem.mpr fun k hk => ?_
        obtain ⟨hle, hk⟩ := hwaits.mem_waiting.mp hk
        omega
      simp only [step, hwaits.pop_empty] at h
      cases h
      refine ⟨⟨ho.order, ho.value, fun ws hws => ?_⟩, _, { hwaits with }⟩
      rcases List.mem_append.mp hws with hws | hws
      · exact ho.progress ws hws
      · rw [List.mem_singleton.mp hws, hnone]
    · have hne : s.waiting ≠ [] :=
        List.ne_nil_of_mem (hwaits.mem_waiting.mpr ⟨Nat.le_refl _, hlt⟩)
      have hlost := hwaits.lost_length ho.order
      have hmod : s.ring.head_ % s.ring.depth = first % s.ring.depth := by
        obtain ⟨c, hc⟩ := hg hne
        rw [← hlost, hc, Nat.mul_add_mod]
      have hv := List.getElem?_eq_getElem hlt
      obtain ⟨ring, hp, hw⟩ := hwaits.pop_oldest hv (by omega) hmod
      simp only [step, hp] at h
      cases h
      refine ⟨⟨?_, fun e he => ?_, ho.progress⟩, _, hw⟩
      · rw [tokens, List.filterMap_append]
        refine List.pairwise_append.mpr ⟨ho.order, List.pairwise_singleton _ _, ?_⟩
        intro a ha b hb
        cases List.mem_singleton.mp hb
        exact hwaits.below a ha
      · rcases List.mem_append.mp he with he | he
        · exact ho.value e he
        · exact ⟨_, _, List.mem_singleton.mp he, hv⟩

/-- **A circular queue is in order while it loses whole laps.** In every run in
which each pop that finds values waiting is made after a number of lost values
that is a multiple of the depth. -/
theorem aligned_inOrder {flags : RingQueueFlag} {depth : Nat} {ops : List (CircularOp α)}
    {s : Circular α} (hflags : NoSpaceFlag flags) (hpos : 0 < depth)
    (h : Run (step flags) Aligned (init α depth) ops s) : s.InOrder := by
  have hi : Inv s := h.invariant (init_inv hpos) fun _ _ _ hi hok hs => step_inv hflags hi hok hs
  exact hi.inOrder

/-- Two slots and four pushes: a whole lap is lost, the rest comes in order. -/
theorem aligned_inOrder_lap : ∃ s : Circular Nat,
    s.popped = [some (2, 30), some (3, 40)] ∧ s.starved = [[]] ∧ s.InOrder := by
  have hs : (execOk (step circularSpscFlags) Aligned (init Nat 2)
      [.emplace 10, .emplace 20, .emplace 30, .emplace 40, .pop, .pop, .pop]).map
      (fun s => (s.popped, s.starved)) = some ([some (2, 30), some (3, 40)], [[]]) := by
    decide +kernel
  obtain ⟨s, hs, hv⟩ := Option.map_eq_some_iff.mp hs
  obtain ⟨hp, hst⟩ := Prod.mk.inj hv
  exact ⟨s, hp, hst, aligned_inOrder (.inl rfl) (by decide) (run_of_execOk hs)⟩

/-- **An overrun ring is popped from the wrong slot.** Three pushes to two slots:
the newest value comes first, then the older one. A fourth push after that waits
in a slot that `head_` is not at, and a pop returns null. -/
theorem overrun_disorders : ¬ ∀ (depth : Nat) (ops : List (CircularOp Nat)) (s : Circular Nat),
    0 < depth → Run (step circularSpscFlags) Unrestricted (init Nat depth) ops s → s.InOrder := by
  intro h
  have hs : (exec (step circularSpscFlags) (init Nat 2)
      [.emplace 10, .emplace 20, .emplace 30, .pop, .pop, .emplace 40, .pop]).map
      (fun s => (s.tokens, s.starved)) = some ([2, 1], [[3]]) := by decide +kernel
  obtain ⟨s, hs, hv⟩ := Option.map_eq_some_iff.mp hs
  obtain ⟨hp, -⟩ := Prod.mk.inj hv
  have := (h 2 _ s (by decide) (run_iff_exec.mpr hs)).order
  rw [hp] at this
  simp at this

end Circular
end HermesShm.Ipc.RingQueue
