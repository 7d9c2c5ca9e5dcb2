import HermesShm.Ipc.RingQueue
import Mathlib.Tactic.Common

/-! # The invariant of the ring queue

Tokens from `head_` on live in a window of `depth` tokens, so no two of them
share a slot. What is in a slot is told by the token that owns it: not yet
stored, stored, marked, or on its way out through the consumer. -/
namespace HermesShm.Ipc.RingQueue
open HermesShm.Base

variable {ι α : Type*}

/-- The token counter does not wrap. -/
def NoWrap (m : Shared α) : Producer α → Prop
  | .claim _ _ => m.ring.tail_ + 1 < sizeMod
  | _ => True

instance (m : Shared α) : ∀ p, Decidable (NoWrap m p)
  | .claim _ _ => inferInstanceAs (Decidable (_ < _))
  | .idle | .awaitSpace _ _ | .giveBack _ _ | .replace _ _ | .mark _ => isTrue trivial

/-- The slot index of a token handed out fits its 32 bits. -/
def FitsIdx (m : Shared α) : Producer α → Prop
  | .claim _ _ => m.ring.tail_ % m.ring.depth < idxMod
  | _ => True

instance (m : Shared α) : ∀ p, Decidable (FitsIdx m p)
  | .claim _ _ => inferInstanceAs (Decidable (_ < _))
  | .idle | .awaitSpace _ _ | .giveBack _ _ | .replace _ _ | .mark _ => isTrue trivial

/-- A token given back frees no token that some other emplace keeps. -/
def FreesNone (m : Shared α) : Producer α → Prop
  | .giveBack _ _ => ∀ e ∈ m.hist.taken, e.1 ≠ m.ring.tail_ - 1
  | _ => True

instance (m : Shared α) : ∀ p, Decidable (FreesNone m p)
  | .giveBack _ _ => inferInstanceAs (Decidable (∀ e ∈ m.hist.taken, _))
  | .idle | .awaitSpace _ _ | .claim _ _ | .replace _ _ | .mark _ => isTrue trivial

/-! ## What each party asserts -/

/-- The token a producer keeps and has not returned. -/
def Producer.held : Producer α → Option Nat
  | .awaitSpace tail _ | .replace tail _ | .mark tail => some tail
  | _ => none

def Producer.isGiveBack : Producer α → Prop
  | .giveBack _ _ => True
  | _ => False

/-- The value at `head_` has left its slot. -/
def Consumer.moved : Consumer α → Prop
  | .clear _ _ | .advance _ _ => True
  | _ => False

/-- The slot of a token. -/
def Shared.slot (m : Shared α) (k : Nat) : Slot α := m.ring.queue_ (k % m.ring.depth)

/-- The consumer has moved the value of token `head_` out of its slot. -/
structure Holding (m : Shared α) (head : Nat) (val : Option α) (first : Nat) : Prop where
  token : head = m.ring.head_
  returned : head ∈ m.hist.returned
  value : ∃ v, val = some v ∧ (head, v) ∈ m.hist.taken
  slot : m.slot head = ⟨first, none⟩

def consumerInv (m : Shared α) : Consumer α → Prop
  | .idle => True
  | .loadTail head | .test head => head = m.ring.head_
  | .moveOut head => head = m.ring.head_ ∧ head ∈ m.hist.returned
  | .clear head val => Holding m head val 1
  | .advance head val => Holding m head val 0

structure SharedInv (m : Shared α) : Prop where
  depth_pos : 0 < m.ring.depth
  tail_lt : m.ring.tail_ < sizeMod
  taken_lt : ∀ e ∈ m.hist.taken, e.1 < m.ring.tail_
  taken_nodup : (m.hist.taken.map Prod.fst).Nodup
  stored_taken : ∀ k ∈ m.hist.stored, ∃ v, (k, v) ∈ m.hist.taken
  returned_stored : ∀ k ∈ m.hist.returned, k ∈ m.hist.stored
  window : ∀ k ∈ m.hist.stored, k < m.ring.head_ + m.ring.depth
  popped_length : m.hist.popped.length = m.ring.head_
  popped : ∀ k e, m.hist.popped[k]? = some e →
    k ∈ m.hist.returned ∧ ∃ v, e = (k, some v) ∧ (k, v) ∈ m.hist.taken
  /-- A stored token's slot, until the consumer has moved its value out. -/
  full : ∀ k v, (k, v) ∈ m.hist.taken → k ∈ m.hist.stored → m.ring.head_ ≤ k →
    (k = m.ring.head_ → ¬ m.consumer.moved) →
    m.slot k = ⟨if k ∈ m.hist.returned then 1 else 0, some v⟩
  owned : ∀ idx, m.ring.queue_ idx = {} ∨
    ∃ k ∈ m.hist.stored, m.ring.head_ ≤ k ∧ k % m.ring.depth = idx
  consumer : consumerInv m m.consumer

def Local (flags : RingQueueFlag) (m : Shared α) : Producer α → Prop
  | .idle => True
  | .claim head _ => head ≤ m.ring.head_
  | .awaitSpace tail v =>
    (tail, v) ∈ m.hist.taken ∧ tail ∉ m.hist.stored ∧ tail % m.ring.depth < idxMod
  | .giveBack _ _ => waitForSpace flags = false
  | .replace tail v =>
    (tail, v) ∈ m.hist.taken ∧ tail ∉ m.hist.stored ∧ tail % m.ring.depth < idxMod ∧
      tail < m.ring.head_ + m.ring.depth
  | .mark tail =>
    tail ∈ m.hist.stored ∧ tail ∉ m.hist.returned ∧ tail % m.ring.depth < idxMod

def queueAssertion (flags : RingQueueFlag) : Assertion (Shared α) (Producer α) where
  shared := SharedInv
  each := Local flags
  pair p q := ∀ k, p.held = some k → q.held ≠ some k

structure Inv (flags : RingQueueFlag) (s : State ι α) : Prop where
  holds : (queueAssertion flags).Holds s.shared s.pc
  /-- A token kept and not yet returned is still with its producer. -/
  outstanding : ∀ e ∈ s.shared.hist.taken,
    e.1 ∈ s.shared.hist.returned ∨ ∃ i, (s.pc i).held = some e.1
  /-- Tokens not kept are about to be given back. -/
  balance : ∃ n, Count Producer.isGiveBack s.pc n ∧
    s.shared.ring.tail_ = s.shared.hist.taken.length + n

namespace SharedInv

variable {m : Shared α} {k l : Nat} {v w : α}

theorem popped_lt (h : SharedInv m) (hk : k < m.ring.head_) :
    k ∈ m.hist.returned ∧ ∃ v, m.hist.popped[k]? = some (k, some v) ∧ (k, v) ∈ m.hist.taken := by
  have hlen : k < m.hist.popped.length := h.popped_length ▸ hk
  have he := List.getElem?_eq_getElem hlen
  obtain ⟨hr, v, hv', hv⟩ := h.popped k _ he
  rw [hv'] at he
  exact ⟨hr, v, he, hv⟩

theorem head_le_tail (h : SharedInv m) : m.ring.head_ ≤ m.ring.tail_ := by
  rcases Nat.eq_zero_or_pos m.ring.head_ with h0 | hpos
  · omega
  · obtain ⟨-, v, -, hv⟩ := h.popped_lt (k := m.ring.head_ - 1) (by omega)
    have := h.taken_lt _ hv
    simp only at this
    omega

theorem head_le (h : SharedInv m) (hk : k ∉ m.hist.returned) : m.ring.head_ ≤ k := by
  by_contra hlt
  exact hk (h.popped_lt (by omega)).1

theorem not_returned (h : SharedInv m) (hk : k ∉ m.hist.stored) : k ∉ m.hist.returned :=
  fun hr => hk (h.returned_stored k hr)

theorem taken_inj (h : SharedInv m) (hv : (k, v) ∈ m.hist.taken) (hw : (k, w) ∈ m.hist.taken) :
    v = w := by
  have := List.inj_on_of_nodup_map h.taken_nodup hv hw rfl
  exact (Prod.mk.inj this).2

/-- The slot of a token that waits to be stored is empty. -/
theorem slot_empty (h : SharedInv m) (hk : k ∉ m.hist.stored)
    (hk' : k < m.ring.head_ + m.ring.depth) : m.slot k = {} := by
  rcases h.owned (k % m.ring.depth) with he | ⟨l, hl, hle, hmod⟩
  · exact he
  · have hlk := window_eq hmod hle (h.window l hl) (h.head_le (h.not_returned hk)) hk'
    exact absurd (hlk ▸ hl) hk

end SharedInv

/-! ## A producer's step -/

theorem spaceFor_eq {tail head : Nat} (hle : head ≤ tail) (hlt : tail + 1 < sizeMod) :
    Ring.spaceFor tail head = tail - head + 1 := by
  rw [Ring.spaceFor, wordSub_of_le hle, wordAdd_of_lt (by omega)]

theorem Shared.slot_write {m : Shared α} {k l : Nat} {e : Slot α} :
    (m.ring.write (l % m.ring.depth) e).queue_ (k % m.ring.depth) =
      if k % m.ring.depth = l % m.ring.depth then e else m.slot k := by
  simp only [Ring.write, Function.update_apply, Shared.slot]

/-- Claiming a token that the emplace keeps. -/
theorem SharedInv.take {m : Shared α} (h : SharedInv m) (v : α)
    (hw : m.ring.tail_ + 1 < sizeMod) :
    SharedInv { m with
      ring := { m.ring with tail_ := m.ring.tail_ + 1 }
      hist := { m.hist with taken := m.hist.taken ++ [(m.ring.tail_, v)] } } := by
  have hsub : ∀ e ∈ m.hist.taken, e ∈ m.hist.taken ++ [(m.ring.tail_, v)] :=
    fun e he => List.mem_append_left _ he
  refine { h with
    tail_lt := hw
    taken_lt := fun e he => ?_
    taken_nodup := ?_
    stored_taken := fun k hk => (h.stored_taken k hk).imp fun _ => hsub _
    popped := fun k e he => ?_
    full := fun k w hkw hk => ?_
    consumer := ?_ }
  · rcases List.mem_append.mp he with he | he
    · exact Nat.lt_succ_of_lt (h.taken_lt e he)
    · cases List.mem_singleton.mp he; exact Nat.lt_succ_self _
  · rw [List.map_append, List.nodup_append]
    refine ⟨h.taken_nodup, List.nodup_singleton _, fun a ha b hb => ?_⟩
    obtain ⟨e, he, rfl⟩ := List.mem_map.mp ha
    cases List.mem_singleton.mp hb
    exact Nat.ne_of_lt (h.taken_lt e he)
  · obtain ⟨hr, w, hw, hkw⟩ := h.popped k e he
    exact ⟨hr, w, hw, hsub _ hkw⟩
  · -- a stored token was taken before
    obtain ⟨w', hkw'⟩ := h.stored_taken k hk
    rcases List.mem_append.mp hkw with hkw | hkw
    · exact h.full k w hkw hk
    · cases List.mem_singleton.mp hkw
      exact absurd (h.taken_lt _ hkw') (Nat.lt_irrefl _)
  · have hc := h.consumer
    revert hc
    cases m.consumer with
    | idle | loadTail _ | test _ | moveOut _ => exact id
    | clear _ _ | advance _ _ =>
      exact fun hc => { hc with value := hc.value.imp fun _ hv => ⟨hv.1, hsub _ hv.2⟩ }

/-- Moving `tail_` where every token kept stays below it. -/
theorem SharedInv.setTail {m : Shared α} (h : SharedInv m) {tail : Nat} {rejected : List α}
    (hlt : tail < sizeMod) (htaken : ∀ e ∈ m.hist.taken, e.1 < tail) :
    SharedInv { m with
      ring := { m.ring with tail_ := tail }
      hist := { m.hist with rejected } } := by
  refine { h with tail_lt := hlt, taken_lt := htaken, consumer := ?_ }
  have hc := h.consumer
  revert hc
  cases m.consumer with
  | idle | loadTail _ | test _ | moveOut _ => exact id
  | clear _ _ | advance _ _ => exact fun hc => { hc with }

theorem SharedInv.replace {m : Shared α} (h : SharedInv m) {tail : Nat} {v : α}
    (htaken : (tail, v) ∈ m.hist.taken) (hs : tail ∉ m.hist.stored)
    (hw : tail < m.ring.head_ + m.ring.depth) (hidx : tail % m.ring.depth < idxMod) :
    SharedInv { m with
      ring := m.ring.replace (m.ring.emplaceIdx tail) (some v)
      hist := { m.hist with stored := m.hist.stored ++ [tail] } } := by
  have hhead : m.ring.head_ ≤ tail := h.head_le (h.not_returned hs)
  have hother : ∀ k ∈ m.hist.stored, m.ring.head_ ≤ k →
      k % m.ring.depth ≠ tail % m.ring.depth := fun k hk hle hmod =>
    hs (window_eq hmod hle (h.window k hk) hhead hw ▸ hk)
  rw [show m.ring.emplaceIdx tail = tail % m.ring.depth from Nat.mod_eq_of_lt hidx]
  refine { h with
    stored_taken := fun k hk => ?_
    returned_stored := fun k hk => List.mem_append_left _ (h.returned_stored k hk)
    window := fun k hk => ?_
    full := fun k w hkw hk hle hm => ?_
    owned := fun idx => ?_
    consumer := ?_ }
  · rcases List.mem_append.mp hk with hk | hk
    · exact h.stored_taken k hk
    · cases List.mem_singleton.mp hk; exact ⟨v, htaken⟩
  · rcases List.mem_append.mp hk with hk | hk
    · exact h.window k hk
    · cases List.mem_singleton.mp hk; exact hw
  · show (m.ring.write _ _).queue_ (k % m.ring.depth) = _
    rw [Shared.slot_write]
    rcases List.mem_append.mp hk with hk | hk
    · rw [if_neg (hother k hk hle)]
      exact h.full k w hkw hk hle hm
    · cases List.mem_singleton.mp hk
      rw [if_pos rfl, if_neg (h.not_returned hs), h.taken_inj htaken hkw]
  · by_cases hidx : idx = tail % m.ring.depth
    · exact .inr ⟨tail, by simp, hhead, hidx.symm⟩
    · rcases h.owned idx with he | ⟨k, hk, hle, hmod⟩
      · exact .inl ((Function.update_of_ne hidx _ _).trans he)
      · exact .inr ⟨k, List.mem_append_left _ hk, hle, hmod⟩
  · have hc := h.consumer
    revert hc
    cases m.consumer with
    | idle | loadTail _ | test _ | moveOut _ => exact id
    | clear _ _ | advance _ _ =>
      refine fun hc => { hc with slot := ?_ }
      show (m.ring.write _ _).queue_ (_ % m.ring.depth) = _
      rw [Shared.slot_write, if_neg, hc.slot]
      exact hother _ (h.returned_stored _ hc.returned) (Nat.le_of_eq hc.token.symm)

theorem SharedInv.mark {m : Shared α} (h : SharedInv m) {tail : Nat}
    (hs : tail ∈ m.hist.stored) (hr : tail ∉ m.hist.returned)
    (hidx : tail % m.ring.depth < idxMod) :
    SharedInv { m with
      ring := m.ring.setBits (m.ring.emplaceIdx tail) 1
      hist := { m.hist with returned := m.hist.returned ++ [tail] } } := by
  have hhead : m.ring.head_ ≤ tail := h.head_le hr
  have hother : ∀ k ∈ m.hist.stored, m.ring.head_ ≤ k → k ≠ tail →
      k % m.ring.depth ≠ tail % m.ring.depth := fun k hk hle hne hmod =>
    hne (window_eq hmod hle (h.window k hk) hhead (h.window tail hs))
  rw [show m.ring.emplaceIdx tail = tail % m.ring.depth from Nat.mod_eq_of_lt hidx]
  refine { h with
    returned_stored := fun k hk => ?_
    popped := fun k e he => ?_
    full := fun k w hkw hk hle hm => ?_
    owned := fun idx => ?_
    consumer := ?_ }
  · rcases List.mem_append.mp hk with hk | hk
    · exact h.returned_stored k hk
    · cases List.mem_singleton.mp hk; exact hs
  · obtain ⟨hr, hv⟩ := h.popped k e he
    exact ⟨List.mem_append_left _ hr, hv⟩
  · have hfull := h.full k w hkw hk hle hm
    show (m.ring.write _ _).queue_ (k % m.ring.depth) = _
    rw [Shared.slot_write]
    by_cases hkt : k = tail
    · subst hkt
      rw [if_neg hr] at hfull
      change m.ring.queue_ (k % m.ring.depth) = _ at hfull
      simp [hfull]
    · rw [if_neg (hother k hk hle hkt), hfull]
      simp [hkt]
  · by_cases hidx : idx = tail % m.ring.depth
    · exact .inr ⟨tail, hs, hhead, hidx.symm⟩
    · rcases h.owned idx with he | hk
      · exact .inl ((Function.update_of_ne hidx _ _).trans he)
      · exact .inr hk
  · have hc := h.consumer
    revert hc
    cases m.consumer with
    | idle | loadTail _ | test _ => exact id
    | moveOut _ => exact fun hc => ⟨hc.1, List.mem_append_left _ hc.2⟩
    | clear _ _ | advance _ _ =>
      refine fun hc => { hc with returned := List.mem_append_left _ hc.returned, slot := ?_ }
      show (m.ring.write _ _).queue_ (_ % m.ring.depth) = _
      rw [Shared.slot_write, if_neg, hc.slot]
      exact hother _ (h.returned_stored _ hc.returned) (Nat.le_of_eq hc.token.symm)
        fun he => hr (he ▸ hc.returned)

theorem afterClaim_cases (flags : RingQueueFlag) (depth : Nat) {head tail : Nat} {v : α}
    (hle : head ≤ tail) (hlt : tail + 1 < sizeMod) :
    afterClaim flags depth head tail v = .awaitSpace tail v ∨
    (waitForSpace flags = false ∧ afterClaim flags depth head tail v = .giveBack tail v) ∨
    (afterClaim flags depth head tail v = .replace tail v ∧
      ((waitForSpace flags || errorOnNoSpace flags) = true → tail < head + depth)) := by
  unfold afterClaim
  have hs := spaceFor_eq hle hlt
  cases waitForSpace flags <;> cases errorOnNoSpace flags <;>
    simp only [Bool.false_eq_true, if_true, if_false] <;> try split
  all_goals simp_all
  all_goals omega

/-- What every other party may rely on when one producer, which holds `own`
before or after its step, or the consumer moves. -/
structure Rely (m m' : Shared α) (own : Option Nat) : Prop where
  depth : m'.ring.depth = m.ring.depth
  head : m.ring.head_ ≤ m'.ring.head_
  taken : ∀ e ∈ m.hist.taken, e ∈ m'.hist.taken
  stored : ∀ k ∈ m.hist.stored, k ∈ m'.hist.stored
  new_stored : ∀ k ∈ m'.hist.stored, k ∈ m.hist.stored ∨ own = some k
  new_returned : ∀ k ∈ m'.hist.returned, k ∈ m.hist.returned ∨ own = some k

theorem Local.stable {flags : RingQueueFlag} {m m' : Shared α} {own : Option Nat} {p : Producer α}
    (h : Local flags m p) (hr : Rely m m' own) (hown : ∀ k, own = some k → p.held ≠ some k) :
    Local flags m' p := by
  have hstored : ∀ k, p.held = some k → k ∉ m.hist.stored → k ∉ m'.hist.stored :=
    fun k hk hn hs => (hr.new_stored k hs).elim hn fun ho => hown k ho hk
  cases p with
  | idle => trivial
  | claim head v => exact Nat.le_trans h hr.head
  | awaitSpace tail v => exact ⟨hr.taken _ h.1, hstored _ rfl h.2.1, by rw [hr.depth]; exact h.2.2⟩
  | giveBack tail v => exact h
  | replace tail v =>
    have := hr.head
    have := h.2.2.2
    rw [Local, hr.depth]
    exact ⟨hr.taken _ h.1, hstored _ rfl h.2.1, h.2.2.1, by omega⟩
  | mark tail =>
    rw [Local, hr.depth]
    exact ⟨hr.stored _ h.1, fun hs => (hr.new_returned _ hs).elim h.2.1 fun ho => hown _ ho rfl,
      h.2.2⟩

/-- What a producer's step does, case by case, once the invariant tells which
tests succeed and that no word wraps. -/
inductive Produced (flags : RingQueueFlag) (m : Shared α) :
    Producer α → Shared α → Producer α → Prop
  | call (v : α) : Produced flags m .idle m (.claim m.ring.head_ v)
  | take {head v p'} : m.ring.tail_ + 1 < sizeMod →
      (p' = .awaitSpace m.ring.tail_ v ∨
        (p' = .replace m.ring.tail_ v ∧ m.ring.tail_ < m.ring.head_ + m.ring.depth)) →
      Produced flags m (.claim head v)
        { m with
          ring := { m.ring with tail_ := m.ring.tail_ + 1 }
          hist := { m.hist with taken := m.hist.taken ++ [(m.ring.tail_, v)] } } p'
  | refuse {head v} : m.ring.tail_ + 1 < sizeMod → waitForSpace flags = false →
      Produced flags m (.claim head v)
        { m with ring := { m.ring with tail_ := m.ring.tail_ + 1 } } (.giveBack m.ring.tail_ v)
  | again {tail v} : Produced flags m (.awaitSpace tail v) m (.awaitSpace tail v)
  | room {tail v} : tail < m.ring.head_ + m.ring.depth →
      Produced flags m (.awaitSpace tail v) m (.replace tail v)
  | giveBack {tail v} :
      Produced flags m (.giveBack tail v)
        { m with
          ring := { m.ring with tail_ := m.ring.tail_ - 1 }
          hist := { m.hist with rejected := m.hist.rejected ++ [v] } } .idle
  | replace {tail v} :
      Produced flags m (.replace tail v)
        { m with
          ring := m.ring.replace (m.ring.emplaceIdx tail) (some v)
          hist := { m.hist with stored := m.hist.stored ++ [tail] } } (.mark tail)
  | mark {tail} :
      Produced flags m (.mark tail)
        { m with
          ring := m.ring.setBits (m.ring.emplaceIdx tail) 1
          hist := { m.hist with returned := m.hist.returned ++ [tail] } } .idle

/-- The flags keep a token out of the ring until there is room for it. -/
def Bounded (flags : RingQueueFlag) : Prop := (waitForSpace flags || errorOnNoSpace flags) = true

theorem produce_cases {flags : RingQueueFlag} {m m' : Shared α} {p p' : Producer α}
    {a : ProducerAct α} (hf : Bounded flags) (h : SharedInv m) (hl : Local flags m p)
    (hpos : p.isGiveBack → 0 < m.ring.tail_) (hw : NoWrap m p)
    (hs : produce flags m p a = some (m', p')) : Produced flags m p m' p' := by
  cases p with
  | idle => cases a <;> cases hs; exact .call _
  | claim head v =>
    cases a <;> cases hs
    have hle : head ≤ m.ring.tail_ := Nat.le_trans hl h.head_le_tail
    have hw : m.ring.tail_ + 1 < sizeMod := hw
    rw [wordAdd_of_lt hw]
    rcases afterClaim_cases flags m.ring.depth (v := v) hle hw
      with hp | ⟨hwf, hp⟩ | ⟨hp, hroom⟩
    · rw [hp]; exact .take hw (.inl rfl)
    · rw [hp]; exact .refuse hw hwf
    · rw [hp]
      have := hroom hf
      have : head ≤ m.ring.head_ := hl
      exact .take hw (.inr ⟨rfl, by omega⟩)
  | awaitSpace tail v =>
    cases a with
    | emplace v => cases hs
    | access =>
      simp only [produce] at hs
      split at hs <;> cases hs
      · rename_i hroom
        have hlt := h.taken_lt _ hl.1
        have htail := h.tail_lt
        have hle := h.head_le (h.not_returned hl.2.1)
        simp only at hlt
        rw [spaceFor_eq hle (by omega)] at hroom
        exact .room (by omega)
      · exact .again
  | giveBack tail v =>
    cases a <;> cases hs
    rw [wordSub_of_le (hpos trivial)]
    exact .giveBack
  | replace tail v => cases a <;> cases hs; exact .replace
  | mark tail => cases a <;> cases hs; exact .mark

theorem Produced.rely {flags : RingQueueFlag} {m m' : Shared α} {p p' : Producer α}
    (h : Produced flags m p m' p') : Rely m m' p.held := by
  cases h with
  | call | again | room | refuse | giveBack =>
    exact ⟨rfl, Nat.le_refl _, fun _ => id, fun _ => id, fun _ => .inl, fun _ => .inl⟩
  | take =>
    exact ⟨rfl, Nat.le_refl _, fun _ => List.mem_append_left _, fun _ => id, fun _ => .inl,
      fun _ => .inl⟩
  | replace =>
    refine ⟨rfl, Nat.le_refl _, fun _ => id, fun _ => List.mem_append_left _, fun k hk => ?_,
      fun _ => .inl⟩
    exact (List.mem_append.mp hk).imp id fun hk => congrArg some (List.mem_singleton.mp hk).symm
  | mark =>
    refine ⟨rfl, Nat.le_refl _, fun _ => id, fun _ => id, fun _ => .inl, fun k hk => ?_⟩
    exact (List.mem_append.mp hk).imp id fun hk => congrArg some (List.mem_singleton.mp hk).symm

theorem Produced.held {flags : RingQueueFlag} {m m' : Shared α} {p p' : Producer α} {k : Nat}
    (h : Produced flags m p m' p') (hk : p'.held = some k) :
    p.held = some k ∨ k = m.ring.tail_ := by
  cases h with
  | call | refuse | giveBack | mark => cases hk
  | again | room | replace => exact .inl hk
  | take _ hp => rcases hp with rfl | ⟨rfl, -⟩ <;> exact .inr (Option.some.inj hk).symm

theorem Local.held_lt {flags : RingQueueFlag} {m : Shared α} {p : Producer α} {k : Nat}
    (h : Local flags m p) (hi : SharedInv m) (hk : p.held = some k) : k < m.ring.tail_ := by
  cases p with
  | idle | claim _ _ | giveBack _ _ => cases hk
  | awaitSpace tail v | replace tail v => cases hk; exact hi.taken_lt _ h.1
  | mark tail =>
    cases hk
    obtain ⟨v, hv⟩ := hi.stored_taken _ h.1
    exact hi.taken_lt _ hv

theorem Produced.shared {flags : RingQueueFlag} {m m' : Shared α} {p p' : Producer α}
    (h : Produced flags m p m' p') (hi : SharedInv m) (hl : Local flags m p)
    (hg : FreesNone m p) : SharedInv m' := by
  cases h with
  | call | again | room => exact hi
  | take hw => exact hi.take _ hw
  | refuse hw => exact hi.setTail hw fun e he => Nat.lt_succ_of_lt (hi.taken_lt e he)
  | giveBack =>
    refine hi.setTail (Nat.lt_of_le_of_lt (Nat.sub_le _ _) hi.tail_lt) fun e he => ?_
    have := hi.taken_lt e he
    have := hg e he
    omega
  | replace => exact hi.replace hl.1 hl.2.1 hl.2.2.2 hl.2.2.1
  | mark => exact hi.mark hl.1 hl.2.1 hl.2.2

theorem Produced.local {flags : RingQueueFlag} {m m' : Shared α} {p p' : Producer α}
    (h : Produced flags m p m' p') (hi : SharedInv m) (hl : Local flags m p)
    (hx : FitsIdx m p) : Local flags m' p' := by
  cases h with
  | call => exact Nat.le_refl _
  | take _ hp =>
    have hnew : m.ring.tail_ ∉ m.hist.stored := fun hs => by
      obtain ⟨w, hw⟩ := hi.stored_taken _ hs
      exact Nat.lt_irrefl _ (hi.taken_lt _ hw)
    rcases hp with rfl | ⟨rfl, hroom⟩
    · exact ⟨by simp, hnew, hx⟩
    · exact ⟨by simp, hnew, hx, hroom⟩
  | refuse _ hf => exact hf
  | again => exact hl
  | room hroom => exact ⟨hl.1, hl.2.1, hl.2.2, hroom⟩
  | giveBack | mark => trivial
  | replace => exact ⟨by simp, hi.not_returned hl.2.1, hl.2.2.1⟩

/-- A slot whose bit is set at `head_` holds the value of token `head_`. -/
theorem SharedInv.ready {m : Shared α} (h : SharedInv m) (hm : ¬ m.consumer.moved)
    (hany : m.ring.any (m.ring.popIdx m.ring.head_) 1 = true) :
    m.ring.head_ ∈ m.hist.returned := by
  rcases h.owned (m.ring.head_ % m.ring.depth) with he | ⟨k, hk, hle, hmod⟩
  · simp [Ring.any, Ring.popIdx, he] at hany
  · have hpos := h.depth_pos
    have hkh : k = m.ring.head_ :=
      window_eq hmod hle (h.window k hk) (Nat.le_refl _) (by omega)
    subst hkh
    obtain ⟨v, hv⟩ := h.stored_taken _ hk
    have hslot : m.ring.queue_ (m.ring.head_ % m.ring.depth) = _ :=
      h.full _ v hv hk hle fun _ => hm
    by_contra hr
    simp [Ring.any, Ring.popIdx, hslot, hr] at hany

/-- The slot at `head_` once its value has been moved out. -/
theorem SharedInv.moveOut {m : Shared α} (h : SharedInv m) {e : Slot α} {c : Consumer α}
    (hr : m.ring.head_ ∈ m.hist.returned) (hm : c.moved)
    (hc : consumerInv { m with ring := m.ring.write (m.ring.head_ % m.ring.depth) e, consumer := c }
      c) :
    SharedInv { m with
      ring := m.ring.write (m.ring.head_ % m.ring.depth) e
      consumer := c } := by
  refine { h with full := fun k v hkv hk hle hnm => ?_, owned := fun idx => ?_, consumer := hc }
  · have hne : k ≠ m.ring.head_ := fun he => hnm he hm
    have hpos := h.depth_pos
    change m.ring.head_ ≤ k at hle
    show (m.ring.write _ _).queue_ (k % m.ring.depth) = _
    rw [Shared.slot_write, if_neg]
    · exact h.full k v hkv hk hle fun he => absurd he hne
    · exact fun hmod =>
        hne (window_eq hmod hle (h.window k hk) (Nat.le_refl _) (by omega))
  · by_cases hidx : idx = m.ring.head_ % m.ring.depth
    · exact .inr ⟨m.ring.head_, h.returned_stored _ hr, Nat.le_refl _, hidx.symm⟩
    · rcases h.owned idx with he | hk
      · exact .inl ((Function.update_of_ne hidx _ _).trans he)
      · exact .inr hk

theorem SharedInv.advance {m : Shared α} (h : SharedInv m) {val : Option α}
    (hc : Holding m m.ring.head_ val 0) :
    SharedInv {
      ring := { m.ring with head_ := m.ring.head_ + 1 }
      consumer := .idle
      hist := { m.hist with popped := m.hist.popped ++ [(m.ring.head_, val)] } } := by
  refine { h with
    window := fun k hk => ?_
    popped_length := ?_
    popped := fun k e he => ?_
    full := fun k v hkv hk hle _ => ?_
    owned := fun idx => ?_
    consumer := trivial }
  · have := h.window k hk
    simp only
    omega
  · simp [h.popped_length]
  · rw [List.getElem?_append] at he
    split at he
    · exact h.popped k e he
    · rename_i hlt
      rw [h.popped_length] at he hlt
      obtain ⟨hk, rfl⟩ := List.getElem?_eq_some_iff.mp he
      simp only [List.length_singleton] at hk
      obtain rfl : k = m.ring.head_ := by omega
      obtain ⟨v, rfl, hv⟩ := hc.value
      exact ⟨hc.returned, v, by simp, hv⟩
  · exact h.full k v hkv hk (Nat.le_of_succ_le hle) fun he => by simp only at hle; omega
  · rcases h.owned idx with he | ⟨k, hk, hle, hmod⟩
    · exact .inl he
    · rcases Nat.eq_or_lt_of_le hle with he | hlt
      · exact .inl (by rw [← hmod, ← he]; exact hc.slot)
      · exact .inr ⟨k, hk, hlt, hmod⟩

theorem Holding.lt {m : Shared α} {head first : Nat} {val : Option α} (h : SharedInv m)
    (hc : Holding m head val first) : head < m.ring.tail_ := by
  obtain ⟨v, -, hv⟩ := hc.value
  exact h.taken_lt _ hv

theorem consume_inv {m : Shared α} (h : SharedInv m) : SharedInv (consume m) := by
  have hc := h.consumer
  have hfull := h.full
  unfold consume
  split <;> rename_i hm <;> rw [hm] at hc hfull
  · exact { h with full := hfull, consumer := rfl }
  · split
    · exact { h with full := hfull, consumer := trivial }
    · exact { h with full := hfull, consumer := hc }
  · obtain rfl := hc
    split
    · rename_i hany
      exact { h with full := hfull, consumer := ⟨rfl, h.ready (by rw [hm]; exact id) hany⟩ }
    · exact { h with full := hfull, consumer := trivial }
  · obtain ⟨rfl, hr⟩ := hc
    obtain ⟨v, hv⟩ := h.stored_taken _ (h.returned_stored _ hr)
    have hslot := hfull _ v hv (h.returned_stored _ hr) (Nat.le_refl _) fun _ => id
    rw [if_pos hr] at hslot
    change m.ring.queue_ (m.ring.head_ % m.ring.depth) = _ at hslot
    refine h.moveOut hr trivial ⟨rfl, hr, ⟨v, ?_, hv⟩, ?_⟩
    · simp only [Ring.popIdx, hslot]
    · show (m.ring.write _ _).queue_ (m.ring.head_ % m.ring.depth) = _
      rw [Shared.slot_write, if_pos rfl]
      simp only [Ring.popIdx, hslot]
  · obtain rfl := hc.token
    have hslot : m.ring.queue_ (m.ring.head_ % m.ring.depth) = _ := hc.slot
    refine h.moveOut hc.returned trivial { hc with slot := ?_ }
    show (m.ring.write _ _).queue_ (m.ring.head_ % m.ring.depth) = _
    rw [Shared.slot_write, if_pos rfl]
    simp only [Ring.popIdx, hslot]
  · obtain rfl := hc.token
    have hlt := hc.lt h
    have htail := h.tail_lt
    rw [wordAdd_of_lt (by omega)]
    exact h.advance hc

/-- The consumer takes and returns no token. -/
theorem consume_tokens (m : Shared α) : (consume m).hist.taken = m.hist.taken ∧
    (consume m).hist.returned = m.hist.returned ∧ (consume m).hist.stored = m.hist.stored ∧
    (consume m).ring.tail_ = m.ring.tail_ := by
  unfold consume
  split
  case h_2 | h_3 => split <;> exact ⟨rfl, rfl, rfl, rfl⟩
  all_goals exact ⟨rfl, rfl, rfl, rfl⟩

theorem consume_rely {m : Shared α} (h : SharedInv m) : Rely m (consume m) none := by
  have hc := h.consumer
  unfold consume
  split <;> rename_i hm <;> rw [hm] at hc
  case h_4 => exact ⟨rfl, Nat.le_refl _, fun _ => id, fun _ => id, fun _ => .inl, fun _ => .inl⟩
  case h_6 =>
    have hlt := hc.lt h
    have htail := h.tail_lt
    obtain rfl := hc.token
    rw [wordAdd_of_lt (by omega)]
    exact ⟨rfl, Nat.le_succ _, fun _ => id, fun _ => id, fun _ => .inl, fun _ => .inl⟩
  all_goals
    try split
    all_goals
      exact ⟨rfl, Nat.le_refl _, fun _ => id, fun _ => id, fun _ => .inl, fun _ => .inl⟩

theorem produce_depth {flags : RingQueueFlag} {m m' : Shared α} {p p' : Producer α}
    {a : ProducerAct α} (h : produce flags m p a = some (m', p')) :
    m'.ring.depth = m.ring.depth := by
  cases p with
  | awaitSpace tail v =>
    cases a with
    | emplace v => cases h
    | access => simp only [produce] at h; split at h <;> cases h <;> rfl
  | idle => cases a <;> cases h; rfl
  | claim _ _ | giveBack _ _ | replace _ _ | mark _ => cases a <;> cases h; rfl

theorem consume_depth (m : Shared α) : (consume m).ring.depth = m.ring.depth := by
  unfold consume
  split
  case h_2 | h_3 => split <;> rfl
  all_goals rfl

/-! ## Runs -/

theorem init_inv {flags : RingQueueFlag} {depth : Nat} (hpos : 0 < depth) :
    Inv flags (init ι α depth) where
  holds := {
    shared := {
      depth_pos := hpos
      tail_lt := by simp [init, sizeMod]
      taken_lt := nofun
      taken_nodup := List.nodup_nil
      stored_taken := nofun
      returned_stored := nofun
      window := nofun
      popped_length := rfl
      popped := nofun
      full := nofun
      owned := fun _ => .inl rfl
      consumer := trivial }
    each := fun _ => trivial
    pair := fun _ _ _ => nofun }
  outstanding := nofun
  balance := ⟨0, .zero fun _ => id, rfl⟩

/-- The condition on a step of a run. -/
def Guarded (s : State ι α) : Label ι α → Prop
  | .produce i _ =>
    NoWrap s.shared (s.pc i) ∧ FitsIdx s.shared (s.pc i) ∧ FreesNone s.shared (s.pc i)
  | .consume => True

instance (s : State ι α) : ∀ l, Decidable (Guarded s l)
  | .consume => isTrue trivial
  | .produce i _ => inferInstanceAs
    (Decidable (NoWrap s.shared (s.pc i) ∧ FitsIdx s.shared (s.pc i) ∧ FreesNone s.shared (s.pc i)))

variable [DecidableEq ι]

/-- A token changes hands only when it is taken and when it is returned. -/
theorem Produced.outstanding {flags : RingQueueFlag} {s : State ι α} {i : ι} {m' : Shared α}
    {p' : Producer α} (h : Produced flags s.shared (s.pc i) m' p')
    (ho : ∀ e ∈ s.shared.hist.taken,
      e.1 ∈ s.shared.hist.returned ∨ ∃ j, (s.pc j).held = some e.1) :
    ∀ e ∈ m'.hist.taken,
      e.1 ∈ m'.hist.returned ∨ ∃ j, (Function.update s.pc i p' j).held = some e.1 := by
  -- a token of another producer stays there, one of this producer moves with it
  have keep : ∀ k, (∃ j, (s.pc j).held = some k) → ((s.pc i).held = some k → p'.held = some k) →
      ∃ j, (Function.update s.pc i p' j).held = some k := by
    rintro k ⟨j, hj⟩ hp
    by_cases hji : j = i
    · subst hji; exact ⟨j, by rw [Function.update_self]; exact hp hj⟩
    · exact ⟨j, by rw [Function.update_of_ne hji]; exact hj⟩
  generalize hpc : s.pc i = p at h
  rw [hpc] at keep
  cases h with
  | call | again | room | refuse | giveBack | replace =>
    intro e he
    exact (ho e he).imp id fun hj => keep _ hj id
  | take _ hp =>
    intro e he
    rcases List.mem_append.mp he with he | he
    · exact (ho e he).imp id fun hj => keep _ hj nofun
    · cases List.mem_singleton.mp he
      refine .inr ⟨i, ?_⟩
      rw [Function.update_self]
      rcases hp with rfl | ⟨rfl, -⟩ <;> rfl
  | @mark tail =>
    intro e he
    by_cases het : e.1 = tail
    · exact .inl (List.mem_append_right _ (by simp [het]))
    · refine (ho e he).imp (List.mem_append_left _) fun hj => keep _ hj fun h => ?_
      exact absurd (Option.some.inj h).symm het

theorem Produced.balance {flags : RingQueueFlag} {s : State ι α} {i : ι} {m' : Shared α}
    {p' : Producer α} (h : Produced flags s.shared (s.pc i) m' p')
    (hb : ∃ n, Count Producer.isGiveBack s.pc n ∧
      s.shared.ring.tail_ = s.shared.hist.taken.length + n) :
    ∃ n, Count Producer.isGiveBack (Function.update s.pc i p') n ∧
      m'.ring.tail_ = m'.hist.taken.length + n := by
  obtain ⟨n, hn, htail⟩ := hb
  generalize hpc : s.pc i = p at h
  cases h with
  | call | again | room | replace | mark =>
    exact ⟨n, hn.same hpc Iff.rfl, htail⟩
  | take _ hp =>
    refine ⟨n, hn.same hpc (by rcases hp with rfl | ⟨rfl, -⟩ <;> exact .rfl), ?_⟩
    simp only [htail, List.length_append, List.length_singleton]
    omega
  | refuse =>
    exact ⟨n + 1, hn.enter hpc id trivial, by simp only [htail, Nat.add_assoc]⟩
  | giveBack =>
    have hpos := hn.pos (i := i) (by rw [hpc]; trivial)
    exact ⟨n - 1, hn.leave hpc trivial id, by simp only [htail]; omega⟩

theorem step_depth {flags : RingQueueFlag} {s t : State ι α} {l : Label ι α}
    (h : step flags s l = some t) : t.shared.ring.depth = s.shared.ring.depth := by
  cases l with
  | consume => cases h; exact consume_depth s.shared
  | produce i a =>
    obtain ⟨m', p', hp, rfl⟩ := Pool.step_cases h
    exact produce_depth hp

theorem step_inv {flags : RingQueueFlag} {s t : State ι α} {l : Label ι α} (hf : Bounded flags)
    (hi : Inv flags s) (hg : Guarded s l) (h : step flags s l = some t) : Inv flags t := by
  have hsh : SharedInv s.shared := hi.holds.shared
  cases l with
  | consume =>
    cases h
    have hr := consume_rely hsh
    obtain ⟨htaken, hret, -, htail⟩ := consume_tokens s.shared
    refine ⟨hi.holds.environment (consume_inv hsh) fun j hj => hj.stable hr nofun, ?_, ?_⟩
    · simp only [htaken, hret]
      exact hi.outstanding
    · simp only [htaken, htail]
      exact hi.balance
  | produce i a =>
    obtain ⟨m', p', hp, rfl⟩ := Pool.step_cases h
    have hl : Local flags s.shared (s.pc i) := hi.holds.each i
    have hpos : (s.pc i).isGiveBack → 0 < s.shared.ring.tail_ := fun hb => by
      obtain ⟨n, hn, htail⟩ := hi.balance
      have := hn.pos hb
      omega
    have hpr := produce_cases hf hsh hl hpos hg.1 hp
    have hrely := hpr.rely
    refine ⟨hi.holds.update (hpr.shared hsh hl hg.2.2) (hpr.local hsh hl hg.2.1) fun j hj => ?_,
      hpr.outstanding hi.outstanding, hpr.balance hi.balance⟩
    have hpair := hi.holds.pair i j (Ne.symm hj)
    have hne : ∀ k, p'.held = some k → (s.pc j).held ≠ some k := fun k hk hkj => by
      rcases hpr.held hk with hki | rfl
      · exact hpair k hki hkj
      · exact Nat.lt_irrefl _ ((hi.holds.each j).held_lt hsh hkj)
    exact ⟨(hi.holds.each j).stable hrely hpair, hne, fun k hkj hk => hne k hk hkj⟩

end HermesShm.Ipc.RingQueue
