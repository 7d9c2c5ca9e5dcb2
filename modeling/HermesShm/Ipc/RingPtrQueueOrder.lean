import HermesShm.Ipc.RingPtrQueue
import HermesShm.Ipc.RingQueueInv

/-! # What the ring queue of pointers delivers

Tokens from `head_` on live in a window of `depth` tokens. An entry whose token
is not stored yet is unmarked, unless `pop()` consumed the token that had the
slot before: it moves `head_` and leaves the entry marked. -/
namespace HermesShm.Ipc.RingPtrQueue
open HermesShm.Base
open HermesShm.Ipc.RingQueue (sizeMod idxMod Ring.spaceFor spaceFor_eq)

variable {ι β : Type*} {w : Nat}

/-! ## The mark -/

namespace Entry

@[simp] theorem mark_alloc_id_ (e : Entry β w) : e.mark.alloc_id_ = e.alloc_id_ := rfl

theorem isMarked_zero {e : Entry β w} (h : e.off_ = 0#w) : e.isMarked = false := by
  simp [isMarked, h]

theorem isMarked_congr {d e : Entry β w} (h : d.off_ = e.off_) : d.isMarked = e.isMarked := by
  rw [isMarked, isMarked, h]

theorem unmark_mark {e : Entry β w} (h : e.isMarked = false) : e.mark.unmark = e :=
  e.mark_unmark.trans (unmark_eq_self.mpr h)

end Entry

/-! ## Conditions on a step -/

/-- The token counter does not wrap and the slot index fits its 32 bits. -/
def Fits (m : Shared β w) : Producer β w → Prop
  | .claim _ _ => m.tail_ + 1 < sizeMod ∧ m.tail_ % m.depth < idxMod
  | _ => True

instance (m : Shared β w) : ∀ p, Decidable (Fits m p)
  | .claim _ _ => inferInstanceAs (Decidable (_ ∧ _))
  | .idle | .awaitSpace _ _ | .storeId _ _ | .storeOff _ _ => isTrue trivial

/-- The token that had the slot of token `k` before was consumed by `pop()`. -/
def Shared.Leftover (m : Shared β w) (k : Nat) : Prop :=
  m.depth ≤ k ∧ (m.hist.popped[k - m.depth]?).map Prod.fst = some .discard

instance (m : Shared β w) (k : Nat) : Decidable (m.Leftover k) :=
  inferInstanceAs (Decidable (_ ∧ _))

/-- An entry that `pop()` left marked is not tested for a token whose value is
not stored yet. -/
def Settled (m : Shared β w) : Consumer β w → Prop
  | .test _ head => m.Leftover head → head ∈ m.hist.stored
  | _ => True

instance (m : Shared β w) : ∀ c, Decidable (Settled m c)
  | .test _ _ => inferInstanceAs (Decidable (_ → _))
  | .idle | .loadTail _ _ | .loadId _ | .loadOff _ _ | .setZero _ _ | .advance _ _ _ =>
    isTrue trivial

def Guarded (s : State ι β w) : Label ι β w → Prop
  | .produce i _ => Fits s.shared (s.pc i)
  | .pop _ => True
  | .consume => Settled s.shared s.shared.consumer

instance (s : State ι β w) : ∀ l, Decidable (Guarded s l)
  | .produce i _ => inferInstanceAs (Decidable (Fits s.shared (s.pc i)))
  | .pop _ => isTrue trivial
  | .consume => inferInstanceAs (Decidable (Settled s.shared s.shared.consumer))

/-! ## What the consumer delivers -/

/-- The token a `pop` has found marked. -/
def Consumer.taking : Consumer β w → Option Nat
  | .loadId head | .loadOff head _ | .setZero head _ | .advance _ head _ => some head
  | _ => none

structure Delivers (s : State ι β w) : Prop where
  /-- The `k`-th pop of either kind consumes the value pushed under token `k`. -/
  popped : ∀ k e, s.shared.hist.popped[k]? = some e →
    k ∈ s.shared.hist.stored ∧ ∃ v, (k, v) ∈ s.shared.hist.taken ∧ e.2 = (k, v.1)
  /-- A token belongs to one push. -/
  unique : (s.shared.hist.taken.map Prod.fst).Nodup
  /-- A pop that has found its entry marked reads what its push has stored. -/
  taking : ∀ k, s.shared.consumer.taking = some k →
    k = s.shared.hist.popped.length ∧ k ∈ s.shared.hist.stored

/-! ## The invariant -/

/-- The slot of a token. -/
def Shared.slot (m : Shared β w) (k : Nat) : Entry β w := m.queue_ (k % m.depth)

/-- `pop(val)` has cleared the entry at `head_`. -/
def Consumer.zeroed : Consumer β w → Prop
  | .advance .value _ _ => True
  | _ => False

/-- The consumer has found the entry of token `head_` marked. -/
structure Taking (m : Shared β w) (head : Nat) : Prop where
  token : head = m.head_
  stored : head ∈ m.hist.stored

def consumerInv (m : Shared β w) : Consumer β w → Prop
  | .idle => True
  | .loadTail _ head | .test _ head => head = m.head_
  | .loadId head => Taking m head
  | .loadOff head id => Taking m head ∧ ∃ v, (head, v) ∈ m.hist.taken ∧ id = v.1.alloc_id_
  | .setZero head val => Taking m head ∧ ∃ v, (head, v) ∈ m.hist.taken ∧ val = v.1
  | .advance kind head val =>
    Taking m head ∧ (∃ v, (head, v) ∈ m.hist.taken ∧ val = v.1) ∧
      (kind = .value → (m.slot head).off_ = 0#w)

structure SharedInv (m : Shared β w) : Prop where
  depth_pos : 0 < m.depth
  tail_lt : m.tail_ < sizeMod
  taken_lt : ∀ e ∈ m.hist.taken, e.1 < m.tail_
  taken_nodup : (m.hist.taken.map Prod.fst).Nodup
  stored_taken : ∀ k ∈ m.hist.stored, ∃ v, (k, v) ∈ m.hist.taken
  window : ∀ k ∈ m.hist.stored, k < m.head_ + m.depth
  popped_length : m.hist.popped.length = m.head_
  popped : ∀ k e, m.hist.popped[k]? = some e →
    k ∈ m.hist.stored ∧ ∃ v, (k, v) ∈ m.hist.taken ∧ e.2 = (k, v.1)
  /-- A stored token's entry, until `pop(val)` has cleared it. -/
  full : ∀ k v, (k, v) ∈ m.hist.taken → k ∈ m.hist.stored → m.head_ ≤ k →
    (k = m.head_ → ¬ m.consumer.zeroed) → m.slot k = v.1.mark
  /-- The entry of a token still to be stored. -/
  vacant : ∀ k, m.head_ ≤ k → k < m.head_ + m.depth → k ∉ m.hist.stored →
    (m.slot k).isMarked = true → m.Leftover k
  consumer : consumerInv m m.consumer

/-- The token a producer has taken and not stored. -/
def Producer.held : Producer β w → Option Nat
  | .awaitSpace tail _ | .storeId tail _ | .storeOff tail _ => some tail
  | _ => none

/-- A producer's own token, with its value. -/
structure Holding (m : Shared β w) (tail : Nat) (v : Value β w) : Prop where
  taken : (tail, v) ∈ m.hist.taken
  fresh : tail ∉ m.hist.stored
  idx : tail % m.depth < idxMod

def Local (m : Shared β w) : Producer β w → Prop
  | .idle => True
  | .claim head _ => head ≤ m.head_
  | .awaitSpace tail v => Holding m tail v
  | .storeId tail v => Holding m tail v ∧ tail < m.head_ + m.depth
  | .storeOff tail v =>
    Holding m tail v ∧ tail < m.head_ + m.depth ∧ (m.slot tail).alloc_id_ = v.1.alloc_id_

def queueAssertion : Assertion (Shared β w) (Producer β w) where
  shared := SharedInv
  each := Local
  pair p q := ∀ k, p.held = some k → q.held ≠ some k

namespace SharedInv

variable {m : Shared β w} {k : Nat} {v u : Value β w}

theorem popped_lt (h : SharedInv m) (hk : k < m.head_) : k ∈ m.hist.stored :=
  (h.popped k _ (List.getElem?_eq_getElem (h.popped_length ▸ hk))).1

theorem head_le (h : SharedInv m) (hk : k ∉ m.hist.stored) : m.head_ ≤ k := by
  by_contra hlt
  exact hk (h.popped_lt (by omega))

theorem taken_inj (h : SharedInv m) (hv : (k, v) ∈ m.hist.taken) (hu : (k, u) ∈ m.hist.taken) :
    v = u :=
  (Prod.mk.inj (List.inj_on_of_nodup_map h.taken_nodup hv hu rfl)).2

theorem head_le_tail (h : SharedInv m) : m.head_ ≤ m.tail_ := by
  rcases Nat.eq_zero_or_pos m.head_ with h0 | hpos
  · omega
  · obtain ⟨v, hv⟩ := h.stored_taken _ (h.popped_lt (k := m.head_ - 1) (by omega))
    have := h.taken_lt _ hv
    simp only at this
    omega

theorem stored_lt (h : SharedInv m) (hk : k ∈ m.hist.stored) : k < m.tail_ := by
  obtain ⟨v, hv⟩ := h.stored_taken k hk
  exact h.taken_lt _ hv

end SharedInv

theorem slot_write {m : Shared β w} {k l : Nat} {e : Entry β w} :
    (m.write (l % m.depth) e).slot k = if k % m.depth = l % m.depth then e else m.slot k := by
  simp only [Shared.slot, Shared.write, Function.update_apply]

/-! ## A producer's step -/

/-- What every other party may rely on when one producer, which holds `own`
before or after its step, or the consumer moves. -/
structure Rely (m m' : Shared β w) (own : Option Nat) : Prop where
  depth : m'.depth = m.depth
  head : m.head_ ≤ m'.head_
  taken : ∀ e ∈ m.hist.taken, e ∈ m'.hist.taken
  stored : ∀ k ∈ m'.hist.stored, k ∈ m.hist.stored ∨ own = some k
  ids : ∀ k, m.head_ ≤ k → k < m.head_ + m.depth → own ≠ some k →
    (m'.slot k).alloc_id_ = (m.slot k).alloc_id_

theorem Holding.stable {m m' : Shared β w} {own : Option Nat} {tail : Nat} {v : Value β w}
    (h : Holding m tail v) (hr : Rely m m' own) (hown : own ≠ some tail) : Holding m' tail v where
  taken := hr.taken _ h.taken
  fresh := fun hs => (hr.stored _ hs).elim h.fresh hown
  idx := by rw [hr.depth]; exact h.idx

theorem Local.stable {m m' : Shared β w} {own : Option Nat} {p : Producer β w} (hi : SharedInv m)
    (h : Local m p) (hr : Rely m m' own) (hown : ∀ k, own = some k → p.held ≠ some k) :
    Local m' p := by
  have hne : ∀ k, p.held = some k → own ≠ some k := fun k hk ho => hown k ho hk
  have hhead := hr.head
  cases p with
  | idle => trivial
  | claim head v => exact Nat.le_trans h hhead
  | awaitSpace tail v => exact Holding.stable h hr (hne _ rfl)
  | storeId tail v =>
    obtain ⟨hh, hlt⟩ := h
    exact ⟨hh.stable hr (hne _ rfl), by rw [hr.depth]; omega⟩
  | storeOff tail v =>
    obtain ⟨hh, hlt, hid⟩ := h
    refine ⟨hh.stable hr (hne _ rfl), by rw [hr.depth]; omega, ?_⟩
    rw [hr.ids tail (hi.head_le hh.fresh) hlt (hne _ rfl)]
    exact hid

/-- Claiming a token. -/
theorem SharedInv.take {m : Shared β w} (h : SharedInv m) (v : Value β w)
    (hw : m.tail_ + 1 < sizeMod) :
    SharedInv { m with
      tail_ := m.tail_ + 1
      hist := { m.hist with taken := m.hist.taken ++ [(m.tail_, v)] } } := by
  have hsub : ∀ e ∈ m.hist.taken, e ∈ m.hist.taken ++ [(m.tail_, v)] :=
    fun e he => List.mem_append_left _ he
  refine { h with
    tail_lt := hw
    taken_lt := fun e he => ?_
    taken_nodup := ?_
    stored_taken := fun k hk => (h.stored_taken k hk).imp fun _ => hsub _
    popped := fun k e he => ?_
    full := fun k u hku hk => ?_
    consumer := ?_ }
  · rcases List.mem_append.mp he with he | he
    · exact Nat.lt_succ_of_lt (h.taken_lt e he)
    · cases List.mem_singleton.mp he; exact Nat.lt_succ_self _
  · rw [List.map_append, List.nodup_append]
    refine ⟨h.taken_nodup, List.nodup_singleton _, fun a ha b hb => ?_⟩
    obtain ⟨e, he, rfl⟩ := List.mem_map.mp ha
    cases List.mem_singleton.mp hb
    exact Nat.ne_of_lt (h.taken_lt e he)
  · obtain ⟨hs, u, hu, he'⟩ := h.popped k e he
    exact ⟨hs, u, hsub _ hu, he'⟩
  · -- a stored token was taken before
    rcases List.mem_append.mp hku with hku | hku
    · exact h.full k u hku hk
    · cases List.mem_singleton.mp hku
      exact absurd (h.stored_lt hk) (Nat.lt_irrefl _)
  · have hc := h.consumer
    revert hc
    cases m.consumer with
    | idle | loadTail _ _ | test _ _ => exact id
    | loadId _ => exact fun hc => { hc with }
    | loadOff _ _ | setZero _ _ =>
      exact fun ⟨hc, u, hu, he⟩ => ⟨{ hc with }, u, hsub _ hu, he⟩
    | advance _ _ _ => exact fun ⟨hc, ⟨u, hu, he⟩, hz⟩ => ⟨{ hc with }, ⟨u, hsub _ hu, he⟩, hz⟩

section Store

variable {m : Shared β w} {tail : Nat} {v : Value β w}

/-- Storing to the slot of a token of one's own leaves the others as they are. -/
theorem Holding.slot_other (h : Holding m tail v) (hi : SharedInv m)
    (hlt : tail < m.head_ + m.depth) {k : Nat} {e : Entry β w} (hne : k ≠ tail)
    (hk : m.head_ ≤ k) (hk' : k < m.head_ + m.depth) :
    (m.write (m.emplaceIdx tail) e).slot k = m.slot k := by
  rw [show m.emplaceIdx tail = tail % m.depth from Nat.mod_eq_of_lt h.idx, slot_write, if_neg]
  exact window_ne hne hk hk' (hi.head_le h.fresh) hlt

theorem Holding.slot_self (h : Holding m tail v) {e : Entry β w} :
    (m.write (m.emplaceIdx tail) e).slot tail = e := by
  rw [show m.emplaceIdx tail = tail % m.depth from Nat.mod_eq_of_lt h.idx, slot_write, if_pos rfl]

/-- The entry of the token being popped is not the one stored to. -/
theorem Holding.slot_taking (h : Holding m tail v) (hi : SharedInv m)
    (hlt : tail < m.head_ + m.depth) {head : Nat} {e : Entry β w} (ht : Taking m head) :
    (m.write (m.emplaceIdx tail) e).slot head = m.slot head := by
  have hpos := hi.depth_pos
  obtain rfl := ht.token
  exact h.slot_other hi hlt (fun he => h.fresh (he ▸ ht.stored)) (Nat.le_refl _) (by omega)

theorem SharedInv.storeId (hi : SharedInv m) (h : Holding m tail v)
    (hlt : tail < m.head_ + m.depth) {b : β} :
    SharedInv
      (m.write (m.emplaceIdx tail) { m.queue_ (m.emplaceIdx tail) with alloc_id_ := b }) := by
  have hidx : m.emplaceIdx tail = tail % m.depth := Nat.mod_eq_of_lt h.idx
  refine { hi with
    full := fun k u hku hk hle hz => ?_
    vacant := fun k hle hk' hs hmark => ?_
    consumer := ?_ }
  · rw [h.slot_other hi hlt (fun he => h.fresh (he ▸ hk)) hle (hi.window k hk)]
    exact hi.full k u hku hk hle hz
  · refine hi.vacant k hle hk' hs ?_
    by_cases hne : k = tail
    · subst hne
      rw [h.slot_self, hidx] at hmark
      rw [← hmark]
      exact Entry.isMarked_congr rfl
    · rwa [h.slot_other hi hlt hne hle hk'] at hmark
  · have hc := hi.consumer
    revert hc
    show consumerInv m m.consumer → consumerInv _ m.consumer
    cases m.consumer with
    | idle | loadTail _ _ | test _ _ => exact id
    | loadId _ => exact fun hc => { hc with }
    | loadOff _ _ | setZero _ _ => exact fun ⟨hc, hv⟩ => ⟨{ hc with }, hv⟩
    | advance _ _ _ =>
      refine fun ⟨hc, hv, hz⟩ => ⟨{ hc with }, hv, fun hk => ?_⟩
      rw [h.slot_taking hi hlt hc]
      exact hz hk

theorem SharedInv.storeOff (hi : SharedInv m) (h : Holding m tail v)
    (hlt : tail < m.head_ + m.depth) (hid : (m.slot tail).alloc_id_ = v.1.alloc_id_) :
    SharedInv { m.write (m.emplaceIdx tail)
        { m.queue_ (m.emplaceIdx tail) with off_ := v.1.mark.off_ } with
      hist := { m.hist with stored := m.hist.stored ++ [tail] } } := by
  have hidx : m.emplaceIdx tail = tail % m.depth := Nat.mod_eq_of_lt h.idx
  have hold : ∀ k, k ∈ m.hist.stored ++ [tail] → k ∈ m.hist.stored ∨ k = tail := fun k hk =>
    (List.mem_append.mp hk).imp id List.mem_singleton.mp
  refine { hi with
    stored_taken := fun k hk => ?_
    window := fun k hk => ?_
    popped := fun k e he => ?_
    full := fun k u hku hk hle hz => ?_
    vacant := fun k hle hk' hs hmark => ?_
    consumer := ?_ }
  · rcases hold k hk with hk | rfl
    · exact hi.stored_taken k hk
    · exact ⟨v, h.taken⟩
  · rcases hold k hk with hk | rfl
    · exact hi.window k hk
    · exact hlt
  · obtain ⟨hs, hv⟩ := hi.popped k e he
    exact ⟨List.mem_append_left _ hs, hv⟩
  · rcases hold k hk with hk | rfl
    · refine (h.slot_other hi hlt (fun he => h.fresh (he ▸ hk)) hle (hi.window k hk)).trans ?_
      exact hi.full k u hku hk hle hz
    · refine h.slot_self.trans ?_
      rw [hi.taken_inj hku h.taken, hidx, Entry.mark, ← hid]
      rfl
  · have hne : k ≠ tail := fun he => hs (by simp [he])
    have hs' : k ∉ m.hist.stored := fun hk => hs (List.mem_append_left _ hk)
    refine hi.vacant k hle hk' hs' ?_
    rw [← h.slot_other hi hlt hne hle hk']
    exact hmark
  · have hc := hi.consumer
    have hstored : ∀ {k}, k ∈ m.hist.stored → k ∈ m.hist.stored ++ [tail] :=
      List.mem_append_left _
    revert hc
    show consumerInv m m.consumer → consumerInv _ m.consumer
    cases m.consumer with
    | idle | loadTail _ _ | test _ _ => exact id
    | loadId _ => exact fun hc => ⟨hc.token, hstored hc.stored⟩
    | loadOff _ _ | setZero _ _ =>
      rintro ⟨hc, hv⟩
      exact ⟨⟨hc.token, hstored hc.stored⟩, hv⟩
    | advance _ _ _ =>
      rintro ⟨hc, hv, hz⟩
      refine ⟨⟨hc.token, hstored hc.stored⟩, hv, fun hk => ?_⟩
      refine (congrArg Entry.off_ (h.slot_taking hi hlt hc)).trans ?_
      exact hz hk

end Store

/-- What a producer's step does, case by case, once the invariant tells which
tests succeed and that no word wraps. -/
inductive Produced (m : Shared β w) : Producer β w → Shared β w → Producer β w → Prop
  | call (v : Value β w) : Produced m .idle m (.claim m.head_ v)
  | take {head v p'} :
      (p' = .awaitSpace m.tail_ v ∨ (p' = .storeId m.tail_ v ∧ m.tail_ < m.head_ + m.depth)) →
      Produced m (.claim head v)
        { m with
          tail_ := m.tail_ + 1
          hist := { m.hist with taken := m.hist.taken ++ [(m.tail_, v)] } } p'
  | again {tail v} : Produced m (.awaitSpace tail v) m (.awaitSpace tail v)
  | room {tail v} : tail < m.head_ + m.depth →
      Produced m (.awaitSpace tail v) m (.storeId tail v)
  | storeId {tail v} :
      Produced m (.storeId tail v)
        (m.write (m.emplaceIdx tail)
          { m.queue_ (m.emplaceIdx tail) with alloc_id_ := v.1.mark.alloc_id_ })
        (.storeOff tail v)
  | storeOff {tail v} :
      Produced m (.storeOff tail v)
        { m.write (m.emplaceIdx tail)
            { m.queue_ (m.emplaceIdx tail) with off_ := v.1.mark.off_ } with
          hist := { m.hist with stored := m.hist.stored ++ [tail] } } .idle

theorem produce_cases {m m' : Shared β w} {p p' : Producer β w} {a : ProducerAct β w}
    (hi : SharedInv m) (hl : Local m p) (hf : Fits m p) (hs : produce m p a = some (m', p')) :
    Produced m p m' p' := by
  cases p with
  | idle => cases a <;> cases hs; exact .call _
  | claim head v =>
    cases a <;> cases hs
    have hle : head ≤ m.head_ := hl
    have hht := hi.head_le_tail
    rw [wordAdd_of_lt hf.1, spaceFor_eq (Nat.le_trans hle hht) hf.1]
    refine .take ?_
    split
    · exact .inl rfl
    · exact .inr ⟨rfl, by omega⟩
  | awaitSpace tail v =>
    cases a <;> cases hs
    have hlt := hi.taken_lt _ (Holding.taken hl)
    have htail := hi.tail_lt
    simp only at hlt
    have hle := hi.head_le (Holding.fresh hl)
    rw [spaceFor_eq hle (by omega)]
    split
    · exact .room (by omega)
    · exact .again
  | storeId tail v => cases a <;> cases hs; exact .storeId
  | storeOff tail v => cases a <;> cases hs; exact .storeOff

variable {m m' : Shared β w} {p p' : Producer β w}

theorem Produced.rely (h : Produced m p m' p') (hi : SharedInv m) (hl : Local m p) :
    Rely m m' p.held := by
  cases h with
  | call | again | room =>
    exact ⟨rfl, Nat.le_refl _, fun _ => id, fun _ => .inl, fun _ _ _ _ => rfl⟩
  | take =>
    exact ⟨rfl, Nat.le_refl _, fun _ => List.mem_append_left _, fun _ => .inl, fun _ _ _ _ => rfl⟩
  | storeId =>
    obtain ⟨hh, hlt⟩ := hl
    refine ⟨rfl, Nat.le_refl _, fun _ => id, fun _ => .inl, fun k hk hk' hne => ?_⟩
    rw [hh.slot_other hi hlt (fun he => hne (congrArg some he.symm)) hk hk']
  | storeOff =>
    obtain ⟨hh, hlt, -⟩ := hl
    refine ⟨rfl, Nat.le_refl _, fun _ => id, fun k hk => ?_, fun k hk hk' hne => ?_⟩
    · exact (List.mem_append.mp hk).imp id fun hk => congrArg some (List.mem_singleton.mp hk).symm
    · refine congrArg Entry.alloc_id_ ?_
      exact hh.slot_other hi hlt (fun he => hne (congrArg some he.symm)) hk hk'

theorem Produced.held {k : Nat} (h : Produced m p m' p') (hk : p'.held = some k) :
    p.held = some k ∨ k = m.tail_ := by
  cases h with
  | call | storeOff => cases hk
  | again | room | storeId => exact .inl hk
  | take hp => rcases hp with rfl | ⟨rfl, -⟩ <;> exact .inr (Option.some.inj hk).symm

theorem Local.held_lt {k : Nat} (h : Local m p) (hi : SharedInv m) (hk : p.held = some k) :
    k < m.tail_ := by
  cases p with
  | idle | claim _ _ => cases hk
  | awaitSpace tail v => cases hk; exact hi.taken_lt _ (Holding.taken h)
  | storeId tail v | storeOff tail v => cases hk; exact hi.taken_lt _ (Holding.taken h.1)

theorem Produced.shared (h : Produced m p m' p') (hi : SharedInv m) (hl : Local m p)
    (hf : Fits m p) : SharedInv m' := by
  cases h with
  | call | again | room => exact hi
  | take => exact hi.take _ hf.1
  | storeId => exact hi.storeId hl.1 hl.2
  | storeOff => exact hi.storeOff hl.1 hl.2.1 hl.2.2

theorem Produced.local (h : Produced m p m' p') (hi : SharedInv m) (hl : Local m p)
    (hf : Fits m p) : Local m' p' := by
  cases h with
  | call => exact Nat.le_refl _
  | @take head v p' hp =>
    have hh : Holding { m with
        tail_ := m.tail_ + 1
        hist := { m.hist with taken := m.hist.taken ++ [(m.tail_, v)] } } m.tail_ v :=
      ⟨by simp, fun hs => Nat.lt_irrefl _ (hi.stored_lt hs), hf.2⟩
    rcases hp with rfl | ⟨rfl, hroom⟩
    · exact hh
    · exact ⟨hh, hroom⟩
  | again => exact hl
  | room hroom => exact ⟨hl, hroom⟩
  | storeId =>
    obtain ⟨hh, hlt⟩ := hl
    exact ⟨{ hh with }, hlt, by rw [hh.slot_self]; rfl⟩
  | storeOff => trivial

/-! ## The consumer's step -/

/-- An entry found marked at `head_` is the stored one, where none is left over. -/
theorem SharedInv.ready (h : SharedInv m) (hg : m.Leftover m.head_ → m.head_ ∈ m.hist.stored)
    (hmark : (m.slot m.head_).isMarked = true) : m.head_ ∈ m.hist.stored := by
  have hpos := h.depth_pos
  by_contra hs
  exact hs (hg (h.vacant _ (Nat.le_refl _) (by omega) hs hmark))

/-- Only the consumer's program point changes. -/
theorem SharedInv.setConsumer (h : SharedInv m) {c : Consumer β w}
    (hz : m.consumer.zeroed → c.zeroed) (hc : consumerInv m c) :
    SharedInv { m with consumer := c } :=
  { h with
    full := fun k v hkv hk hle hnz => h.full k v hkv hk hle fun he hm => hnz he (hz hm)
    consumer := by
      cases c with
      | idle | loadTail _ _ | test _ _ => exact hc
      | loadId _ => exact { hc with }
      | loadOff _ _ | setZero _ _ => exact ⟨{ hc.1 with }, hc.2⟩
      | advance _ _ _ => exact ⟨{ hc.1 with }, hc.2⟩ }

/-- `pop(val)` clears the entry at `head_`. -/
theorem SharedInv.setZero (h : SharedInv m) {v : Value β w} (ht : Taking m m.head_)
    (hv : (m.head_, v) ∈ m.hist.taken) :
    SharedInv { m.write (m.popIdx m.head_) (m.queue_ (m.popIdx m.head_)).setZero with
      consumer := .advance .value m.head_ v.1 } := by
  have hpos := h.depth_pos
  have hself : (m.write (m.popIdx m.head_) (m.queue_ (m.popIdx m.head_)).setZero).slot m.head_ =
      (m.slot m.head_).setZero := by rw [Shared.popIdx, slot_write, if_pos rfl, Shared.slot]
  have hother : ∀ k, k ≠ m.head_ → m.head_ ≤ k → k < m.head_ + m.depth →
      (m.write (m.popIdx m.head_) (m.queue_ (m.popIdx m.head_)).setZero).slot k = m.slot k := by
    intro k hne hk hk'
    rw [Shared.popIdx, slot_write, if_neg]
    exact window_ne hne hk hk' (Nat.le_refl _) (by omega)
  refine { h with
    full := fun k u hku hk hle hz => ?_
    vacant := fun k hle hk' hs hmark => ?_
    consumer := ⟨{ ht with }, ⟨v, hv, rfl⟩, fun _ => ?_⟩ }
  · have hne : k ≠ m.head_ := fun he => hz he trivial
    exact (hother k hne hle (h.window k hk)).trans (h.full k u hku hk hle fun he => absurd he hne)
  · have hne : k ≠ m.head_ := fun he => hs (he ▸ ht.stored)
    refine h.vacant k hle hk' hs ?_
    rw [← hother k hne hle hk']
    exact hmark
  · exact congrArg Entry.off_ hself

theorem SharedInv.advance (h : SharedInv m) {kind : Pop} {v : Value β w} (ht : Taking m m.head_)
    (hv : (m.head_, v) ∈ m.hist.taken) (hz : kind = .value → (m.slot m.head_).off_ = 0#w) :
    SharedInv { m with
      head_ := m.head_ + 1
      consumer := .idle
      hist := { m.hist with popped := m.hist.popped ++ [(kind, m.head_, v.1)] } } := by
  have hlen := h.popped_length
  refine { h with
    window := fun k hk => ?_
    popped_length := ?_
    popped := fun k e he => ?_
    full := fun k u hku hk hle _ => ?_
    vacant := fun k hle hk' hs hmark => ?_
    consumer := trivial }
  · exact Nat.lt_of_lt_of_le (h.window k hk) (by simp only; omega)
  · simp [hlen]
  · rw [List.getElem?_append] at he
    split at he
    · exact h.popped k e he
    · obtain ⟨hk, rfl⟩ := List.getElem?_eq_some_iff.mp he
      simp only [List.length_singleton] at hk
      obtain rfl : k = m.head_ := by omega
      exact ⟨ht.stored, v, hv, by simp⟩
  · simp only at hle
    exact h.full k u hku hk (by omega) fun he => by omega
  · simp only at hle hk'
    change (m.slot k).isMarked = true at hmark
    by_cases hlast : k = m.head_ + m.depth
    · -- the slot of the token just popped is that of the token which enters the window
      have hslot : m.slot k = m.slot m.head_ := by
        rw [Shared.slot, Shared.slot, hlast, Nat.add_mod_right]
      rw [hslot] at hmark
      cases kind with
      | value => rw [Entry.isMarked_zero (hz rfl)] at hmark; cases hmark
      | discard => exact ⟨by simp only; omega, by simp [hlast, ← hlen]⟩
    · obtain ⟨hd, hp⟩ := h.vacant k (by omega) (by omega) hs hmark
      refine ⟨hd, ?_⟩
      show ((m.hist.popped ++ _)[k - m.depth]?).map Prod.fst = _
      rw [List.getElem?_append_left (by omega)]
      exact hp

theorem consume_inv (h : SharedInv m) (hg : Settled m m.consumer) (hs : consume m = some m') :
    SharedInv m' := by
  have hc := h.consumer
  have hpos := h.depth_pos
  unfold consume at hs
  split at hs <;> cases hs <;> rename_i hm <;> rw [hm] at hc hg
  · -- `loadTail`
    refine h.setConsumer (by rw [hm]; exact False.elim) ?_
    split
    · trivial
    · exact hc
  · -- `test`
    obtain rfl := hc
    refine h.setConsumer (by rw [hm]; exact False.elim) ?_
    split
    · rename_i kind hmark
      have hst := h.ready hg hmark
      obtain ⟨v, hv⟩ := h.stored_taken _ hst
      have hslot := h.full _ v hv hst (Nat.le_refl _) fun _ => by rw [hm]; exact id
      cases kind with
      | value => exact ⟨rfl, hst⟩
      | discard =>
        refine ⟨⟨rfl, hst⟩, ⟨v, hv, ?_⟩, nofun⟩
        show (m.slot m.head_).unmark = _
        rw [hslot, Entry.unmark_mark v.2]
    · trivial
  · -- `loadId`
    obtain rfl := hc.token
    obtain ⟨v, hv⟩ := h.stored_taken _ hc.stored
    have hslot := h.full _ v hv hc.stored (Nat.le_refl _) fun _ => by rw [hm]; exact id
    refine h.setConsumer (by rw [hm]; exact False.elim) ⟨hc, v, hv, ?_⟩
    show (m.slot m.head_).alloc_id_ = _
    rw [hslot, Entry.mark_alloc_id_]
  · -- `loadOff`
    obtain ⟨ht, v, hv, rfl⟩ := hc
    obtain rfl := ht.token
    have hslot := h.full _ v hv ht.stored (Nat.le_refl _) fun _ => by rw [hm]; exact id
    refine h.setConsumer (by rw [hm]; exact False.elim) ⟨ht, v, hv, ?_⟩
    show ({ (m.slot m.head_).unmark with alloc_id_ := _ } : Entry β w) = _
    rw [hslot, Entry.unmark_mark v.2]
  · -- `setZero`
    obtain ⟨ht, v, hv, rfl⟩ := hc
    obtain rfl := ht.token
    exact h.setZero ht hv
  · -- `advance`
    obtain ⟨ht, ⟨v, hv, rfl⟩, hz⟩ := hc
    obtain rfl := ht.token
    have hlt := h.stored_lt ht.stored
    have htail := h.tail_lt
    rw [wordAdd_of_lt (by omega)]
    exact h.advance ht hv hz

theorem consume_rely (h : SharedInv m) (hs : consume m = some m') : Rely m m' none := by
  have hc := h.consumer
  unfold consume at hs
  split at hs <;> cases hs <;> rename_i hm <;> rw [hm] at hc
  case h_6 =>
    refine ⟨rfl, Nat.le_refl _, fun _ => id, fun _ => .inl, fun k _ _ _ => ?_⟩
    show ((m.write _ _).slot k).alloc_id_ = _
    rw [Shared.popIdx, slot_write]
    split
    · rename_i he
      rw [Shared.slot, he]
      rfl
    · rfl
  case h_7 =>
    have hlt := h.stored_lt hc.1.stored
    have htail := h.tail_lt
    obtain rfl := hc.1.token
    rw [wordAdd_of_lt (by omega)]
    exact ⟨rfl, Nat.le_succ _, fun _ => id, fun _ => .inl, fun _ _ _ _ => rfl⟩
  all_goals exact ⟨rfl, Nat.le_refl _, fun _ => id, fun _ => .inl, fun _ _ _ _ => rfl⟩

/-! ## Runs -/

theorem init_inv {depth : Nat} {b : β} (hpos : 0 < depth) :
    queueAssertion.Holds (init ι w depth b).shared (init ι w depth b).pc where
  shared := {
    depth_pos := hpos
    tail_lt := by simp [init, sizeMod]
    taken_lt := nofun
    taken_nodup := List.nodup_nil
    stored_taken := nofun
    window := nofun
    popped_length := rfl
    popped := nofun
    full := nofun
    vacant := fun _ _ _ _ hmark => by rw [Entry.isMarked_zero rfl] at hmark; cases hmark
    consumer := trivial }
  each := fun _ => trivial
  pair := fun _ _ _ => nofun

theorem SharedInv.delivers {s : State ι β w} (h : SharedInv s.shared) : Delivers s := by
  refine ⟨h.popped, h.taken_nodup, fun k hk => ?_⟩
  have ht : Taking s.shared k := by
    have hc := h.consumer
    cases hm : s.shared.consumer with
    | idle | loadTail _ _ | test _ _ => rw [hm] at hk; cases hk
    | loadId _ => rw [hm] at hk hc; cases hk; exact hc
    | loadOff _ _ | setZero _ _ | advance _ _ _ => rw [hm] at hk hc; cases hk; exact hc.1
  exact ⟨ht.token.trans h.popped_length.symm, ht.stored⟩

variable [DecidableEq ι]

theorem step_inv {s t : State ι β w} {l : Label ι β w} (hi : queueAssertion.Holds s.shared s.pc)
    (hg : Guarded s l) (h : step s l = some t) : queueAssertion.Holds t.shared t.pc := by
  have hsh : SharedInv s.shared := hi.shared
  cases l with
  | pop kind =>
    obtain ⟨m', hm, rfl⟩ := Option.map_eq_some_iff.mp h
    unfold callPop at hm
    split at hm <;> cases hm
    rename_i hidle
    have hr : Rely s.shared { s.shared with consumer := .loadTail kind s.shared.head_ } none :=
      ⟨rfl, Nat.le_refl _, fun _ => id, fun _ => .inl, fun _ _ _ _ => rfl⟩
    refine hi.environment (hsh.setConsumer (by rw [hidle]; exact False.elim) rfl) fun j hj => ?_
    exact hj.stable hsh hr nofun
  | consume =>
    obtain ⟨m', hm, rfl⟩ := Option.map_eq_some_iff.mp h
    refine hi.environment (consume_inv hsh hg hm) fun j hj => ?_
    exact hj.stable hsh (consume_rely hsh hm) nofun
  | produce i a =>
    obtain ⟨m', p', hp, rfl⟩ := Pool.step_cases h
    have hl : Local s.shared (s.pc i) := hi.each i
    have hpr := produce_cases hsh hl hg hp
    refine hi.update (hpr.shared hsh hl hg) (hpr.local hsh hl hg) fun j hj => ?_
    have hpair := hi.pair i j (Ne.symm hj)
    have hne : ∀ k, p'.held = some k → (s.pc j).held ≠ some k := fun k hk hkj => by
      rcases hpr.held hk with hki | rfl
      · exact hpair k hki hkj
      · exact Nat.lt_irrefl _ ((hi.each j).held_lt hsh hkj)
    exact ⟨(hi.each j).stable hsh (hpr.rely hsh hl) hpair, hne, fun k hkj hk => hne k hk hkj⟩

/-- **Pops of both kinds deliver in order.** Any number of producers, every
interleaving, where no pop tests an entry left marked by `pop()` before the next
value is stored to it. -/
theorem settled_delivers {depth : Nat} {b : β} {as : List (Label ι β w)} {s : State ι β w}
    (hpos : 0 < depth) (h : Run step Guarded (init ι w depth b) as s) : Delivers s := by
  have hi : queueAssertion.Holds s.shared s.pc :=
    h.invariant (init_inv hpos) fun _ _ _ hi hok hs => step_inv hi hok hs
  exact SharedInv.delivers hi.shared

private def pushes (i : Nat) (v : BitVec 8) (hv : (⟨(), v⟩ : Entry Unit 8).isMarked = false)
    (accesses : Nat) : List (Label Nat Unit 8) :=
  .produce i (.emplace ⟨⟨(), v⟩, hv⟩) :: List.replicate accesses (.produce i .access)

/-- One slot: `pop()` consumes 5, the next push stores 7 first and `pop(val)`
then returns it. -/
theorem settled_delivers_mixed : ∃ s : State Nat Unit 8,
    s.shared.hist.popped = [(.discard, 0, ⟨(), 5⟩), (.value, 1, ⟨(), 7⟩)] ∧ Delivers s := by
  let as := pushes 0 5 (by decide) 3 ++ .pop .discard :: List.replicate 3 .consume ++
    pushes 1 7 (by decide) 3 ++ .pop .value :: List.replicate 6 .consume
  have hs : (execOk step Guarded (init Nat 8 1 ()) as).map (fun s => s.shared.hist.popped) =
      some [(.discard, 0, ⟨(), 5⟩), (.value, 1, ⟨(), 7⟩)] := by decide +kernel
  obtain ⟨s, hs, hp⟩ := Option.map_eq_some_iff.mp hs
  exact ⟨s, hp, settled_delivers (by decide) (run_of_execOk hs)⟩

/-- **A discarded entry is returned again.** One slot: `pop()` consumes 5 and
leaves its entry marked; a producer takes token 1 and is paused before it stores
7; `pop(val)` then returns 5 under token 1. -/
theorem discard_leaves_mark : ¬ ∀ (depth : Nat) (as : List (Label Nat Unit 8))
    (s : State Nat Unit 8), 0 < depth → Run step Unrestricted (init Nat 8 depth ()) as s →
      Delivers s := by
  intro h
  let as := pushes 0 5 (by decide) 3 ++ .pop .discard :: List.replicate 3 .consume ++
    pushes 1 7 (by decide) 1 ++ .pop .value :: List.replicate 6 .consume
  have hs : (exec step (init Nat 8 1 ()) as).map
      (fun s => (s.shared.hist.popped, s.shared.hist.stored)) =
      some ([(.discard, 0, ⟨(), 5⟩), (.value, 1, ⟨(), 5⟩)], [0]) := by decide +kernel
  obtain ⟨s, hs, hv⟩ := Option.map_eq_some_iff.mp hs
  obtain ⟨hp, hst⟩ := Prod.mk.inj hv
  have := ((h 1 as s (by decide) (run_iff_exec.mpr hs)).popped 1 _ (by rw [hp]; rfl)).1
  rw [hst] at this
  cases List.mem_singleton.mp this

end HermesShm.Ipc.RingPtrQueue
