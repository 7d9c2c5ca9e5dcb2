import HermesShm.Ipc.RingQueueDeque

/-! # Peeking into the ring queue

`peek` maps a token to its slot. It turns down the tokens from `tail_` on, and
leaves it to the ready bit of the slot to turn down those below `head_`. -/
namespace HermesShm.Ipc.RingQueue
open HermesShm.Base

variable {α : Type*}

/-- `peek(entry, tok)`: the pair, `none` for the null token. -/
def Ring.peek (r : Ring α) (tok : Nat) : Option (Slot α) :=
  if qtok tok = none ∨ r.tail_ ≤ tok then none
  else
    let idx := r.popIdx tok
    if r.any idx 1 then some (r.queue_ idx) else none

/-- A queue and the values in it, each with the token that `emplace` returned
for it. No call reads them. -/
structure Tagged (α : Type*) where
  ring : Ring α
  live : List (α × Nat) := []

namespace Tagged

def init (α : Type*) (depth : Nat) : Tagged α := { ring := { depth } }

def step (flags : RingQueueFlag) (s : Tagged α) : Deque.Call α → Option (Tagged α)
  | .pushBack v => (s.ring.emplaceAlone flags v).map fun (tok, ring) =>
    { ring, live := s.live ++ (tok.map (v, ·)).toList }
  | .popFront =>
    let (res, ring) := s.ring.pop
    some { ring, live := if res.isSome then s.live.tail else s.live }
  | .dropFront =>
    let (res, ring) := s.ring.popDiscard
    some { ring, live := if res.isSome then s.live.tail else s.live }
  | .popBack =>
    let (res, ring) := s.ring.popBack
    some { ring, live := if res.isSome then s.live.dropLast else s.live }
  | .size => some s

def Allowed (s : Tagged α) (c : Deque.Call α) : Prop := s.ring.CallFits c

instance (s : Tagged α) (c : Deque.Call α) : Decidable (Allowed s c) :=
  inferInstanceAs (Decidable (s.ring.CallFits c))

/-- What `peek` is meant to tell of a token: whether its value is in the queue,
which is whether it is between the counters, and then the value. -/
structure PeekSound (s : Tagged α) (tok : Nat) : Prop where
  window : (∃ v, (v, tok) ∈ s.live) ↔ s.ring.head_ ≤ tok ∧ tok < s.ring.tail_
  found : (s.ring.peek tok).isSome ↔ ∃ v, (v, tok) ∈ s.live
  value : ∀ e v, s.ring.peek tok = some e → (v, tok) ∈ s.live → e.second = some v

/-- The value of `tok` is gone, and a value in the queue has its slot. -/
def Shadowed (s : Tagged α) (tok : Nat) : Prop :=
  tok < s.ring.head_ ∧ ∃ t, s.ring.head_ ≤ t ∧ t < s.ring.tail_ ∧
    t % s.ring.depth = tok % s.ring.depth

/-! ## Runs -/

structure Inv (s : Tagged α) (xs : List α) : Prop where
  stores : s.ring.Stores xs
  live : s.live = xs.zipIdx s.ring.head_

theorem step_inv {flags : RingQueueFlag} {s t : Tagged α} {xs : List α} {c : Deque.Call α}
    (hi : Inv s xs) (hfl : waitForSpace flags = true ∨ errorOnNoSpace flags = true)
    (hok : Allowed s c) (h : step flags s c = some t) : ∃ ys, Inv t ys := by
  obtain ⟨hst, hlive⟩ := hi
  cases c with
  | pushBack v =>
    obtain ⟨res, hres, ht⟩ := Option.map_eq_some_iff.mp h
    cases ht
    have hemp := hst.emplaceAlone hfl (by rwa [Allowed, Ring.CallFits, hst.size] at hok) hres
    split at hemp
    · obtain ⟨htok, hst', -, hhead⟩ := hemp
      refine ⟨xs ++ [v], hst', ?_⟩
      simp only [htok, hhead, List.zipIdx_append, hlive, hst.tail]
      rw [Nat.add_comm]
      rfl
    · rw [hemp]
      exact ⟨xs, hst, by rw [hlive]; exact List.append_nil _⟩
  | popFront =>
    cases xs with
    | nil =>
      simp only [step, hst.pop_nil] at h
      cases h
      exact ⟨[], hst, hlive⟩
    | cons x xs =>
      simp only [step, hst.pop_eq] at h
      cases h
      exact ⟨xs, hst.behead rfl, by rw [hlive]; rfl⟩
  | dropFront =>
    cases xs with
    | nil =>
      simp only [step, hst.popDiscard_nil] at h
      cases h
      exact ⟨[], hst, hlive⟩
    | cons x xs =>
      simp only [step, hst.popDiscard_cons] at h
      cases h
      exact ⟨xs, hst.behead rfl, by rw [hlive]; rfl⟩
  | popBack =>
    rcases List.eq_nil_or_concat xs with rfl | ⟨ys, y, rfl⟩
    · simp only [step, hst.popBack_nil] at h
      cases h
      exact ⟨[], hst, hlive⟩
    · rw [List.concat_eq_append] at hst hlive
      simp only [step, hst.popBack_append] at h
      cases h
      refine ⟨ys, hst.unappend rfl, ?_⟩
      simp only [Option.isSome_some, if_true, hlive, List.zipIdx_append, List.zipIdx_singleton,
        List.dropLast_concat]
      rfl
  | size =>
    cases h
    exact ⟨xs, hst, hlive⟩

namespace Inv

variable {s : Tagged α} {xs : List α} {tok : Nat}

theorem mem_live (h : Inv s xs) {v : α} :
    (v, tok) ∈ s.live ↔ s.ring.head_ ≤ tok ∧ xs[tok - s.ring.head_]? = some v := by
  rw [h.live]
  exact List.mk_mem_zipIdx_iff_le_and_getElem?_sub

theorem window (h : Inv s xs) :
    (∃ v, (v, tok) ∈ s.live) ↔ s.ring.head_ ≤ tok ∧ tok < s.ring.tail_ := by
  have htail := h.stores.tail
  simp only [h.mem_live, exists_and_left]
  refine and_congr_right fun hle => ⟨fun ⟨v, hv⟩ => ?_, fun hlt => ?_⟩
  · have := (List.getElem?_eq_some_iff.mp hv).1
    omega
  · exact ⟨_, List.getElem?_eq_getElem (by omega)⟩

/-- The slot of a value in the queue. -/
theorem slot (h : Inv s xs) {v : α} (hv : (v, tok) ∈ s.live) :
    s.ring.queue_ (tok % s.ring.depth) = ⟨1, some v⟩ := by
  obtain ⟨hle, hget⟩ := h.mem_live.mp hv
  have := h.stores.slot _ v hget
  rwa [Nat.add_sub_cancel' hle] at this

theorem any_slot (h : Inv s xs) {v : α} (hv : (v, tok) ∈ s.live) :
    s.ring.any (tok % s.ring.depth) 1 = true := by
  simp [Ring.any, h.slot hv]

theorem peek_lt (h : Inv s xs) (hlt : tok < s.ring.tail_) :
    s.ring.peek tok = if s.ring.any (tok % s.ring.depth) 1
      then some (s.ring.queue_ (tok % s.ring.depth)) else none := by
  have := h.stores.tail_lt
  rw [Ring.peek, qtok_of_lt (by omega), if_neg (by simp only [reduceCtorEq, false_or]; omega)]
  rfl

theorem peekSound_iff (h : Inv s xs) : PeekSound s tok ↔ ¬ Shadowed s tok := by
  constructor
  · rintro hp ⟨hlt, t, hle, ht, hslot⟩
    obtain ⟨v, hv⟩ := h.window.mpr ⟨hle, ht⟩
    have hany : s.ring.any (tok % s.ring.depth) 1 = true := hslot ▸ h.any_slot hv
    have hfound : (s.ring.peek tok).isSome := by
      rw [h.peek_lt (Nat.lt_trans hlt (Nat.lt_of_le_of_lt hle ht)), if_pos hany]
      rfl
    exact absurd (h.window.mp (hp.found.mp hfound)).1 (Nat.not_le.mpr hlt)
  · intro hs
    refine ⟨h.window, ?_, fun e v he hv => ?_⟩
    · rcases Nat.lt_or_ge tok s.ring.tail_ with hlt | hge
      · rw [h.peek_lt hlt]
        rcases Nat.lt_or_ge tok s.ring.head_ with hdead | hle
        · -- the slot of no value in the queue has its ready bit cleared
          have hfirst := h.stores.clean (tok % s.ring.depth) fun i hi he => hs
            ⟨hdead, _, Nat.le_add_right _ i, by have := h.stores.tail; omega, he⟩
          have hany : s.ring.any (tok % s.ring.depth) 1 = false := by
            simp [Ring.any, hfirst]
          rw [hany, if_neg Bool.false_ne_true, h.window]
          simp only [Option.isSome_none, Bool.false_eq_true, false_iff]
          omega
        · obtain ⟨v, hv⟩ := h.window.mpr ⟨hle, hlt⟩
          rw [h.any_slot hv, if_pos rfl]
          exact ⟨fun _ => ⟨v, hv⟩, fun _ => rfl⟩
      · rw [Ring.peek, if_pos (.inr hge), h.window]
        simp only [Option.isSome_none, Bool.false_eq_true, false_iff]
        omega
    · rw [h.peek_lt (h.window.mp ⟨v, hv⟩).2, if_pos (h.any_slot hv), h.slot hv] at he
      cases he
      rfl

end Inv

/-- A ring without slots stays empty. -/
def Slotless (s : Tagged α) : Prop :=
  s.ring.depth = 0 ∧ s.ring.head_ = 0 ∧ s.ring.tail_ = 0 ∧ s.live = []

theorem step_slotless {flags : RingQueueFlag} {s t : Tagged α} {c : Deque.Call α}
    (hfl : waitForSpace flags = true ∨ errorOnNoSpace flags = true) (hs : Slotless s)
    (h : step flags s c = some t) : Slotless t := by
  obtain ⟨hd, hh, ht, hl⟩ := hs
  have hle : s.ring.tail_ ≤ s.ring.head_ := by rw [ht, hh]
  have hspace : s.ring.depth < Ring.spaceFor s.ring.tail_ s.ring.head_ := by
    rw [hd, hh, ht]
    decide
  cases c with
  | pushBack v =>
    obtain ⟨res, hres, hcase⟩ := Option.map_eq_some_iff.mp h
    cases hcase
    rw [Ring.emplaceAlone] at hres
    split at hres
    · cases hres
    rename_i hwait
    cases hres
    have he : errorOnNoSpace flags = true := hfl.resolve_left fun hw =>
      hwait (Bool.and_eq_true_iff.mpr ⟨hw, decide_eq_true hspace⟩)
    rw [Ring.emplaceSerial_reject (by rw [ht]; decide) he hspace]
    exact ⟨hd, hh, ht, by rw [hl]; rfl⟩
  | popFront =>
    simp only [step, show s.ring.pop = (none, s.ring) from if_pos hle] at h
    cases h
    exact ⟨hd, hh, ht, hl⟩
  | dropFront =>
    simp only [step, show s.ring.popDiscard = (none, s.ring) from if_pos hle] at h
    cases h
    exact ⟨hd, hh, ht, hl⟩
  | popBack =>
    simp only [step, show s.ring.popBack = (none, s.ring) from if_pos hle] at h
    cases h
    exact ⟨hd, hh, ht, hl⟩
  | size =>
    cases h
    exact ⟨hd, hh, ht, hl⟩

theorem Slotless.peekSound_iff {s : Tagged α} {tok : Nat} (h : Slotless s) :
    PeekSound s tok ↔ ¬ Shadowed s tok := by
  obtain ⟨-, hh, ht, hl⟩ := h
  have hpeek : s.ring.peek tok = none := if_pos (.inr (by rw [ht]; exact Nat.zero_le _))
  refine iff_of_true ⟨?_, ?_, ?_⟩ fun hsh => ?_
  · simp [hl, ht]
  · simp [hpeek, hl]
  · simp [hpeek]
  · have := hsh.1
    omega

/-- **When `peek` tells right.** In every run whose tokens fit: of each token
but those whose value is gone and whose slot a value in the queue has. -/
theorem peek_sound_iff {flags : RingQueueFlag} {depth : Nat} {calls : List (Deque.Call α)}
    {s : Tagged α} (hfl : waitForSpace flags = true ∨ errorOnNoSpace flags = true)
    (h : Run (step flags) Allowed (init α depth) calls s) (tok : Nat) :
    PeekSound s tok ↔ ¬ Shadowed s tok := by
  rcases Nat.eq_zero_or_pos depth with rfl | hpos
  · have hs : Slotless s := h.invariant ⟨rfl, rfl, rfl, rfl⟩
      fun _ _ _ hs _ ht => step_slotless hfl hs ht
    exact hs.peekSound_iff
  · obtain ⟨xs, hi⟩ : ∃ xs, Inv s xs := h.invariant (I := fun s => ∃ xs, Inv s xs)
      ⟨[], .init hpos, rfl⟩ fun _ _ _ ⟨_, hi⟩ hok ht => step_inv hi hfl hok ht
    exact hi.peekSound_iff

/-- Two slots, gone round once: the token of the value left is told. -/
theorem peek_sound_iff_wraps : ∃ s : Tagged Nat,
    s.live = [(30, 2)] ∧ ¬ Shadowed s 2 ∧ PeekSound s 2 := by
  have hs : (execOk (step spscFlags) Allowed (init Nat 2)
      [.pushBack 10, .pushBack 20, .popFront, .pushBack 30, .popFront]).map
      (fun s => (s.live, s.ring.head_)) = some ([(30, 2)], 2) := by
    decide +kernel
  obtain ⟨s, hs, hv⟩ := Option.map_eq_some_iff.mp hs
  obtain ⟨hl, hh⟩ := Prod.mk.inj hv
  have hsh : ¬ Shadowed s 2 := fun hsh => by
    have := hsh.1
    omega
  exact ⟨s, hl, hsh, (peek_sound_iff (.inl rfl) (run_of_execOk hs) 2).mpr hsh⟩

/-- **A token outlives its value.** One slot: the value of token 0 is popped, the
next value takes its slot, and `peek` of token 0 tells it. -/
theorem popped_token_peeked : ¬ ∀ (flags : RingQueueFlag) (depth : Nat)
    (calls : List (Deque.Call Nat)) (s : Tagged Nat) (tok : Nat),
    waitForSpace flags = true ∨ errorOnNoSpace flags = true →
    Run (step flags) Unrestricted (init Nat depth) calls s → PeekSound s tok := by
  intro h
  have hs : (exec (step spscFlags) (init Nat 1) [.pushBack 10, .popFront, .pushBack 20]).map
      (fun s => ((s.ring.peek 0).isSome, s.live)) = some (true, [(20, 1)]) := by
    decide +kernel
  obtain ⟨s, hs, hv⟩ := Option.map_eq_some_iff.mp hs
  obtain ⟨hp, hl⟩ := Prod.mk.inj hv
  obtain ⟨v, hv⟩ := (h spscFlags 1 _ s 0 (.inl rfl) (run_iff_exec.mpr hs)).found.mp hp
  rw [hl] at hv
  simp at hv

end Tagged
end HermesShm.Ipc.RingQueue
