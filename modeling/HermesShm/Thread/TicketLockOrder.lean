import HermesShm.Thread.TicketLock
import Mathlib.Tactic.Common

/-! # The ticket locks exclude and are fair

Tickets are positions in the record of who took one. The holder's ticket is
`head_`, so the threads that have entered are the first `head_` of that record,
and the holder. `TryLock`'s test plays no part in it. -/
namespace HermesShm.Thread.TicketLock
open HermesShm.Base

variable {ι : Type*}

/-- What the lock promises in a state. -/
structure Sound (s : State ι) : Prop where
  exclusive : ∀ i j, (s.pool.pc i).Holding → (s.pool.pc j).Holding → i = j
  head_le : s.pool.shared.head_ ≤ s.pool.shared.lock_
  queued : Count Pc.Queued s.pool.pc (s.pool.shared.lock_ - s.pool.shared.head_)
  fifo : s.entered <+: s.took

/-- The step takes a ticket. -/
def TakesTicket : Pc → Act → Prop
  | .idle, .lock | .takeTicket, .access _ => True
  | _, _ => False

/-- The condition on a step: the ticket counter does not wrap. -/
def NoWrap (s : State ι) (l : ι × Act) : Prop :=
  TakesTicket (s.pool.pc l.1) l.2 → s.pool.shared.lock_ + 1 < minU64

instance : ∀ p a, Decidable (TakesTicket p a)
  | .idle, .lock | .takeTicket, .access _ => isTrue trivial
  | .idle, .tryLock | .idle, .access _ | .takeTicket, .lock | .takeTicket, .tryLock
  | .loadEither, _ | .loadHead _, _ | .loadLock _, _ | .undoTry, _ | .spin _, _ | .yield _, _
  | .holding _, _ => isFalse id

instance (s : State ι) (l : ι × Act) : Decidable (NoWrap s l) :=
  inferInstanceAs (Decidable (_ → _))

/-! ## What one access does -/

/-- A step moves no ticket and lets nobody in or out, takes a ticket, enters,
or leaves. -/
inductive Effect (l : TicketLock) (p : Pc) (a : Act) (l' : TicketLock) (p' : Pc) : Prop
  | quiet : l'.lock_ = l.lock_ → l'.head_ = l.head_ → p'.ticket = p.ticket →
      (p'.Holding ↔ p.Holding) → Effect l p a l' p'
  | take : TakesTicket p a → p.ticket = none → p' = .spin l.lock_ →
      l' = { l with lock_ := wordAdd minU64 l.lock_ 1 } → Effect l p a l' p'
  | enter : p = .spin l.head_ → p' = .holding l.head_ → l' = l → Effect l p a l' p'
  | leave (tkt : Nat) : p = .holding tkt → p' = .idle →
      l' = { l with head_ := wordAdd minU64 l.head_ 1 } → Effect l p a l' p'

theorem afterLoads_ticket (lock head : Nat) : (afterLoads lock head).ticket = none := by
  unfold afterLoads
  split <;> rfl

theorem afterLoads_holding (lock head : Nat) : ¬ (afterLoads lock head).Holding := by
  unfold afterLoads
  split <;> exact id

theorem access_effect {yields headFirst : Bool} {l l' : TicketLock} {p p' : Pc}
    (h : access yields l headFirst p = some (l', p')) :
    Effect l p (.access headFirst) l' p' := by
  cases p with
  | idle => cases h
  | loadEither =>
    cases h
    cases headFirst with
    | true => exact .quiet rfl rfl rfl Iff.rfl
    | false => exact .quiet rfl rfl rfl Iff.rfl
  | loadHead lock =>
    cases h
    exact .quiet rfl rfl (afterLoads_ticket _ _) (iff_of_false (afterLoads_holding _ _) id)
  | loadLock head =>
    cases h
    exact .quiet rfl rfl (afterLoads_ticket _ _) (iff_of_false (afterLoads_holding _ _) id)
  | undoTry => cases h; exact .quiet rfl rfl rfl Iff.rfl
  | takeTicket => cases h; exact .take trivial rfl rfl rfl
  | spin tkt =>
    simp only [access] at h
    split at h
    · rename_i ht
      cases h
      exact .enter (by rw [ht]) (by rw [ht]) rfl
    · cases h
      cases yields with
      | true => exact .quiet rfl rfl rfl Iff.rfl
      | false => exact .quiet rfl rfl rfl Iff.rfl
  | yield tkt => cases h; exact .quiet rfl rfl rfl Iff.rfl
  | holding tkt => cases h; exact .leave tkt rfl rfl rfl

theorem act_effect {yields : Bool} {l l' : TicketLock} {p p' : Pc} {a : Act}
    (h : act yields l p a = some (l', p')) : Effect l p a l' p' := by
  unfold act at h
  split at h
  · cases h; exact .take trivial rfl rfl rfl
  · cases h
    refine .quiet rfl rfl ?_ ?_
    · split <;> rfl
    · split <;> exact Iff.rfl
  · exact access_effect h
  · cases h

/-! ## The invariant -/

structure Inv (l : TicketLock) (pc : ι → Pc) (took entered : List ι) : Prop where
  head_le : l.head_ ≤ l.lock_
  lock_lt : l.lock_ < minU64
  queued : Count Pc.Queued pc (l.lock_ - l.head_)
  length : took.length = l.lock_
  ticket : ∀ i tkt, (pc i).ticket = some tkt → l.head_ ≤ tkt ∧ took[tkt]? = some i
  turn : ∀ i, (pc i).Holding → (pc i).ticket = some l.head_
  held : ∀ i, (pc i).Holding → entered = took.take (l.head_ + 1)
  free : (∀ i, ¬ (pc i).Holding) → entered = took.take l.head_

abbrev State.Inv (s : State ι) : Prop :=
  TicketLock.Inv s.pool.shared s.pool.pc s.took s.entered

variable {l l' : TicketLock} {pc : ι → Pc} {took entered : List ι} {i j : ι} {p : Pc} {tkt : Nat}

theorem Inv.ticket_inj (h : Inv l pc took entered) (hi : (pc i).ticket = some tkt)
    (hj : (pc j).ticket = some tkt) : i = j := by
  have hi := (h.ticket i tkt hi).2
  have hj := (h.ticket j tkt hj).2
  exact Option.some.inj (hi.symm.trans hj)

theorem Inv.exclusive (h : Inv l pc took entered) (hi : (pc i).Holding) (hj : (pc j).Holding) :
    i = j :=
  h.ticket_inj (h.turn i hi) (h.turn j hj)

theorem Inv.ticket_lt (h : Inv l pc took entered) (hi : (pc i).ticket = some tkt) :
    tkt < l.lock_ := by
  obtain ⟨hlt, -⟩ := List.getElem?_eq_some_iff.mp (h.ticket i tkt hi).2
  exact h.length ▸ hlt

theorem Inv.fifo (h : Inv l pc took entered) : entered <+: took := by
  by_cases hh : ∃ i, (pc i).Holding
  · obtain ⟨i, hi⟩ := hh
    rw [h.held i hi]
    exact List.take_prefix _ _
  · rw [h.free fun i hi => hh ⟨i, hi⟩]
    exact List.take_prefix _ _

theorem State.Inv.sound {s : State ι} (h : s.Inv) : Sound s where
  exclusive _ _ hi hj := h.exclusive hi hj
  head_le := h.head_le
  queued := h.queued
  fifo := h.fifo

theorem init_inv : (init ι).Inv where
  head_le := Nat.le_refl _
  lock_lt := by simp [init, minU64]
  queued := Count.zero fun _ => nofun
  length := rfl
  ticket _ _ h := by cases h
  turn _ h := h.elim
  held _ h := h.elim
  free _ := rfl

/-! ## One step keeps it -/

variable [DecidableEq ι]

theorem step_cases {yields : Bool} {s t : State ι} {a : Act}
    (h : step yields s (i, a) = some t) :
    ∃ l p, Effect s.pool.shared (s.pool.pc i) a l p ∧
      t = { pool := ⟨l, Function.update s.pool.pc i p⟩
            took := if ¬ (s.pool.pc i).Queued ∧ p.Queued then s.took ++ [i] else s.took
            entered := if ¬ (s.pool.pc i).Holding ∧ p.Holding then s.entered ++ [i]
              else s.entered } := by
  obtain ⟨u, hu, rfl⟩ := Option.map_eq_some_iff.mp h
  obtain ⟨l, p, hact, rfl⟩ := Pool.step_cases hu
  refine ⟨l, p, act_effect hact, ?_⟩
  simp

theorem Inv.quiet (h : Inv l pc took entered) (hlock : l'.lock_ = l.lock_)
    (hhead : l'.head_ = l.head_) (htkt : p.ticket = (pc i).ticket)
    (hhold : p.Holding ↔ (pc i).Holding) :
    Inv l' (Function.update pc i p) took entered := by
  have hsame : ∀ j, (Function.update pc i p j).ticket = (pc j).ticket ∧
      ((Function.update pc i p j).Holding ↔ (pc j).Holding) := by
    intro j
    obtain rfl | hj := eq_or_ne j i
    · rw [Function.update_self]
      exact ⟨htkt, hhold⟩
    · rw [Function.update_of_ne hj]
      exact ⟨rfl, Iff.rfl⟩
  constructor
  · rw [hhead, hlock]; exact h.head_le
  · rw [hlock]; exact h.lock_lt
  · rw [hhead, hlock]
    exact h.queued.same rfl (by rw [Pc.Queued, htkt, Pc.Queued])
  · rw [hlock]; exact h.length
  · intro j tkt hj
    rw [hhead]
    exact h.ticket j tkt ((hsame j).1 ▸ hj)
  · intro j hj
    rw [hhead, (hsame j).1]
    exact h.turn j ((hsame j).2.mp hj)
  · intro j hj
    rw [hhead]
    exact h.held j ((hsame j).2.mp hj)
  · intro hnone
    rw [hhead]
    exact h.free fun j hj => hnone j ((hsame j).2.mpr hj)

/-- The new ticket is the last position of `took`. -/
theorem Inv.take (h : Inv l pc took entered) (hnone : (pc i).ticket = none)
    (hlt : l.lock_ + 1 < minU64) :
    Inv { l with lock_ := l.lock_ + 1 } (Function.update pc i (.spin l.lock_)) (took ++ [i])
      entered := by
  have hout : ¬ (pc i).Holding := by
    intro hi
    rw [h.turn i hi] at hnone
    cases hnone
  have hhold : ∀ j, (Function.update pc i (.spin l.lock_) j).Holding ↔ (pc j).Holding := by
    intro j
    obtain rfl | hj := eq_or_ne j i
    · rw [Function.update_self]
      exact iff_of_false id hout
    · rw [Function.update_of_ne hj]
  constructor
  · exact Nat.le_succ_of_le h.head_le
  · exact hlt
  · have hin : (Pc.spin l.lock_).Queued := rfl
    have hq := h.queued.enter rfl (by rw [Pc.Queued, hnone]; nofun) hin
    rw [← Nat.sub_add_comm h.head_le] at hq
    exact hq
  · simp only [List.length_append, List.length_singleton, h.length]
  · intro j tkt htkt
    obtain rfl | hj := eq_or_ne j i
    · rw [Function.update_self] at htkt
      cases htkt
      exact ⟨h.head_le, by rw [← h.length]; exact List.getElem?_concat_length⟩
    · rw [Function.update_of_ne hj] at htkt
      obtain ⟨hhead, hget⟩ := h.ticket j tkt htkt
      exact ⟨hhead, by rw [List.getElem?_append_left (h.length ▸ h.ticket_lt htkt)]; exact hget⟩
  · intro j hj
    have hpc := (hhold j).mp hj
    have hji : j ≠ i := fun he => hout (he ▸ hpc)
    rw [Function.update_of_ne hji]
    exact h.turn j hpc
  · intro j hj
    have hpc := (hhold j).mp hj
    rw [List.take_append_of_le_length (h.length ▸ h.ticket_lt (h.turn j hpc))]
    exact h.held j hpc
  · intro hfree
    rw [List.take_append_of_le_length (by rw [h.length]; exact h.head_le)]
    exact h.free fun j hj => hfree j ((hhold j).mpr hj)

/-- Nobody holds the lock when the thread with ticket `head_` sees its turn. -/
theorem Inv.enter (h : Inv l pc took entered) (hi : pc i = .spin l.head_) :
    Inv l (Function.update pc i (.holding l.head_)) took (entered ++ [i]) := by
  have htkt : (pc i).ticket = some l.head_ := by rw [hi]; rfl
  have hfree : ∀ j, ¬ (pc j).Holding := by
    intro j hj
    have hji : j = i := h.ticket_inj (h.turn j hj) htkt
    rw [hji, hi] at hj
    exact hj
  have hsame : ∀ j, (Function.update pc i (.holding l.head_) j).ticket = (pc j).ticket := by
    intro j
    obtain rfl | hj := eq_or_ne j i
    · rw [Function.update_self, htkt]
      rfl
    · rw [Function.update_of_ne hj]
  constructor
  · exact h.head_le
  · exact h.lock_lt
  · exact h.queued.same hi Iff.rfl
  · exact h.length
  · intro j tkt hj
    exact h.ticket j tkt (hsame j ▸ hj)
  · intro j hj
    obtain rfl | hne := eq_or_ne j i
    · rw [hsame j, htkt]
    · rw [Function.update_of_ne hne] at hj
      exact absurd hj (hfree j)
  · intro _ _
    rw [h.free hfree, List.take_add_one, (h.ticket i _ htkt).2]
    rfl
  · intro hnone
    have hout := hnone i
    rw [Function.update_self] at hout
    exact (hout trivial).elim

/-- The ticket after the holder's is the next one due. -/
theorem Inv.leave (h : Inv l pc took entered) (hhold : (pc i).Holding) :
    Inv { l with head_ := l.head_ + 1 } (Function.update pc i .idle) took entered := by
  have hturn := h.turn i hhold
  have hout : ∀ j, ¬ (Function.update pc i .idle j).Holding := by
    intro j hj
    obtain rfl | hne := eq_or_ne j i
    · rw [Function.update_self] at hj
      exact hj
    · rw [Function.update_of_ne hne] at hj
      exact hne (h.exclusive hj hhold)
  constructor
  · exact h.ticket_lt hturn
  · exact h.lock_lt
  · have hq := h.queued.leave (x := .idle) rfl (by rw [Pc.Queued, hturn]; rfl) nofun
    rw [Nat.sub_sub] at hq
    exact hq
  · exact h.length
  · intro j tkt htkt
    obtain rfl | hj := eq_or_ne j i
    · rw [Function.update_self] at htkt
      cases htkt
    · rw [Function.update_of_ne hj] at htkt
      obtain ⟨hle, hget⟩ := h.ticket j tkt htkt
      refine ⟨Nat.lt_of_le_of_ne hle ?_, hget⟩
      intro he
      exact hj (h.ticket_inj htkt (he ▸ hturn))
  · intro j hj
    exact absurd hj (hout j)
  · intro j hj
    exact absurd hj (hout j)
  · intro _
    exact h.held i hhold

theorem step_inv {yields : Bool} {s t : State ι} {la : ι × Act} (h : s.Inv) (hg : NoWrap s la)
    (hs : step yields s la = some t) : t.Inv := by
  obtain ⟨i, a⟩ := la
  obtain ⟨l, p, heff, rfl⟩ := step_cases hs
  cases heff with
  | quiet hlock hhead htkt hhold =>
    rw [if_neg (by rw [Pc.Queued, Pc.Queued, htkt]; exact fun hq => hq.1 hq.2),
      if_neg (by rw [hhold]; exact fun hq => hq.1 hq.2)]
    exact h.quiet hlock hhead htkt hhold
  | take ht hnone hp hl =>
    subst hp hl
    rw [if_pos ⟨by rw [Pc.Queued, hnone]; nofun, rfl⟩, if_neg fun hq => hq.2,
      wordAdd_of_lt (hg ht)]
    exact h.take hnone (hg ht)
  | enter hi hp hl =>
    subst hp hl
    rw [hi, if_neg fun hq => hq.1 rfl, if_pos ⟨id, trivial⟩]
    exact h.enter hi
  | leave tkt hi hp hl =>
    subst hp hl
    have hhold : (s.pool.pc i).Holding := by rw [hi]; trivial
    have hlt : s.pool.shared.head_ + 1 < minU64 :=
      Nat.lt_of_le_of_lt (h.ticket_lt (h.turn i hhold)) h.lock_lt
    rw [hi, if_neg fun hq => hq.1 rfl, if_neg fun hq => hq.2, wordAdd_of_lt hlt]
    exact h.leave hhold

theorem run_inv {yields : Bool} {as : List (ι × Act)} {s : State ι}
    (hr : Run (step yields) NoWrap (init ι) as s) : s.Inv :=
  hr.invariant init_inv fun _ _ _ h hg hs => step_inv h hg hs

/-- **The ticket locks.** In every run of `Mutex` and of `SpinLock` whose ticket
counter does not wrap, one thread at most holds the lock, `lock_ - head_` counts
the threads queued, and the threads enter in the order of their tickets. -/
theorem sound_of_noWrap {as : List (ι × Act)} {s : State ι}
    (hr : Run Mutex.step NoWrap (init ι) as s ∨ Run SpinLock.step NoWrap (init ι) as s) :
    Sound s := by
  obtain hr | hr := hr
  · exact (run_inv hr).sound
  · exact (run_inv hr).sound

/-- `TryLock` of thread 1 passes its test before thread 0 takes its ticket; it
then waits for thread 0. -/
def staleTry : List (Fin 2 × Act) :=
  let i : Fin 2 := ⟨0, Nat.zero_lt_two⟩
  let j : Fin 2 := ⟨1, Nat.one_lt_two⟩
  [(j, .tryLock), (j, .access true), (j, .access false), (i, .lock), (i, .access false),
    (j, .access false), (j, .access false), (i, .access false), (j, .access false),
    (j, .access false)]

theorem sound_of_noWrap_staleTry :
    ∃ s : State (Fin 2),
      s.took = [0, 1] ∧ s.entered = [0, 1] ∧ (s.pool.pc 1).Holding ∧ Sound s := by
  have hex : (execOk Mutex.step NoWrap (init (Fin 2)) staleTry).map
      (fun s => (s.took, s.entered, s.pool.pc 1)) = some ([0, 1], [0, 1], .holding 1) := by
    decide +kernel
  obtain ⟨s, hs, he⟩ := Option.map_eq_some_iff.mp hex
  obtain ⟨ht, he, hp⟩ : s.took = [0, 1] ∧ s.entered = [0, 1] ∧ s.pool.pc 1 = .holding 1 := by
    simpa using he
  refine ⟨s, ht, he, by rw [hp]; trivial, ?_⟩
  exact sound_of_noWrap (.inl (run_of_execOk hs))

end HermesShm.Thread.TicketLock
