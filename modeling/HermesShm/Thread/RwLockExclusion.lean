import HermesShm.Thread.RwLock
import Mathlib.Tactic.Common

/-! # When the reader-writer lock excludes

`UpdateMode` resets `mode_` after reading a counter that was zero; a reader or
writer that enters in between keeps the lock it has just been given while
`mode_` is reset under it. The lock excludes in every run in which the counter
is still zero when the reset happens; `Guarded` says so step by step. -/
namespace HermesShm.Thread.RwLock
open HermesShm.Base

variable {ι : Type*}

/-- No thread writes while another one writes or reads. -/
def Exclusive (s : State ι) : Prop :=
  ∀ i j, i ≠ j → ∀ tkt, s.pc i = .writing tkt →
    (∀ tkt', s.pc j ≠ .writing tkt') ∧ s.pc j ≠ .reading

/-- When `UpdateMode` resets `mode_`, the counter it tested is still zero; and
the ticket stays below the 32 bits of `cur_writer_`. -/
def ResetGuard (l : RwLock) (spurious : Bool) : Pc → Prop
  | .casNone _ mode => spurious = false → l.mode_ = mode →
      (mode = .kRead → l.readers_ = 0) ∧ (mode = .kWrite → l.writers_ = 0)
  | .takeTicket => l.ticket_ + 1 < regUint
  | _ => True

/-- The condition on a step: the reset guard, and no 32-bit counter wraps. -/
def Guarded (s : State ι) (l : ι × Act) : Prop :=
  match l.2 with
  | .readLock => s.shared.readers_ + 1 < regUint
  | .writeLock => s.shared.writers_ + 1 < regUint
  | .access spurious => ResetGuard s.shared spurious (s.pc l.1)

instance (l : RwLock) (spurious : Bool) : ∀ p, Decidable (ResetGuard l spurious p)
  | .casNone _ _ => inferInstanceAs (Decidable (_ → _ → _ ∧ _))
  | .takeTicket => inferInstanceAs (Decidable (_ < _))
  | .idle | .loadMode _ | .loadReaders _ _ | .loadWriters _ _ | .casRead | .reading | .casWrite _
  | .reloadMode _ | .loadCurWriter _ | .writing _ | .passOn _ => isTrue trivial

instance (s : State ι) : ∀ l, Decidable (Guarded s l)
  | (_, .readLock) => inferInstanceAs (Decidable (_ < _))
  | (_, .writeLock) => inferInstanceAs (Decidable (_ < _))
  | (i, .access spurious) => inferInstanceAs (Decidable (ResetGuard s.shared spurious (s.pc i)))

/-! ## What a program point says about the lock -/

def Caller.ticket : Caller → Option Nat
  | .reader => none
  | .writer tkt => some tkt

/-- Counted in `readers_`. -/
def Pc.isReader : Pc → Prop
  | .loadMode c | .loadReaders c _ | .loadWriters c _ | .casNone c _ => c = .reader
  | .casRead | .reading => True
  | _ => False

/-- Counted in `writers_`. -/
def Pc.isWriter : Pc → Prop
  | .loadMode c | .loadReaders c _ | .loadWriters c _ | .casNone c _ => c ≠ .reader
  | .takeTicket | .casWrite _ | .reloadMode _ | .loadCurWriter _ | .writing _ => True
  | _ => False

/-- A reader that has seen `kRead`. -/
def Pc.sawRead : Pc → Prop
  | .loadReaders c mode | .loadWriters c mode => c = .reader ∧ mode = .kRead
  | .reading => True
  | _ => False

/-- A writer that has seen `kWrite`. -/
def Pc.sawWrite : Pc → Prop
  | .loadReaders c mode | .loadWriters c mode => c ≠ .reader ∧ mode = .kWrite
  | .loadCurWriter _ | .writing _ => True
  | _ => False

/-- The ticket a thread holds. -/
def Pc.ticket : Pc → Option Nat
  | .loadMode c | .loadReaders c _ | .loadWriters c _ | .casNone c _ => c.ticket
  | .casWrite tkt | .reloadMode tkt | .loadCurWriter tkt | .writing tkt | .passOn tkt => some tkt
  | _ => none

/-- The ticket of the thread whose turn it is. -/
def Pc.turn : Pc → Option Nat
  | .writing tkt | .passOn tkt => some tkt
  | _ => none

/-- A reset its caller cannot have prepared: the caller itself is counted. -/
def Pc.ownReset : Pc → Prop
  | .casNone c mode => (c = .reader ∧ mode = .kRead) ∨ (c ≠ .reader ∧ mode = .kWrite)
  | _ => False

theorem Pc.sawRead_isReader {p : Pc} (h : p.sawRead) : p.isReader := by
  cases p <;> first | exact h.1 | trivial

theorem Pc.sawWrite_isWriter {p : Pc} (h : p.sawWrite) : p.isWriter := by
  cases p <;> first | exact h.1 | trivial

theorem Pc.turn_ticket {p : Pc} {tkt : Nat} (h : p.turn = some tkt) : p.ticket = some tkt := by
  unfold turn at h
  split at h <;> first | exact h | cases h

/-- What one thread's program point asserts of the lock. -/
structure Local (l : RwLock) (p : Pc) : Prop where
  sawRead : p.sawRead → l.mode_ = .kRead
  sawWrite : p.sawWrite → l.mode_ = .kWrite
  ticket : ∀ tkt, p.ticket = some tkt → l.cur_writer_ ≤ tkt ∧ tkt < l.ticket_
  turn : ∀ tkt, p.turn = some tkt → l.cur_writer_ = tkt
  ownReset : ¬ p.ownReset

structure Bounds (l : RwLock) : Prop where
  readers : l.readers_ < regUint
  writers : l.writers_ < regUint
  ticket : l.ticket_ < regUint
  cur_writer : l.cur_writer_ ≤ l.ticket_

def lockAssertion : Assertion RwLock Pc where
  shared := Bounds
  each := Local
  pair p q := ∀ tkt, p.ticket = some tkt → q.ticket ≠ some tkt

/-- The invariant of guarded runs. -/
structure Inv (s : State ι) : Prop where
  holds : lockAssertion.Holds s.shared s.pc
  readers : Count Pc.isReader s.pc s.shared.readers_
  writers : Count Pc.isWriter s.pc s.shared.writers_

theorem Inv.exclusive {s : State ι} (h : Inv s) : Exclusive s := by
  intro i j hne tkt hi
  have li := h.holds.each i
  have lj := h.holds.each j
  rw [hi] at li
  refine ⟨fun tkt' hj => ?_, fun hj => ?_⟩
  · -- both have the turn, so both have the same ticket
    rw [hj] at lj
    have ht : tkt = tkt' := (li.turn tkt rfl).symm.trans (lj.turn tkt' rfl)
    exact h.holds.pair i j hne tkt (by rw [hi]; rfl) (by rw [hj, ht]; rfl)
  · rw [hj] at lj
    have := (li.sawWrite trivial).symm.trans (lj.sawRead trivial)
    cases this

theorem init_inv : Inv (init ι) where
  holds :=
    { shared := ⟨by simp [init, regUint], by simp [init, regUint], by simp [init, regUint],
        Nat.le_refl _⟩
      each := fun _ => ⟨nofun, nofun, nofun, nofun, id⟩
      pair := fun _ _ _ _ h => by cases h }
  readers := Count.zero fun _ => id
  writers := Count.zero fun _ => id

/-! ## What one access does -/

/-- How an access of a thread at `p` changes the lock, for the others. -/
structure Rely (l : RwLock) (p : Pc) (l' : RwLock) : Prop where
  mode : l'.mode_ = l.mode_ ∨ l.mode_ = .kNone ∨ (l.mode_ = .kRead ∧ l.readers_ = 0) ∨
    (l.mode_ = .kWrite ∧ l.writers_ = 0)
  ticket : l.ticket_ ≤ l'.ticket_
  cur_writer : l'.cur_writer_ = l.cur_writer_ ∨
    (p = .passOn l.cur_writer_ ∧ l'.cur_writer_ = l.cur_writer_ + 1)

/-- A counter that stays, or drops by one when its thread leaves. -/
def Counted (c : Pc → Prop) (p p' : Pc) (n n' : Nat) : Prop :=
  ((c p' ↔ c p) ∧ n' = n) ∨ (c p ∧ ¬ c p' ∧ n' = n - 1)

theorem Local.stable {l l' : RwLock} {p q : Pc} (hq : Local l q) (hr : Rely l p l')
    (hread : q.isReader → 0 < l.readers_) (hwrite : q.isWriter → 0 < l.writers_)
    (hpair : ∀ tkt, p.ticket = some tkt → q.ticket ≠ some tkt) : Local l' q := by
  have hcur : l'.cur_writer_ = l.cur_writer_ ∨ (l'.cur_writer_ = l.cur_writer_ + 1 ∧
      q.ticket ≠ some l.cur_writer_) := by
    rcases hr.cur_writer with h | ⟨rfl, h⟩
    · exact .inl h
    · exact .inr ⟨h, hpair _ rfl⟩
  refine ⟨fun h => ?_, fun h => ?_, fun tkt h => ?_, fun tkt h => ?_, hq.ownReset⟩
  · have hm := hq.sawRead h
    have hc := hread (Pc.sawRead_isReader h)
    rcases hr.mode with h | h | ⟨h, h0⟩ | ⟨h, h0⟩
    · exact h.trans hm
    · rw [hm] at h; cases h
    · omega
    · rw [hm] at h; cases h
  · have hm := hq.sawWrite h
    have hc := hwrite (Pc.sawWrite_isWriter h)
    rcases hr.mode with h | h | ⟨h, h0⟩ | ⟨h, h0⟩
    · exact h.trans hm
    · rw [hm] at h; cases h
    · rw [hm] at h; cases h
    · omega
  · obtain ⟨hle, hlt⟩ := hq.ticket tkt h
    refine ⟨?_, Nat.lt_of_lt_of_le hlt hr.ticket⟩
    rcases hcur with hc | ⟨hc, hne⟩
    · omega
    · have : tkt ≠ l.cur_writer_ := fun he => hne (he ▸ h)
      omega
  · have ht := hq.turn tkt h
    rcases hcur with hc | ⟨hc, hne⟩
    · omega
    · exact absurd (ht ▸ Pc.turn_ticket h) hne

theorem fetchAdd_of_lt {w n : Nat} (h : n + 1 < w) : fetchAdd w n = n + 1 :=
  wordAdd_of_lt h

theorem fetchSub_of_pos {w n : Nat} (h0 : 0 < n) : fetchSub w n = n - 1 := wordSub_of_le h0

theorem access_rely {l l' : RwLock} {p p' : Pc} {sp : Bool} (hb : Bounds l) (hl : Local l p)
    (hg : ResetGuard l sp p) (h : access l sp p = some (l', p')) : Rely l p l' := by
  have same : Rely l p l := ⟨.inl rfl, Nat.le_refl _, .inl rfl⟩
  cases p with
  | idle => cases h
  | loadMode c => cases h; exact same
  | loadReaders c mode => simp only [access] at h; split at h <;> cases h <;> exact same
  | loadWriters c mode => simp only [access] at h; split at h <;> cases h <;> exact same
  | casNone c mode =>
    simp only [access, compareExchangeWeak] at h
    split at h <;> cases h
    · rename_i hc
      refine ⟨?_, Nat.le_refl _, .inl rfl⟩
      obtain ⟨hr, hw⟩ := hg hc.2 hc.1
      cases mode with
      | kNone => exact .inr (.inl hc.1)
      | kWrite => exact .inr (.inr (.inr ⟨hc.1, hw rfl⟩))
      | kRead => exact .inr (.inr (.inl ⟨hc.1, hr rfl⟩))
    · exact same
  | casRead =>
    simp only [access, compareExchangeWeak] at h
    split at h <;> cases h
    · rename_i hc; exact ⟨.inr (.inl hc.1), Nat.le_refl _, .inl rfl⟩
    · exact same
  | reading => cases h; exact ⟨.inl rfl, Nat.le_refl _, .inl rfl⟩
  | takeTicket =>
    cases h
    refine ⟨.inl rfl, ?_, .inl rfl⟩
    have : l.ticket_ + 1 < bigUint := Nat.lt_trans hg (by decide)
    simp [fetchAdd_of_lt this]
  | casWrite tkt =>
    simp only [access, compareExchangeWeak] at h
    split at h <;> cases h
    · rename_i hc; exact ⟨.inr (.inl hc.1), Nat.le_refl _, .inl rfl⟩
    · exact same
  | reloadMode tkt => simp only [access] at h; split at h <;> cases h <;> exact same
  | loadCurWriter tkt => simp only [access] at h; split at h <;> cases h <;> exact same
  | writing tkt => cases h; exact ⟨.inl rfl, Nat.le_refl _, .inl rfl⟩
  | passOn tkt =>
    cases h
    have ht := hl.turn tkt rfl
    have hlt := (hl.ticket tkt rfl).2
    have htk := hb.ticket
    refine ⟨.inl rfl, Nat.le_refl _, .inr ⟨by rw [ht], fetchAdd_of_lt (by omega)⟩⟩

theorem afterUpdate_local {l : RwLock} {c : Caller} {mode : RwLockMode}
    (ht : ∀ tkt, c.ticket = some tkt → l.cur_writer_ ≤ tkt ∧ tkt < l.ticket_)
    (hr : c = .reader → mode = .kRead → l.mode_ = .kRead)
    (hw : c ≠ .reader → mode = .kWrite → l.mode_ = .kWrite) : Local l (afterUpdate c mode) := by
  cases c with
  | reader =>
    cases mode with
    | kNone => exact ⟨nofun, nofun, nofun, nofun, id⟩
    | kWrite => exact ⟨nofun, nofun, nofun, nofun, id⟩
    | kRead => exact ⟨fun _ => hr rfl rfl, nofun, nofun, nofun, id⟩
  | writer tkt =>
    cases mode with
    | kNone => exact ⟨nofun, nofun, ht, nofun, id⟩
    | kWrite => exact ⟨nofun, fun _ => hw nofun rfl, ht, nofun, id⟩
    | kRead => exact ⟨nofun, nofun, ht, nofun, id⟩

theorem access_local {l l' : RwLock} {p p' : Pc} {sp : Bool} (hb : Bounds l) (hl : Local l p)
    (hread : p.isReader → 0 < l.readers_) (hwrite : p.isWriter → 0 < l.writers_)
    (hg : ResetGuard l sp p) (h : access l sp p = some (l', p')) : Local l' p' := by
  cases p with
  | idle => cases h
  | loadMode c =>
    cases h
    exact ⟨fun h => h.2, fun h => h.2, hl.ticket, nofun, id⟩
  | loadReaders c mode =>
    simp only [access] at h
    split at h <;> cases h
    · rename_i hc
      refine ⟨nofun, nofun, hl.ticket, nofun, ?_⟩
      rintro (⟨hr, -⟩ | ⟨-, hm⟩)
      · have := hread hr; omega
      · rw [hc.2] at hm; cases hm
    · exact ⟨hl.sawRead, hl.sawWrite, hl.ticket, nofun, id⟩
  | loadWriters c mode =>
    simp only [access] at h
    split at h <;> cases h
    · rename_i hc
      refine ⟨nofun, nofun, hl.ticket, nofun, ?_⟩
      rintro (⟨-, hm⟩ | ⟨hw, -⟩)
      · rw [hc.2] at hm; cases hm
      · have := hwrite hw; omega
    · exact afterUpdate_local hl.ticket (fun hc hm => hl.sawRead ⟨hc, hm⟩)
        (fun hc hm => hl.sawWrite ⟨hc, hm⟩)
  | casNone c mode =>
    simp only [access, compareExchangeWeak] at h
    split at h <;> cases h
    · -- the reset was made: `mode` keeps the old value, which this caller does not wait for
      exact afterUpdate_local hl.ticket (fun hc hm => absurd (.inl ⟨hc, hm⟩) hl.ownReset)
        (fun hc hm => absurd (.inr ⟨hc, hm⟩) hl.ownReset)
    · exact afterUpdate_local hl.ticket (fun _ hm => hm) (fun _ hm => hm)
  | casRead =>
    simp only [access, compareExchangeWeak] at h
    split at h <;> cases h
    · exact ⟨fun _ => rfl, nofun, nofun, nofun, id⟩
    · exact ⟨nofun, nofun, nofun, nofun, id⟩
  | reading => cases h; exact ⟨nofun, nofun, nofun, nofun, id⟩
  | takeTicket =>
    cases h
    have : l.ticket_ + 1 < bigUint := Nat.lt_trans hg (by decide)
    refine ⟨nofun, nofun, fun tkt ht => ?_, nofun, id⟩
    cases ht
    simp only [fetchAdd_of_lt this]
    exact ⟨hb.cur_writer, Nat.lt_succ_self _⟩
  | casWrite tkt =>
    simp only [access, compareExchangeWeak] at h
    split at h <;> cases h <;> exact ⟨nofun, nofun, hl.ticket, nofun, id⟩
  | reloadMode tkt =>
    simp only [access] at h
    split at h <;> cases h
    · rename_i hm; exact ⟨nofun, fun _ => hm, hl.ticket, nofun, id⟩
    · exact ⟨nofun, nofun, hl.ticket, nofun, id⟩
  | loadCurWriter tkt =>
    simp only [access] at h
    split at h <;> cases h
    · rename_i hc
      exact ⟨nofun, fun _ => hl.sawWrite trivial, hl.ticket,
        fun _ ht => hc.trans (Option.some.inj ht), id⟩
    · exact ⟨nofun, nofun, hl.ticket, nofun, id⟩
  | writing tkt => cases h; exact ⟨nofun, nofun, hl.ticket, hl.turn, id⟩
  | passOn tkt => cases h; exact ⟨nofun, nofun, nofun, nofun, id⟩

theorem afterUpdate_isReader (c : Caller) (mode : RwLockMode) :
    (afterUpdate c mode).isReader ↔ c = .reader := by
  cases c <;> cases mode <;> simp [afterUpdate, Pc.isReader]

theorem afterUpdate_isWriter (c : Caller) (mode : RwLockMode) :
    (afterUpdate c mode).isWriter ↔ c ≠ .reader := by
  cases c <;> cases mode <;> simp [afterUpdate, Pc.isWriter]

theorem afterUpdate_ticket (c : Caller) (mode : RwLockMode) :
    (afterUpdate c mode).ticket = c.ticket := by
  cases c <;> cases mode <;> rfl

theorem access_readers {l l' : RwLock} {p p' : Pc} {sp : Bool}
    (hpos : p.isReader → 0 < l.readers_) (h : access l sp p = some (l', p')) :
    Counted Pc.isReader p p' l.readers_ l'.readers_ := by
  cases p with
  | idle => cases h
  | reading =>
    cases h
    exact .inr ⟨trivial, id, fetchSub_of_pos (hpos trivial)⟩
  | loadReaders c mode => simp only [access] at h; split at h <;> cases h <;> exact .inl ⟨.rfl, rfl⟩
  | loadWriters c mode =>
    simp only [access] at h
    split at h <;> cases h
    · exact .inl ⟨.rfl, rfl⟩
    · exact .inl ⟨afterUpdate_isReader c mode, rfl⟩
  | casNone c mode => cases h; exact .inl ⟨afterUpdate_isReader c _, rfl⟩
  | casRead =>
    simp only [access, compareExchangeWeak] at h
    split at h <;> cases h <;> exact .inl ⟨by simp [Pc.isReader], rfl⟩
  | reloadMode tkt | loadCurWriter tkt =>
    simp only [access] at h
    split at h <;> cases h <;> exact .inl ⟨by simp [Pc.isReader], rfl⟩
  | loadMode _ | takeTicket | casWrite _ | writing _ | passOn _ =>
    cases h
    exact .inl ⟨by simp [Pc.isReader], rfl⟩

theorem access_writers {l l' : RwLock} {p p' : Pc} {sp : Bool}
    (hpos : p.isWriter → 0 < l.writers_) (h : access l sp p = some (l', p')) :
    Counted Pc.isWriter p p' l.writers_ l'.writers_ := by
  cases p with
  | idle => cases h
  | writing tkt =>
    cases h
    exact .inr ⟨trivial, id, fetchSub_of_pos (hpos trivial)⟩
  | loadReaders c mode => simp only [access] at h; split at h <;> cases h <;> exact .inl ⟨.rfl, rfl⟩
  | loadWriters c mode =>
    simp only [access] at h
    split at h <;> cases h
    · exact .inl ⟨.rfl, rfl⟩
    · exact .inl ⟨afterUpdate_isWriter c mode, rfl⟩
  | casNone c mode => cases h; exact .inl ⟨afterUpdate_isWriter c _, rfl⟩
  | casRead =>
    simp only [access, compareExchangeWeak] at h
    split at h <;> cases h <;> exact .inl ⟨by simp [Pc.isWriter], rfl⟩
  | reloadMode tkt | loadCurWriter tkt =>
    simp only [access] at h
    split at h <;> cases h <;> exact .inl ⟨by simp [Pc.isWriter], rfl⟩
  | loadMode _ | takeTicket | casWrite _ | reading | passOn _ =>
    cases h
    exact .inl ⟨by simp [Pc.isWriter], rfl⟩

/-- A ticket is kept, or it is the next one. -/
theorem access_ticket {l l' : RwLock} {p p' : Pc} {sp : Bool} {tkt : Nat}
    (h : access l sp p = some (l', p')) (ht : p'.ticket = some tkt) :
    p.ticket = some tkt ∨ tkt = l.ticket_ := by
  cases p with
  | idle => cases h
  | takeTicket => cases h; exact .inr (Option.some.inj ht).symm
  | loadReaders c mode => simp only [access] at h; split at h <;> cases h <;> exact .inl ht
  | loadWriters c mode =>
    simp only [access] at h
    split at h <;> cases h
    · exact .inl ht
    · exact .inl ((afterUpdate_ticket c mode).symm.trans ht)
  | casNone c mode => cases h; exact .inl ((afterUpdate_ticket c _).symm.trans ht)
  | casRead =>
    simp only [access, compareExchangeWeak] at h
    split at h <;> cases h <;> cases ht
  | reloadMode tkt | loadCurWriter tkt =>
    simp only [access] at h
    split at h <;> cases h <;> exact .inl ht
  | loadMode _ | casWrite _ | writing _ => cases h; exact .inl ht
  | reading | passOn _ => cases h; cases ht

theorem Counted.count {c : Pc → Prop} [DecidableEq ι] {pc : ι → Pc} {i : ι} {p' : Pc} {n n' : Nat}
    (h : Count c pc n) (hc : Counted c (pc i) p' n n') : Count c (Function.update pc i p') n' := by
  rcases hc with ⟨hiff, rfl⟩ | ⟨hi, hx, rfl⟩
  · exact h.same rfl hiff
  · exact h.leave rfl hi hx

theorem Counted.le {c : Pc → Prop} {p p' : Pc} {n n' : Nat} (h : Counted c p p' n n') : n' ≤ n := by
  rcases h with ⟨-, rfl⟩ | ⟨-, -, rfl⟩
  · exact Nat.le_refl _
  · exact Nat.sub_le _ _

theorem access_ticket_lt {l l' : RwLock} {p p' : Pc} {sp : Bool} (hb : Bounds l)
    (hg : ResetGuard l sp p) (h : access l sp p = some (l', p')) : l'.ticket_ < regUint := by
  by_cases ht : p = .takeTicket
  · subst ht
    cases h
    have : l.ticket_ + 1 < bigUint := Nat.lt_trans hg (by decide)
    change fetchAdd bigUint l.ticket_ < regUint
    rw [fetchAdd_of_lt this]
    exact hg
  · suffices l'.ticket_ = l.ticket_ from this ▸ hb.ticket
    cases p with
    | takeTicket => exact absurd rfl ht
    | idle => cases h
    | loadReaders | loadWriters | reloadMode | loadCurWriter =>
      simp only [access] at h
      split at h <;> cases h <;> rfl
    | loadMode | casNone | casRead | reading | casWrite | writing | passOn => cases h; rfl

theorem access_bounds {l l' : RwLock} {p p' : Pc} {sp : Bool} (hb : Bounds l) (hl : Local l p)
    (hread : p.isReader → 0 < l.readers_) (hwrite : p.isWriter → 0 < l.writers_)
    (hg : ResetGuard l sp p) (h : access l sp p = some (l', p')) : Bounds l' := by
  have hr := access_rely hb hl hg h
  refine ⟨Nat.lt_of_le_of_lt (access_readers hread h).le hb.readers,
    Nat.lt_of_le_of_lt (access_writers hwrite h).le hb.writers, access_ticket_lt hb hg h, ?_⟩
  have hle := hr.ticket
  rcases hr.cur_writer with hc | ⟨rfl, hc⟩
  · rw [hc]; exact Nat.le_trans hb.cur_writer hle
  · have := (hl.ticket _ rfl).2
    omega

theorem act_cases {l l' : RwLock} {p p' : Pc} {a : Act} (h : act l p a = some (l', p')) :
    (p = .idle ∧ a = .readLock ∧ p' = .loadMode .reader ∧
      l' = { l with readers_ := fetchAdd regUint l.readers_ }) ∨
    (p = .idle ∧ a = .writeLock ∧ p' = .takeTicket ∧
      l' = { l with writers_ := fetchAdd regUint l.writers_ }) ∨
    ∃ sp, a = .access sp ∧ access l sp p = some (l', p') := by
  cases a with
  | access sp => exact .inr (.inr ⟨sp, rfl, by cases p <;> exact h⟩)
  | readLock => cases p <;> cases h; exact .inl ⟨rfl, rfl, rfl, rfl⟩
  | writeLock => cases p <;> cases h; exact .inr (.inl ⟨rfl, rfl, rfl, rfl⟩)

variable [DecidableEq ι]

theorem step_inv {s t : State ι} {l : ι × Act} (hi : Inv s) (hg : Guarded s l)
    (h : step s l = some t) : Inv t := by
  obtain ⟨i, a⟩ := l
  obtain ⟨m, x, he, rfl⟩ := Pool.step_cases h
  have hb : Bounds s.shared := hi.holds.shared
  have hread : ∀ j, (s.pc j).isReader → 0 < s.shared.readers_ := fun j => hi.readers.pos
  have hwrite : ∀ j, (s.pc j).isWriter → 0 < s.shared.writers_ := fun j => hi.writers.pos
  rcases act_cases he with ⟨hp, rfl, rfl, rfl⟩ | ⟨hp, rfl, rfl, rfl⟩ | ⟨sp, rfl, ha⟩
  · -- a call of `ReadLock`: only `readers_` changes
    have hadd : fetchAdd regUint s.shared.readers_ = s.shared.readers_ + 1 := fetchAdd_of_lt hg
    refine ⟨hi.holds.update ⟨hadd ▸ hg, hb.writers, hb.ticket, hb.cur_writer⟩
      ⟨nofun, nofun, nofun, nofun, id⟩ fun j _ => ⟨?_, nofun, fun tkt ht h => by cases h⟩, ?_,
      hi.writers.same hp (by simp [Pc.isWriter])⟩
    · exact ⟨(hi.holds.each j).sawRead, (hi.holds.each j).sawWrite, (hi.holds.each j).ticket,
        (hi.holds.each j).turn, (hi.holds.each j).ownReset⟩
    · rw [hadd]; exact hi.readers.enter hp id rfl
  · have hadd : fetchAdd regUint s.shared.writers_ = s.shared.writers_ + 1 := fetchAdd_of_lt hg
    refine ⟨hi.holds.update ⟨hb.readers, hadd ▸ hg, hb.ticket, hb.cur_writer⟩
      ⟨nofun, nofun, nofun, nofun, id⟩ fun j _ => ⟨?_, nofun, fun tkt ht h => by cases h⟩,
      hi.readers.same hp (by simp [Pc.isReader]), ?_⟩
    · exact ⟨(hi.holds.each j).sawRead, (hi.holds.each j).sawWrite, (hi.holds.each j).ticket,
        (hi.holds.each j).turn, (hi.holds.each j).ownReset⟩
    · rw [hadd]; exact hi.writers.enter hp id trivial
  · have hg : ResetGuard s.shared sp (s.pc i) := hg
    have hl := hi.holds.each i
    have hrely := access_rely hb hl hg ha
    refine ⟨hi.holds.update (access_bounds hb hl (hread i) (hwrite i) hg ha)
      (access_local hb hl (hread i) (hwrite i) hg ha) fun j hj => ?_,
      (access_readers (hread i) ha).count hi.readers,
      (access_writers (hwrite i) ha).count hi.writers⟩
    have hpair := hi.holds.pair i j (Ne.symm hj)
    refine ⟨(hi.holds.each j).stable hrely (hread j) (hwrite j) hpair, fun tkt ht hj' => ?_,
      fun tkt hj' ht => ?_⟩ <;>
    · rcases access_ticket ha ht with hk | rfl
      · exact hpair tkt hk hj'
      · have := ((hi.holds.each j).ticket _ hj').2
        omega

/-- **Guarded runs exclude.** For any number of threads, in every run in which
each reset of `mode_` is made while the tested counter is still zero, no thread
writes while another one writes or reads. -/
theorem guarded_exclusive {as : List (ι × Act)} {s : State ι}
    (h : Run step Guarded (init ι) as s) : Exclusive s :=
  (h.invariant init_inv fun _ _ _ hi hg hs => step_inv hi hg hs).exclusive

private def call (i : Nat) (a : Act) (accesses : Nat) : List (Nat × Act) :=
  (i, a) :: List.replicate accesses (i, .access false)

/-- A reader came and went; then writer 0 takes the lock, its reset of `mode_`
made while no reader is there, and reader 1 waits for it. -/
theorem guarded_exclusive_handover : ∃ s : State Nat,
    s.pc 0 = .writing 0 ∧ s.pc 1 = .loadWriters .reader .kWrite ∧ Exclusive s := by
  let as := call 2 .readLock 5 ++ call 0 .writeLock 10 ++ call 1 .readLock 2
  have hs : (execOk step Guarded (init Nat) as).map (fun s => (s.pc 0, s.pc 1)) =
      some (.writing 0, .loadWriters .reader .kWrite) := by decide +kernel
  obtain ⟨s, hs, hpc⟩ := Option.map_eq_some_iff.mp hs
  obtain ⟨h0, h1⟩ := Prod.mk.inj hpc
  exact ⟨s, h0, h1, guarded_exclusive (run_of_execOk hs)⟩

/-- **The lock as it is does not exclude.** Writer 0 sees that no reader is
left; reader 1 enters before writer 0 resets `mode_`, and writer 0 takes the
lock beside it. -/
theorem reader_beside_writer : ¬ ∀ (as : List (Nat × Act)) (s : State Nat),
    Run step Unrestricted (init Nat) as s → s.shared.ticket_ < regUint → Exclusive s := by
  intro h
  let as := call 2 .readLock 5 ++ call 0 .writeLock 3 ++ call 1 .readLock 3 ++
    List.replicate 7 (0, .access false)
  have hs : (exec step (init Nat) as).map (fun s => (s.pc 0, s.pc 1, s.shared.ticket_)) =
      some (.writing 0, .reading, 1) := by decide +kernel
  obtain ⟨s, hs, hpc⟩ := Option.map_eq_some_iff.mp hs
  simp only [Prod.mk.injEq] at hpc
  obtain ⟨h0, h1, ht⟩ := hpc
  exact (h as s (run_iff_exec.mpr hs) (by rw [ht]; decide) 0 1 (by decide) 0 h0).2 h1

end HermesShm.Thread.RwLock
