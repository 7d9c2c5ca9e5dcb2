import HermesShm.Thread.TicketLock
import Mathlib.Tactic.Common

/-! # The ticket locks at rest

With no thread inside, a lock can be had if no call of `TryLock` is left in `try_lock_` and the
two ticket counters are equal. -/
namespace HermesShm.Thread.TicketLock
open HermesShm.Base

variable {ι : Type*}

/-- An idle thread may also call `Init`. -/
inductive Op
  | act (a : Act)
  | init

def Op.run (yields : Bool) (l : TicketLock) (p : Pc) : Op → Option (TicketLock × Pc)
  | .act a => TicketLock.act yields l p a
  | .init => if p = .idle then some ({ l with lock_ := 0 }, .idle) else none

/-- The threads on the lock, and two records of the past. -/
structure History (ι : Type*) where
  pool : Pool ι TicketLock Pc
  /-- The calls of `TryLock` that have passed their test. -/
  passed : Nat := 0
  /-- `head_` as the last `Init` found it. -/
  found : Nat := 0

/-- A lock just constructed. -/
def made (ι : Type*) : History ι := { pool := (init ι).pool }

def History.step [DecidableEq ι] (yields : Bool) (s : History ι) (l : ι × Op) :
    Option (History ι) :=
  (s.pool.step (Op.run yields) l).map fun t =>
    { pool := t
      passed := if s.pool.pc l.1 ≠ .takeTicket ∧ t.pc l.1 = .takeTicket then s.passed + 1
        else s.passed
      found := match l.2 with
        | .init => s.pool.shared.head_
        | .act _ => s.found }

/-- No thread holds the lock, waits for it or is inside a call. -/
def Rest (s : Pool ι TicketLock Pc) : Prop := ∀ i, s.pc i = .idle

/-- `Init` is for a free lock. -/
def InitFree (s : History ι) (l : ι × Op) : Prop := l.2 = .init → Rest s.pool

/-- The call `a` of thread `i` and its next accesses, with the operands loaded as `hs` says. -/
def alone (i : ι) (a : Act) (hs : List Bool) : List (ι × Act) :=
  (a :: hs.map Act.access).map (i, ·)

/-- The call `a` that runs alone gets the lock, whatever operands it loads first, and the `Unlock`
after it leaves the lock at rest. -/
def Gets [DecidableEq ι] (yields : Bool) (s : Pool ι TicketLock Pc) (i : ι) (a : Act) : Prop :=
  ∀ c : Nat → Bool, ∃ n t u tkt,
    exec (Pool.step (act yields)) s (alone i a ((List.range n).map c)) = some t ∧
      t.pc i = .holding tkt ∧ Pool.step (act yields) t (i, .access (c n)) = some u ∧ Rest u

/-- Thread `i` can have the lock. -/
structure Available [DecidableEq ι] (yields : Bool) (s : Pool ι TicketLock Pc) (i : ι) : Prop where
  tryLock : Gets yields s i .tryLock
  lock : Gets yields s i .lock

/-! ## What the counters count -/

/-- Inside `TryLock`, up to the end of its test. -/
def Pc.Trying : Pc → Prop
  | .loadEither | .loadHead _ | .loadLock _ | .undoTry => True
  | _ => False

theorem Pc.Trying.not_queued {p : Pc} (h : p.Trying) : ¬ p.Queued := by
  cases p with
  | loadEither | loadHead _ | loadLock _ | undoTry => nofun
  | idle | takeTicket | spin _ | yield _ | holding _ => exact h.elim

/-- A step of a thread, as far as the counters go. -/
inductive Move (l : TicketLock) (p : Pc) (l' : TicketLock) (p' : Pc) : Prop
  | call : p = .idle → p'.Trying → l' = { l with try_lock_ := wordAdd minU32 l.try_lock_ 1 } →
      Move l p l' p'
  | undo : p = .undoTry → p' = .idle →
      l' = { l with try_lock_ := wordSub minU32 l.try_lock_ 1 } → Move l p l' p'
  | pass : p.Trying → p' = .takeTicket → l' = l → Move l p l' p'
  | still : l' = l → (p'.Trying ↔ p.Trying) → (p'.Queued ↔ p.Queued) → p' ≠ .takeTicket →
      Move l p l' p'
  | take : p = .idle ∨ p = .takeTicket → p' = .spin l.lock_ →
      l' = { l with lock_ := wordAdd minU64 l.lock_ 1 } → Move l p l' p'
  | leave (tkt : Nat) : p = .holding tkt → p' = .idle →
      l' = { l with head_ := wordAdd minU64 l.head_ 1 } → Move l p l' p'

theorem move_afterLoads {l : TicketLock} {p : Pc} (hp : p.Trying) (hq : ¬ p.Queued)
    (lock head : Nat) : Move l p l (afterLoads lock head) := by
  unfold afterLoads
  split
  · exact .still rfl (iff_of_true trivial hp) (iff_of_false nofun hq) nofun
  · exact .pass hp rfl rfl

theorem act_move {yields : Bool} {l l' : TicketLock} {p p' : Pc} {a : Act}
    (h : act yields l p a = some (l', p')) : Move l p l' p' := by
  unfold act at h
  split at h
  · cases h
    exact .take (.inl rfl) rfl rfl
  · cases h
    refine .call rfl ?_ rfl
    split <;> trivial
  · rename_i headFirst
    cases p with
    | idle => cases h
    | loadEither =>
      cases h
      cases headFirst with
      | true => exact .still rfl Iff.rfl Iff.rfl nofun
      | false => exact .still rfl Iff.rfl Iff.rfl nofun
    | loadHead lock => cases h; exact move_afterLoads (p := .loadHead lock) trivial nofun _ _
    | loadLock head => cases h; exact move_afterLoads (p := .loadLock head) trivial nofun _ _
    | undoTry => cases h; exact .undo rfl rfl rfl
    | takeTicket => cases h; exact .take (.inr rfl) rfl rfl
    | spin tkt =>
      simp only [access] at h
      split at h
      · cases h
        exact .still rfl Iff.rfl Iff.rfl nofun
      · cases h
        cases yields with
        | true => exact .still rfl Iff.rfl Iff.rfl nofun
        | false => exact .still rfl Iff.rfl Iff.rfl nofun
    | yield tkt => cases h; exact .still rfl Iff.rfl Iff.rfl nofun
    | holding tkt => cases h; exact .leave tkt rfl rfl rfl
  · cases h

/-- Every counter is what the threads and the past have added to it, as far as its bits go;
`u` threads have left since the last `Init`. -/
structure Tally (s : History ι) : Prop where
  tries : ∃ n, Count Pc.Trying s.pool.pc n ∧
    s.pool.shared.try_lock_ = (s.passed + n) % minU32
  tickets : ∃ k u, Count Pc.Queued s.pool.pc k ∧ s.pool.shared.lock_ = (k + u) % minU64 ∧
    s.pool.shared.head_ = (s.found + u) % minU64
  found_lt : s.found < minU64

theorem made_tally : Tally (made ι) where
  tries := ⟨0, .zero fun _ => id, rfl⟩
  tickets := ⟨0, 0, .zero fun _ => nofun, rfl, rfl⟩
  found_lt := Nat.two_pow_pos 64

theorem Tally.rest {s : History ι} (h : Tally s) (hs : Rest s.pool) :
    s.pool.shared.try_lock_ = s.passed % minU32 ∧
      (s.pool.shared.lock_ = s.pool.shared.head_ ↔ s.found = 0) := by
  obtain ⟨⟨n, hn, htry⟩, ⟨k, u, hk, hlock, hhead⟩, hfound⟩ := h
  have hn0 : n = 0 := hn.eq_zero fun i => by rw [hs i]; exact id
  have hk0 : k = 0 := hk.eq_zero fun i => by rw [hs i]; nofun
  subst hn0 hk0
  refine ⟨htry, ?_⟩
  rw [hlock, hhead]
  unfold minU64 at hfound ⊢
  omega

variable [DecidableEq ι]

theorem Tally.act {yields : Bool} {s : History ι} {i : ι} {a : Act} {l : TicketLock} {p : Pc}
    (h : Tally s) (ha : TicketLock.act yields s.pool.shared (s.pool.pc i) a = some (l, p)) :
    Tally { s with
      pool := ⟨l, Function.update s.pool.pc i p⟩
      passed := if s.pool.pc i ≠ .takeTicket ∧ p = .takeTicket then s.passed + 1
        else s.passed } := by
  obtain ⟨⟨n, hn, htry⟩, ⟨k, u, hk, hlock, hhead⟩, hfound⟩ := h
  cases act_move ha with
  | call hi hp hl =>
    have hpass : ¬ (s.pool.pc i ≠ .takeTicket ∧ p = .takeTicket) := by
      rintro ⟨-, rfl⟩
      exact hp
    rw [if_neg hpass, hl]
    refine ⟨⟨n + 1, hn.enter hi id hp, ?_⟩,
      ⟨k, u, hk.same hi (iff_of_false hp.not_queued nofun), hlock, hhead⟩, hfound⟩
    change wordAdd minU32 s.pool.shared.try_lock_ 1 = _
    rw [htry, wordAdd_mod, Nat.add_assoc]
  | undo hi hp hl =>
    subst hp
    rw [if_neg (by rintro ⟨-, ⟨⟩⟩), hl]
    have hpos := hn.pos (i := i) (by rw [hi]; trivial)
    refine ⟨⟨n - 1, hn.leave hi trivial id, ?_⟩, ⟨k, u, hk.same hi Iff.rfl, hlock, hhead⟩, hfound⟩
    have hbits : 0 < minU32 := Nat.two_pow_pos 32
    change wordSub minU32 s.pool.shared.try_lock_ 1 = _
    rw [htry, wordSub_mod hbits (by omega), Nat.add_sub_assoc hpos]
  | pass hi hp hl =>
    subst hp
    rw [if_pos ⟨fun he => by rw [he] at hi; exact hi, rfl⟩, hl]
    have hpos := hn.pos (i := i) hi
    refine ⟨⟨n - 1, hn.leave rfl hi id, ?_⟩,
      ⟨k, u, hk.same rfl (iff_of_false nofun hi.not_queued), hlock, hhead⟩, hfound⟩
    change s.pool.shared.try_lock_ = (s.passed + 1 + (n - 1)) % minU32
    rw [htry, Nat.add_assoc, Nat.add_sub_cancel' hpos]
  | still hl htrying hqueued hne =>
    rw [if_neg fun hp => hne hp.2, hl]
    exact ⟨⟨n, hn.same rfl htrying, htry⟩, ⟨k, u, hk.same rfl hqueued, hlock, hhead⟩, hfound⟩
  | take hi hp hl =>
    subst hp
    rw [if_neg (by rintro ⟨-, ⟨⟩⟩), hl]
    have hout : ¬ (s.pool.pc i).Trying ∧ ¬ (s.pool.pc i).Queued := by
      rcases hi with hi | hi
      · rw [hi]; exact ⟨id, nofun⟩
      · rw [hi]; exact ⟨id, nofun⟩
    refine ⟨⟨n, hn.same rfl (iff_of_false id hout.1), htry⟩,
      ⟨k + 1, u, hk.enter rfl hout.2 rfl, ?_, hhead⟩, hfound⟩
    change wordAdd minU64 s.pool.shared.lock_ 1 = _
    rw [hlock, wordAdd_mod, Nat.add_right_comm]
  | leave tkt hi hp hl =>
    subst hp
    rw [if_neg (by rintro ⟨-, ⟨⟩⟩), hl]
    have hpos := hk.pos (i := i) (by rw [hi]; rfl)
    refine ⟨⟨n, hn.same hi Iff.rfl, htry⟩, ⟨k - 1, u + 1, hk.leave hi rfl nofun, ?_, ?_⟩, hfound⟩
    · change s.pool.shared.lock_ = (k - 1 + (u + 1)) % minU64
      rw [hlock, Nat.add_left_comm, Nat.sub_add_cancel hpos, Nat.add_comm]
    · change wordAdd minU64 s.pool.shared.head_ 1 = _
      rw [hhead, wordAdd_mod, Nat.add_assoc]

/-- `Init` starts the tickets anew, and leaves `head_` and `try_lock_` as they are. -/
theorem Tally.init {s : History ι} (h : Tally s) (hs : Rest s.pool) (i : ι) :
    Tally { s with
      pool := ⟨{ s.pool.shared with lock_ := 0 }, Function.update s.pool.pc i .idle⟩
      found := s.pool.shared.head_ } := by
  obtain ⟨⟨n, hn, htry⟩, ⟨k, u, hk, hlock, hhead⟩, hfound⟩ := h
  have hk0 : k = 0 := hk.eq_zero fun i => by rw [hs i]; nofun
  subst hk0
  refine ⟨⟨n, hn.same (hs i) Iff.rfl, htry⟩, ⟨0, 0, hk.same (hs i) Iff.rfl, rfl, ?_⟩, ?_⟩
  · change s.pool.shared.head_ = s.pool.shared.head_ % minU64
    rw [hhead, Nat.mod_mod]
  · change s.pool.shared.head_ < minU64
    rw [hhead]
    exact Nat.mod_lt _ (Nat.two_pow_pos 64)

theorem step_tally {yields : Bool} {s t : History ι} {l : ι × Op} (h : Tally s)
    (hfree : InitFree s l) (hs : s.step yields l = some t) : Tally t := by
  obtain ⟨i, op⟩ := l
  obtain ⟨u, hu, rfl⟩ := Option.map_eq_some_iff.mp hs
  obtain ⟨l, p, hrun, rfl⟩ := Pool.step_cases hu
  cases op with
  | act a =>
    simp only [Function.update_self]
    exact h.act hrun
  | init =>
    have hrest := hfree rfl
    rw [Op.run, if_pos (hrest i)] at hrun
    cases hrun
    simp only [Function.update_self]
    rw [if_neg (by rintro ⟨-, ⟨⟩⟩)]
    exact h.init hrest i

theorem run_tally {yields : Bool} {ls : List (ι × Op)} {s : History ι}
    (h : Run (History.step yields) InitFree (made ι) ls s) : Tally s :=
  h.invariant made_tally fun _ _ _ ht hfree hs => step_tally ht hfree hs

/-! ## A call that runs alone -/

section
variable {yields : Bool} {l l' : TicketLock} {p p' : Pc}

/-- One thread's steps. -/
def runs (yields : Bool) (l : TicketLock) (p : Pc) (as : List Act) : Option (TicketLock × Pc) :=
  exec (fun x a => act yields x.1 x.2 a) (l, p) as

/-- The thread will not get the lock by itself: its ticket is not due, or will not be. -/
def Barred (l : TicketLock) : Pc → Prop
  | .idle | .undoTry => True
  | .loadEither | .takeTicket => l.lock_ ≠ l.head_
  | .loadHead lock => lock = l.lock_ ∧ l.lock_ ≠ l.head_
  | .loadLock head => head = l.head_ ∧ l.lock_ ≠ l.head_
  | .spin tkt | .yield tkt => tkt ≠ l.head_
  | .holding _ => False

theorem barred_afterLoads (h : l.lock_ ≠ l.head_) : Barred l (afterLoads l.lock_ l.head_) := by
  unfold afterLoads
  split
  · trivial
  · exact h

theorem Barred.access {headFirst : Bool} (h : Barred l p)
    (ha : TicketLock.access yields l headFirst p = some (l', p')) : Barred l' p' := by
  cases p with
  | idle => cases ha
  | loadEither =>
    cases ha
    cases headFirst with
    | true => exact ⟨rfl, h⟩
    | false => exact ⟨rfl, h⟩
  | loadHead lock =>
    cases ha
    obtain ⟨rfl, hne⟩ := h
    exact barred_afterLoads hne
  | loadLock head =>
    cases ha
    obtain ⟨rfl, hne⟩ := h
    exact barred_afterLoads hne
  | undoTry => cases ha; trivial
  | takeTicket => cases ha; exact h
  | spin tkt =>
    rw [TicketLock.access, if_neg h] at ha
    cases ha
    cases yields with
    | true => exact h
    | false => exact h
  | yield tkt => cases ha; exact h
  | holding tkt => exact h.elim

theorem act_access (l : TicketLock) (p : Pc) (headFirst : Bool) :
    act yields l p (.access headFirst) = access yields l headFirst p := by
  cases p <;> rfl

theorem runs_cons {a : Act} {as : List Act} (h : act yields l p a = some (l', p')) :
    runs yields l p (a :: as) = runs yields l' p' as := congrArg (Option.bind · _) h

theorem Barred.never (h : Barred l p) {hs : List Bool}
    (hr : runs yields l p (hs.map Act.access) = some (l', p')) (tkt : Nat) :
    p' ≠ .holding tkt := by
  induction hs generalizing l p with
  | nil =>
    cases hr
    rintro rfl
    exact h
  | cons headFirst hs ih =>
    obtain ⟨⟨l'', p''⟩, ha, hr⟩ := Option.bind_eq_some_iff.mp hr
    exact ih (h.access ((act_access l p headFirst).symm.trans ha)) hr

end

section
variable {yields : Bool} {s : Pool ι TicketLock Pc} {i : ι} {a : Act}

/-- The other threads play no part. -/
theorem exec_alone (hs : Rest s) (c : List Bool) :
    exec (Pool.step (act yields)) s (alone i a c) =
      (runs yields s.shared .idle (a :: c.map Act.access)).map fun x =>
        ⟨x.1, Function.update s.pc i x.2⟩ := by
  rw [alone, Pool.exec_alone, hs i, runs]

theorem step_unlock (hs : Rest s) (l : TicketLock) (tkt : Nat) (b : Bool) :
    Pool.step (act yields) ⟨l, Function.update s.pc i (.holding tkt)⟩ (i, .access b) =
      some ⟨{ l with head_ := wordAdd minU64 l.head_ 1 }, s.pc⟩ := by
  have hpc : Function.update s.pc i .idle = s.pc := by rw [← hs i, Function.update_eq_self]
  rw [Pool.step]
  simp only [Function.update_self, Function.update_idem]
  exact congrArg (fun pc => some (Pool.mk _ pc)) hpc

theorem gets_iff (hs : Rest s) : Gets yields s i a ↔ ∀ c : Nat → Bool, ∃ n l tkt,
    runs yields s.shared .idle (a :: ((List.range n).map c).map Act.access) =
      some (l, .holding tkt) := by
  constructor
  · intro h c
    obtain ⟨n, t, u, tkt, hexec, hpc, -⟩ := h c
    rw [exec_alone hs] at hexec
    obtain ⟨⟨l, p⟩, hruns, rfl⟩ := Option.map_eq_some_iff.mp hexec
    have hp : p = .holding tkt := (Function.update_self ..).symm.trans hpc
    exact ⟨n, l, tkt, hp ▸ hruns⟩
  · intro h c
    obtain ⟨n, l, tkt, hruns⟩ := h c
    exact ⟨n, _, _, tkt, (exec_alone hs _).trans (congrArg (Option.map _) hruns),
      Function.update_self .., step_unlock hs l tkt (c n), hs⟩

/-- `Lock` waits for `head_` to come to the ticket it takes. -/
theorem gets_lock_iff (hs : Rest s) :
    Gets yields s i .lock ↔ s.shared.lock_ = s.shared.head_ := by
  rw [gets_iff hs]
  constructor
  · intro h
    by_contra hne
    obtain ⟨n, l, tkt, hruns⟩ := h fun _ => false
    let l₁ : TicketLock := { s.shared with lock_ := wordAdd minU64 s.shared.lock_ 1 }
    have hbarred : Barred l₁ (.spin s.shared.lock_) := hne
    exact hbarred.never hruns tkt rfl
  · intro heq c
    exact ⟨1, _, s.shared.lock_, congrArg (Option.bind · _) (if_pos heq)⟩

/-- `TryLock` passes its test only with nothing left in `try_lock_`, and then does as `Lock`. -/
theorem gets_tryLock_iff (hs : Rest s) :
    Gets yields s i .tryLock ↔ s.shared.try_lock_ = 0 ∧ s.shared.lock_ = s.shared.head_ := by
  rw [gets_iff hs]
  let l₁ : TicketLock := { s.shared with try_lock_ := wordAdd minU32 s.shared.try_lock_ 1 }
  constructor
  · intro h
    by_contra hnot
    obtain ⟨n, l, tkt, hruns⟩ := h fun _ => false
    have hbarred : Barred l₁ (if s.shared.try_lock_ > 0 then .undoTry else .loadEither) := by
      split
      · trivial
      · exact fun heq => hnot ⟨by omega, heq⟩
    exact hbarred.never hruns tkt rfl
  · intro ⟨htry, heq⟩ c
    have hcall : act yields s.shared .idle .tryLock = some (l₁, .loadEither) := by
      rw [act, if_neg (by omega)]
    have hpass : afterLoads l₁.lock_ l₁.head_ = .takeTicket := if_neg (Nat.not_lt.mpr heq.le)
    have htest : runs yields l₁ .loadEither [.access (c 0), .access (c 1), .access (c 2),
        .access (c 3)] = runs yields l₁ .takeTicket [.access (c 2), .access (c 3)] := by
      rw [← hpass]
      cases c 0 with
      | true => rfl
      | false => rfl
    refine ⟨4, { l₁ with lock_ := wordAdd minU64 l₁.lock_ 1 }, s.shared.lock_, ?_⟩
    refine (runs_cons hcall).trans (htest.trans ?_)
    exact congrArg (Option.bind · _) (if_pos heq)

end

/-- **A lock at rest.** `Mutex` yields, `SpinLock` does not. After any history, with `Init` called
on the free lock only, that every thread has left, a thread that runs alone gets the lock exactly
if no `TryLock` (or a multiple of `2 ^ 32` of them) has ever got it and the last `Init` found
`head_` zero. -/
theorem available_iff {yields : Bool} {ls : List (ι × Op)} {s : History ι}
    (h : Run (History.step yields) InitFree (made ι) ls s) (hs : Rest s.pool) (i : ι) :
    Available yields s.pool i ↔ s.passed % minU32 = 0 ∧ s.found = 0 := by
  obtain ⟨htry, hfound⟩ := (run_tally h).rest hs
  constructor
  · intro ⟨hget, _⟩
    obtain ⟨hzero, heq⟩ := (gets_tryLock_iff hs).mp hget
    exact ⟨htry ▸ hzero, hfound.mp heq⟩
  · intro ⟨hzero, hinit⟩
    have heq := hfound.mpr hinit
    exact ⟨(gets_tryLock_iff hs).mpr ⟨htry.trans hzero, heq⟩, (gets_lock_iff hs).mpr heq⟩

instance {n : Nat} (s : History (Fin n)) : ∀ l, Decidable (InitFree s l)
  | (_, .act _) => isTrue nofun
  | (_, .init) =>
    decidable_of_iff (∀ i, s.pool.pc i = .idle) ⟨fun h _ => h, fun h => h rfl⟩

/-- `TryLock` of thread 1 fails while thread 0 has the lock. -/
def failedTry : List (Fin 2 × Op) :=
  let i : Fin 2 := ⟨0, Nat.zero_lt_two⟩
  let j : Fin 2 := ⟨1, Nat.one_lt_two⟩
  (j, .init) :: [(i, Act.lock), (i, .access true), (j, .tryLock), (j, .access true),
    (j, .access true), (j, .access true), (i, .access true)].map fun l => (l.1, .act l.2)

theorem available_iff_failedTry :
    ∃ s : History (Fin 2), s.pool.shared.head_ = 1 ∧ Available true s.pool 1 := by
  have hex : (execOk (History.step true) InitFree (made (Fin 2)) failedTry).map
      (fun s => (s.pool.shared.head_, s.passed, s.found, s.pool.pc 0, s.pool.pc 1)) =
        some (1, 0, 0, .idle, .idle) := by
    decide +kernel
  obtain ⟨s, hs, he⟩ := Option.map_eq_some_iff.mp hex
  simp only [Prod.mk.injEq] at he
  obtain ⟨hhead, hpassed, hfound, hpc⟩ := he
  refine ⟨s, hhead, (available_iff (run_of_execOk hs) (Fin.forall_fin_two.mpr hpc) 1).mpr ?_⟩
  exact ⟨by rw [hpassed]; rfl, hfound⟩

/-- A `TryLock` that succeeds, and the `Unlock`. -/
def onlyTry : List (Fin 1 × Op) :=
  (Act.tryLock :: List.replicate 5 (.access true)).map fun a => (0, .act a)

/-- The second `TryLock` finds the first one counted. -/
theorem tryLock_once : ¬ ∀ (yields : Bool) (ls : List (Fin 1 × Op)) (s : History (Fin 1)),
    Run (History.step yields) InitFree (made (Fin 1)) ls s → Rest s.pool →
      ∀ i, Available yields s.pool i := by
  intro h
  have hex : (execOk (History.step true) InitFree (made (Fin 1)) onlyTry).map
      (fun s => (s.pool.shared.try_lock_, s.pool.pc 0)) = some (1, .idle) := by
    decide +kernel
  obtain ⟨s, hs, he⟩ := Option.map_eq_some_iff.mp hex
  simp only [Prod.mk.injEq] at he
  obtain ⟨htry, hpc⟩ := he
  have hrest : Rest s.pool := fun i => by rw [Subsingleton.elim i 0, hpc]
  have hget := (h true onlyTry s (run_of_execOk hs) hrest 0).tryLock
  have hzero := ((gets_tryLock_iff hrest).mp hget).1
  rw [htry] at hzero
  cases hzero

end HermesShm.Thread.TicketLock
