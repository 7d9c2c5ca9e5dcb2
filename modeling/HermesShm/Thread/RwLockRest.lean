import HermesShm.Thread.RwLockExclusion

/-! # The reader-writer lock at rest

With no thread inside, `readers_` and `writers_` are zero in every run. `ticket_` counts the
write acquisitions in 64 bits, `cur_writer_` in 32, and the next writer waits until the two
are equal. -/
namespace HermesShm.Thread.RwLock
open HermesShm.Base

variable {ι : Type*} {l l' : RwLock} {p p' : Pc} {sp : Bool} {w n tkt : Nat}

def Act.isWriteLock : Act → Bool
  | .writeLock => true
  | _ => false

/-- The calls of `WriteLock` in a run. -/
def writeCalls (ls : List (ι × Act)) : Nat := ls.countP fun l => l.2.isWriteLock

/-- No thread is inside or waiting. -/
def Rest (s : State ι) : Prop := ∀ i, s.pc i = .idle

/-- `WriteLock` by thread `i`, its compare-exchanges failing as `sps` says. -/
def writeAlone (i : ι) (sps : List Bool) : List (ι × Act) :=
  (Act.writeLock :: sps.map Act.access).map (i, ·)

/-- A `WriteLock` that runs alone returns, however its weak compare-exchanges fail at first. -/
def Returns [DecidableEq ι] (s : State ι) (i : ι) : Prop :=
  ∀ sps, ∃ n sps' t tkt, sps' <+: sps ++ List.replicate n false ∧
    exec step s (writeAlone i sps') = some t ∧ t.pc i = .writing tkt

/-- The counters are those of a lock that was just made, and the next writer gets in. -/
structure Rested [DecidableEq ι] (s : State ι) : Prop where
  readers : s.shared.readers_ = 0
  writers : s.shared.writers_ = 0
  cur_writer : s.shared.cur_writer_ = s.shared.ticket_
  returns : ∀ i, Returns s i

/-! ## What the counters count -/

theorem fetchAdd_mod (w n : Nat) : fetchAdd w (n % w) = (n + 1) % w := wordAdd_mod w n

theorem fetchSub_mod (hw : 0 < w) (hn : 0 < n) : fetchSub w (n % w) = (n - 1) % w :=
  wordSub_mod hw hn

theorem afterUpdate_ne_takeTicket (c : Caller) (mode : RwLockMode) :
    afterUpdate c mode ≠ .takeTicket := by
  cases c <;> cases mode <;> simp [afterUpdate]

/-- An access changes one counter, in the way its thread leaves a place, or only `mode_`. -/
theorem access_moves (h : access l sp p = some (l', p')) :
    (p = .reading ∧ p' = .idle ∧ l' = { l with readers_ := fetchSub regUint l.readers_ }) ∨
    (p = .takeTicket ∧ p' = .loadMode (.writer l.ticket_) ∧
      l' = { l with ticket_ := fetchAdd bigUint l.ticket_ }) ∨
    (∃ tkt, p = .writing tkt ∧ p' = .passOn tkt ∧
      l' = { l with writers_ := fetchSub regUint l.writers_ }) ∨
    (∃ tkt, p = .passOn tkt ∧ p' = .idle ∧
      l' = { l with cur_writer_ := fetchAdd regUint l.cur_writer_ }) ∨
    (∃ mode, l' = { l with mode_ := mode }) ∧ (p'.isReader ↔ p.isReader) ∧
      (p'.isWriter ↔ p.isWriter) ∧ p'.ticket = p.ticket ∧ p ≠ .takeTicket ∧ p' ≠ .takeTicket := by
  cases p with
  | idle => cases h
  | reading => cases h; exact .inl ⟨rfl, rfl, rfl⟩
  | takeTicket => cases h; exact .inr (.inl ⟨rfl, rfl, rfl⟩)
  | writing tkt => cases h; exact .inr (.inr (.inl ⟨tkt, rfl, rfl, rfl⟩))
  | passOn tkt => cases h; exact .inr (.inr (.inr (.inl ⟨tkt, rfl, rfl, rfl⟩)))
  | loadMode c =>
    cases h
    exact .inr (.inr (.inr (.inr ⟨⟨_, rfl⟩, .rfl, .rfl, rfl, by simp, by simp⟩)))
  | loadReaders c mode =>
    refine .inr (.inr (.inr (.inr ?_)))
    simp only [access] at h
    split at h <;> cases h <;> exact ⟨⟨_, rfl⟩, .rfl, .rfl, rfl, by simp, by simp⟩
  | loadWriters c mode =>
    refine .inr (.inr (.inr (.inr ?_)))
    simp only [access] at h
    split at h <;> cases h
    · exact ⟨⟨_, rfl⟩, .rfl, .rfl, rfl, by simp, by simp⟩
    · exact ⟨⟨_, rfl⟩, afterUpdate_isReader c mode, afterUpdate_isWriter c mode,
        afterUpdate_ticket c mode, by simp, afterUpdate_ne_takeTicket c mode⟩
  | casNone c mode =>
    cases h
    exact .inr (.inr (.inr (.inr ⟨⟨_, rfl⟩, afterUpdate_isReader c _, afterUpdate_isWriter c _,
      afterUpdate_ticket c _, by simp, afterUpdate_ne_takeTicket c _⟩)))
  | casRead =>
    refine .inr (.inr (.inr (.inr ?_)))
    simp only [access, compareExchangeWeak] at h
    split at h <;> cases h <;>
      exact ⟨⟨_, rfl⟩, by simp [Pc.isReader], by simp [Pc.isWriter], rfl, by simp, by simp⟩
  | casWrite tkt =>
    cases h
    exact .inr (.inr (.inr (.inr ⟨⟨_, rfl⟩, .rfl, .rfl, rfl, by simp, by simp⟩)))
  | reloadMode tkt | loadCurWriter tkt =>
    refine .inr (.inr (.inr (.inr ?_)))
    simp only [access] at h
    split at h <;> cases h <;>
      exact ⟨⟨_, rfl⟩, by simp [Pc.isReader], by simp [Pc.isWriter], rfl, by simp, by simp⟩

/-- Every counter is the number of threads at some places, or of calls, as far as its bits
go. -/
structure Tally (ls : List (ι × Act)) (s : State ι) : Prop where
  readers : ∃ r, Count Pc.isReader s.pc r ∧ s.shared.readers_ = r % regUint
  writers : ∃ w, Count Pc.isWriter s.pc w ∧ s.shared.writers_ = w % regUint
  tickets : ∃ t k c, Count (· = .takeTicket) s.pc t ∧ Count (fun p => p.ticket.isSome) s.pc k ∧
    writeCalls ls = t + (k + c) ∧ s.shared.ticket_ = (k + c) % bigUint ∧
    s.shared.cur_writer_ = c % regUint

theorem init_tally : Tally [] (init ι) where
  readers := ⟨0, .zero fun _ => id, rfl⟩
  writers := ⟨0, .zero fun _ => id, rfl⟩
  tickets := ⟨0, 0, 0, .zero fun _ => by simp [init], .zero fun _ => by simp [init, Pc.ticket],
    rfl, rfl, rfl⟩

theorem Tally.rest {ls : List (ι × Act)} {s : State ι} (h : Tally ls s) (hs : Rest s) :
    s.shared.readers_ = 0 ∧ s.shared.writers_ = 0 ∧
      s.shared.ticket_ = writeCalls ls % bigUint ∧
      s.shared.cur_writer_ = writeCalls ls % regUint := by
  obtain ⟨⟨r, hr, hreaders⟩, ⟨w, hw, hwriters⟩, t, k, c, ht, hk, hcalls, hticket, hcur⟩ := h
  have hr0 : r = 0 := hr.eq_zero fun i => by simp [hs i, Pc.isReader]
  have hw0 : w = 0 := hw.eq_zero fun i => by simp [hs i, Pc.isWriter]
  have ht0 : t = 0 := ht.eq_zero fun i => by simp [hs i]
  have hk0 : k = 0 := hk.eq_zero fun i => by simp [hs i, Pc.ticket]
  subst hr0 hw0 ht0 hk0
  rw [Nat.zero_add, Nat.zero_add] at hcalls
  rw [Nat.zero_add] at hticket
  exact ⟨hreaders, hwriters, hcalls ▸ hticket, hcalls ▸ hcur⟩

theorem writeCalls_concat (ls : List (ι × Act)) (l : ι × Act) :
    writeCalls (ls ++ [l]) = writeCalls ls + if l.2.isWriteLock then 1 else 0 := by
  rw [writeCalls, List.countP_append, List.countP_singleton]
  rfl

theorem step_tally [DecidableEq ι] {ls : List (ι × Act)} {s t : State ι} {l : ι × Act}
    (h : Tally ls s) (hs : step s l = some t) : Tally (ls ++ [l]) t := by
  obtain ⟨i, a⟩ := l
  obtain ⟨l', p', he, rfl⟩ := Pool.step_cases hs
  obtain ⟨⟨r, hr, hreaders⟩, ⟨w, hw, hwriters⟩, n, k, c, hn, hk, hcalls, hticket, hcur⟩ := h
  have hconcat := writeCalls_concat ls (i, a)
  rcases act_cases he with ⟨hpc, rfl, rfl, rfl⟩ | ⟨hpc, rfl, rfl, rfl⟩ | ⟨sp, rfl, hacc⟩
  · refine ⟨⟨r + 1, hr.enter hpc id rfl, ?_⟩, ⟨w, hw.same hpc (by simp [Pc.isWriter]), hwriters⟩,
      n, k, c, hn.same hpc (by simp), hk.same hpc (by simp [Pc.ticket, Caller.ticket]),
      hconcat.trans hcalls, hticket, hcur⟩
    simp only [hreaders, fetchAdd_mod]
  · refine ⟨⟨r, hr.same hpc (by simp [Pc.isReader]), hreaders⟩,
      ⟨w + 1, hw.enter hpc id trivial, ?_⟩, n + 1, k, c, hn.enter hpc (by simp) rfl,
      hk.same hpc (by simp [Pc.ticket]), ?_, hticket, hcur⟩
    · simp only [hwriters, fetchAdd_mod]
    · rw [hconcat, hcalls, Nat.add_right_comm]
      rfl
  · rcases access_moves hacc with ⟨hpc, rfl, rfl⟩ | ⟨hpc, rfl, rfl⟩ | ⟨tkt, hpc, rfl, rfl⟩ |
      ⟨tkt, hpc, rfl, rfl⟩ | ⟨⟨mode, rfl⟩, hread, hwrite, htkt, hp, hp'⟩
    · refine ⟨⟨r - 1, hr.leave hpc trivial id, ?_⟩,
        ⟨w, hw.same hpc (by simp [Pc.isWriter]), hwriters⟩, n, k, c, hn.same hpc (by simp),
        hk.same hpc (by simp [Pc.ticket]), hconcat.trans hcalls, hticket, hcur⟩
      simp only [hreaders]
      exact fetchSub_mod (by decide) (hr.pos (i := i) (hpc ▸ trivial))
    · have hpos := hn.pos (i := i) hpc
      refine ⟨⟨r, hr.same hpc (by simp [Pc.isReader]), hreaders⟩,
        ⟨w, hw.same hpc (by simp [Pc.isWriter]), hwriters⟩, n - 1, k + 1, c,
        hn.leave hpc rfl (by simp), hk.enter hpc (by simp [Pc.ticket]) rfl, ?_, ?_, hcur⟩
      · rw [hconcat, hcalls]
        simp only [Act.isWriteLock, Bool.false_eq_true, if_false]
        omega
      · simp only [hticket, fetchAdd_mod]
        rw [Nat.add_right_comm]
    · refine ⟨⟨r, hr.same hpc (by simp [Pc.isReader]), hreaders⟩,
        ⟨w - 1, hw.leave hpc trivial id, ?_⟩, n, k, c, hn.same hpc (by simp),
        hk.same hpc (by simp [Pc.ticket]), hconcat.trans hcalls, hticket, hcur⟩
      simp only [hwriters]
      exact fetchSub_mod (by decide) (hw.pos (i := i) (hpc ▸ trivial))
    · have hpos := hk.pos (i := i) (hpc ▸ rfl)
      refine ⟨⟨r, hr.same hpc (by simp [Pc.isReader]), hreaders⟩,
        ⟨w, hw.same hpc (by simp [Pc.isWriter]), hwriters⟩, n, k - 1, c + 1,
        hn.same hpc (by simp), hk.leave hpc rfl (by simp [Pc.ticket]), ?_, ?_, ?_⟩
      · rw [hconcat, hcalls]
        simp only [Act.isWriteLock, Bool.false_eq_true, if_false]
        omega
      · simp only [hticket]
        rw [show k - 1 + (c + 1) = k + c by omega]
      · simp only [hcur, fetchAdd_mod]
    · exact ⟨⟨r, hr.same rfl hread, hreaders⟩, ⟨w, hw.same rfl hwrite, hwriters⟩, n, k, c,
        hn.same rfl (iff_of_false hp' hp), hk.same rfl (by rw [htkt]), hconcat.trans hcalls,
        hticket, hcur⟩

theorem run_tally [DecidableEq ι] {ls : List (ι × Act)} {s : State ι}
    (h : Run step Unrestricted (init ι) ls s) : Tally ls s :=
  h.history init_tally fun _ _ _ _ hi _ hs => step_tally hi hs

/-! ## A writer that runs alone -/

/-- One thread's accesses. -/
def runs (l : RwLock) (p : Pc) (as : List Act) : Option (RwLock × Pc) :=
  exec (fun x a => act x.1 x.2 a) (l, p) as

/-- The thread holds ticket `tkt` and is the only one inside, and it is its turn. -/
structure MyTurn (tkt : Nat) (l : RwLock) (p : Pc) : Prop where
  readers : l.readers_ = 0
  writers : l.writers_ = 1
  turn : l.cur_writer_ = tkt
  place : match p with
    | .loadMode c => c = .writer tkt
    | .loadReaders c mode => c = .writer tkt ∧ mode = l.mode_
    | .loadWriters c mode => c = .writer tkt ∧ mode = l.mode_ ∧ mode ≠ .kRead
    | .casNone c mode => c = .writer tkt ∧ mode = .kRead ∧ l.mode_ = .kRead
    | .casWrite t => t = tkt ∧ l.mode_ = .kNone
    | .reloadMode t => t = tkt ∧ l.mode_ ≠ .kRead
    | .loadCurWriter t => t = tkt ∧ l.mode_ = .kWrite
    | _ => False

/-- With no failing compare-exchange the thread gets in. -/
def Finishes (tkt : Nat) (l : RwLock) (p : Pc) : Prop :=
  ∃ n l', runs l p (List.replicate n (.access false)) = some (l', .writing tkt)

theorem Finishes.access (h : Finishes tkt l' p') (ha : access l false p = some (l', p')) :
    Finishes tkt l p := by
  obtain ⟨n, l'', hr⟩ := h
  have hact : act l p (.access false) = some (l', p') := by cases p <;> exact ha
  refine ⟨n + 1, l'', ?_⟩
  rw [List.replicate_succ, runs, exec]
  exact (congrArg (Option.bind · _) hact).trans hr

theorem MyTurn.finishes (h : MyTurn tkt l p) : Finishes tkt l p := by
  obtain ⟨mode_, readers_, writers_, cur_writer_, ticket_⟩ := l
  obtain ⟨hr, hw, ht, hp⟩ := h
  simp only at hr hw ht
  subst hr hw ht
  let l (mode : RwLockMode) : RwLock := ⟨mode, 0, 1, cur_writer_, ticket_⟩
  let c : Caller := .writer cur_writer_
  -- the way in while `mode_` is `kWrite`, then while it is `kNone`, then while it is `kRead`
  have hcur : Finishes cur_writer_ (l .kWrite) (.loadCurWriter cur_writer_) :=
    ⟨1, l .kWrite, congrArg (Option.bind · _) (if_pos rfl)⟩
  have hwriters : Finishes cur_writer_ (l .kWrite) (.loadWriters c .kWrite) := hcur.access rfl
  have hreaders : Finishes cur_writer_ (l .kWrite) (.loadReaders c .kWrite) := hwriters.access rfl
  have hmode : Finishes cur_writer_ (l .kWrite) (.loadMode c) := hreaders.access rfl
  have hreload : Finishes cur_writer_ (l .kWrite) (.reloadMode cur_writer_) := hcur.access rfl
  have hcas : Finishes cur_writer_ (l .kNone) (.casWrite cur_writer_) := hreload.access rfl
  have hwriters' : Finishes cur_writer_ (l .kNone) (.loadWriters c .kNone) := hcas.access rfl
  have hreaders' : Finishes cur_writer_ (l .kNone) (.loadReaders c .kNone) := hwriters'.access rfl
  have hmode' : Finishes cur_writer_ (l .kNone) (.loadMode c) := hreaders'.access rfl
  have hreset : Finishes cur_writer_ (l .kRead) (.casNone c .kRead) := hmode'.access rfl
  have hreaders'' : Finishes cur_writer_ (l .kRead) (.loadReaders c .kRead) := hreset.access rfl
  cases p <;> simp only at hp
  case loadMode =>
    subst hp
    cases mode_
    · exact hmode'
    · exact hmode
    · exact hreaders''.access rfl
  case loadReaders =>
    obtain ⟨rfl, rfl⟩ := hp
    rename_i mode
    cases mode
    · exact hreaders'
    · exact hreaders
    · exact hreaders''
  case loadWriters =>
    obtain ⟨rfl, rfl, hne⟩ := hp
    rename_i mode
    cases mode
    · exact hwriters'
    · exact hwriters
    · exact absurd rfl hne
  case casNone =>
    obtain ⟨rfl, rfl, rfl⟩ := hp
    exact hreset
  case casWrite =>
    obtain ⟨rfl, rfl⟩ := hp
    exact hcas
  case reloadMode =>
    obtain ⟨rfl, hne⟩ := hp
    cases mode_
    · exact hmode'.access rfl
    · exact hreload
    · exact absurd rfl hne
  case loadCurWriter =>
    obtain ⟨rfl, rfl⟩ := hp
    exact hcur

/-- Whatever fails, it stays the thread's turn. -/
theorem MyTurn.keeps (h : MyTurn tkt l p) (sp : Bool) :
    ∃ l' p', access l sp p = some (l', p') ∧ (MyTurn tkt l' p' ∨ p' = .writing tkt) := by
  obtain ⟨mode_, readers_, writers_, cur_writer_, ticket_⟩ := l
  obtain ⟨hr, hw, ht, hp⟩ := h
  simp only at hr hw ht
  subst hr hw ht
  cases p <;> simp only at hp
  case loadMode c => exact ⟨_, _, rfl, .inl ⟨rfl, rfl, rfl, hp, rfl⟩⟩
  case loadReaders c mode =>
    obtain ⟨rfl, rfl⟩ := hp
    by_cases hread : mode = .kRead
    · exact ⟨_, _, if_pos ⟨rfl, hread⟩, .inl ⟨rfl, rfl, rfl, rfl, hread, hread⟩⟩
    · exact ⟨_, _, if_neg fun hn => hread hn.2, .inl ⟨rfl, rfl, rfl, rfl, rfl, hread⟩⟩
  case loadWriters c mode =>
    obtain ⟨rfl, rfl, hne⟩ := hp
    have hin : ¬ (1 = 0 ∧ mode = .kWrite) := fun hn => Nat.one_ne_zero hn.1
    refine ⟨_, _, by simp only [access, if_neg hin]; rfl, .inl ⟨rfl, rfl, rfl, ?_⟩⟩
    cases mode
    · exact ⟨rfl, rfl⟩
    · exact ⟨rfl, rfl⟩
    · exact absurd rfl hne
  case casNone c mode =>
    obtain ⟨rfl, rfl, rfl⟩ := hp
    cases sp <;> exact ⟨_, _, rfl, .inl ⟨rfl, rfl, rfl, rfl⟩⟩
  case casWrite t =>
    obtain ⟨rfl, rfl⟩ := hp
    cases sp <;> exact ⟨_, _, rfl, .inl ⟨rfl, rfl, rfl, rfl, by simp⟩⟩
  case reloadMode t =>
    obtain ⟨rfl, hne⟩ := hp
    by_cases hmode : mode_ = .kWrite
    · exact ⟨_, _, if_pos hmode, .inl ⟨rfl, rfl, rfl, rfl, hmode⟩⟩
    · exact ⟨_, _, if_neg hmode, .inl ⟨rfl, rfl, rfl, rfl⟩⟩
  case loadCurWriter t =>
    obtain ⟨rfl, rfl⟩ := hp
    exact ⟨_, _, if_pos rfl, .inr rfl⟩

theorem MyTurn.returns (h : MyTurn tkt l p) (sps : List Bool) :
    ∃ n sps' l', sps' <+: sps ++ List.replicate n false ∧
      runs l p (sps'.map Act.access) = some (l', .writing tkt) := by
  induction sps generalizing l p with
  | nil =>
    obtain ⟨n, l', hl⟩ := h.finishes
    exact ⟨n, List.replicate n false, l', List.prefix_rfl, by rwa [List.map_replicate]⟩
  | cons sp sps ih =>
    obtain ⟨l', p', ha, hnext⟩ := h.keeps sp
    have hact : act l p (.access sp) = some (l', p') := by cases p <;> exact ha
    rcases hnext with hturn | rfl
    · obtain ⟨n, sps', l'', hpre, hruns⟩ := ih hturn
      refine ⟨n, sp :: sps', l'', List.cons_prefix_cons.mpr ⟨rfl, hpre⟩, ?_⟩
      simp only [List.map_cons, runs, exec, hact, Option.bind_some]
      exact hruns
    · refine ⟨0, [sp], l', ⟨sps ++ List.replicate 0 false, rfl⟩, ?_⟩
      simp only [List.map_cons, List.map_nil, runs, exec, hact, Option.bind_some]

/-- A writer whose turn does not come: its ticket is not the next one. -/
structure Waiting (tkt : Nat) (l : RwLock) (p : Pc) : Prop where
  turn : l.cur_writer_ ≠ tkt
  place : p = .takeTicket ∧ l.ticket_ = tkt ∨ p.ticket = some tkt ∧ p.turn = none

theorem afterUpdate_turn (c : Caller) (mode : RwLockMode) : (afterUpdate c mode).turn = none := by
  cases c <;> cases mode <;> rfl

theorem Waiting.keeps (h : Waiting tkt l p) (ha : access l sp p = some (l', p')) :
    Waiting tkt l' p' := by
  obtain ⟨hturn, ⟨rfl, rfl⟩ | ⟨htkt, hnone⟩⟩ := h
  · cases ha
    exact ⟨hturn, .inr ⟨rfl, rfl⟩⟩
  · cases p with
    | idle | takeTicket | casRead | reading => cases htkt
    | writing _ | passOn _ => cases hnone
    | loadMode c => cases ha; exact ⟨hturn, .inr ⟨htkt, rfl⟩⟩
    | loadReaders c mode =>
      simp only [access] at ha
      split at ha <;> cases ha <;> exact ⟨hturn, .inr ⟨htkt, rfl⟩⟩
    | loadWriters c mode =>
      simp only [access] at ha
      split at ha <;> cases ha
      · exact ⟨hturn, .inr ⟨htkt, rfl⟩⟩
      · exact ⟨hturn, .inr ⟨(afterUpdate_ticket c mode).trans htkt, afterUpdate_turn c mode⟩⟩
    | casNone c mode =>
      cases ha
      exact ⟨hturn, .inr ⟨(afterUpdate_ticket c _).trans htkt, afterUpdate_turn c _⟩⟩
    | casWrite t => cases ha; exact ⟨hturn, .inr ⟨htkt, rfl⟩⟩
    | reloadMode t =>
      simp only [access] at ha
      split at ha <;> cases ha <;> exact ⟨hturn, .inr ⟨htkt, rfl⟩⟩
    | loadCurWriter t =>
      simp only [access] at ha
      split at ha
      · rename_i hc
        exact absurd (hc.trans (Option.some.inj htkt)) hturn
      · cases ha
        exact ⟨hturn, .inr ⟨htkt, rfl⟩⟩

theorem Waiting.never (h : Waiting tkt l p) {sps : List Bool}
    (hr : runs l p (sps.map Act.access) = some (l', p')) (t : Nat) : p' ≠ .writing t := by
  induction sps generalizing l p with
  | nil =>
    cases hr
    rintro rfl
    rcases h.place with ⟨hp, -⟩ | ⟨-, hp⟩ <;> cases hp
  | cons sp sps ih =>
    obtain ⟨x, ha, hr⟩ := Option.bind_eq_some_iff.mp hr
    have hacc : access l sp p = some x := by cases p <;> exact ha
    exact ih (h.keeps hacc) hr

/-! ## At rest -/

variable [DecidableEq ι] {s : State ι} {i : ι} {ls : List (ι × Act)}

theorem exec_writeAlone (hi : s.pc i = .idle) (sps : List Bool) :
    exec step s (writeAlone i sps) =
      (runs { s.shared with writers_ := fetchAdd regUint s.shared.writers_ } .takeTicket
        (sps.map Act.access)).map fun x => ⟨x.1, Function.update s.pc i x.2⟩ := by
  rw [writeAlone, step, Pool.exec_alone, hi]
  rfl

/-- The next writer gets in if its ticket is the one that `cur_writer_` shows. -/
theorem returns_iff (hi : s.pc i = .idle) (hr : s.shared.readers_ = 0)
    (hw : s.shared.writers_ = 0) : Returns s i ↔ s.shared.cur_writer_ = s.shared.ticket_ := by
  let l : RwLock := { s.shared with writers_ := fetchAdd regUint s.shared.writers_ }
  constructor
  · intro h
    by_contra hne
    obtain ⟨n, sps, t, tkt, -, he, ht⟩ := h []
    rw [exec_writeAlone hi] at he
    obtain ⟨⟨l', p'⟩, hruns, rfl⟩ := Option.map_eq_some_iff.mp he
    have hwait : Waiting s.shared.ticket_ l .takeTicket := ⟨hne, .inl ⟨rfl, rfl⟩⟩
    simp only [Function.update_self] at ht
    exact hwait.never hruns tkt ht
  · intro h sps
    let l' : RwLock := { l with ticket_ := fetchAdd bigUint l.ticket_ }
    have hturn : MyTurn s.shared.ticket_ l' (.loadMode (.writer s.shared.ticket_)) :=
      ⟨hr, congrArg (fetchAdd regUint) hw, h, rfl⟩
    -- the first access takes the ticket, whatever it is told
    obtain ⟨n, sps', l'', hpre, hruns⟩ := hturn.returns sps.tail
    have hfirst : ∀ sp, runs l .takeTicket ((sp :: sps').map Act.access) =
        some (l'', .writing s.shared.ticket_) := fun sp => hruns
    have hexec : ∀ sp, exec step s (writeAlone i (sp :: sps')) =
        some ⟨l'', Function.update s.pc i (.writing s.shared.ticket_)⟩ := fun sp => by
      rw [exec_writeAlone hi, hfirst]
      rfl
    cases sps with
    | nil =>
      refine ⟨n + 1, false :: sps', _, _, ?_, hexec false, Function.update_self ..⟩
      exact List.cons_prefix_cons.mpr ⟨rfl, hpre⟩
    | cons sp sps =>
      exact ⟨n, sp :: sps', _, _, List.cons_prefix_cons.mpr ⟨rfl, hpre⟩, hexec sp,
        Function.update_self ..⟩

/-- **The lock at rest.** The counters of readers and writers are zero after every run that
every thread has left; the next writer gets in, and the lock is as it was made, exactly if
the number of write acquisitions, modulo the bits of `ticket_`, fits the bits of
`cur_writer_`. -/
theorem rested_iff (h : Run step Unrestricted (init ι) ls s) (hs : Rest s) :
    (Rested s ↔ writeCalls ls % bigUint < regUint) ∧
      s.shared.readers_ = 0 ∧ s.shared.writers_ = 0 ∧
      ∀ i, Returns s i ↔ writeCalls ls % bigUint < regUint := by
  obtain ⟨hr, hw, hticket, hcur⟩ := (run_tally h).rest hs
  have heq : s.shared.cur_writer_ = s.shared.ticket_ ↔ writeCalls ls % bigUint < regUint := by
    rw [hcur, hticket]
    unfold bigUint regUint
    omega
  have hret : ∀ i, Returns s i ↔ writeCalls ls % bigUint < regUint :=
    fun i => (returns_iff (hs i) hr hw).trans heq
  exact ⟨⟨fun hrest => heq.mp hrest.cur_writer, fun hlt => ⟨hr, hw, heq.mpr hlt,
    fun i => (hret i).mpr hlt⟩⟩, hr, hw, hret⟩

/-- `WriteLock` and `WriteUnlock` on a lock that was just made, and on one that a writer had
last. -/
def firstWrite : List Act := .writeLock :: List.replicate 9 (.access false)
def nextWrite : List Act := .writeLock :: List.replicate 7 (.access false)

theorem rested_iff_once : ∃ s : State (Fin 2), s.shared.ticket_ = 1 ∧ Rested s := by
  have hex : (exec step (init (Fin 2)) (firstWrite.map (1, ·))).map
      (fun s => (s.shared.ticket_, s.pc 0, s.pc 1)) = some (1, .idle, .idle) := by
    decide +kernel
  obtain ⟨s, hs, he⟩ := Option.map_eq_some_iff.mp hex
  simp only [Prod.mk.injEq] at he
  have hrest : Rest s := Fin.forall_fin_two.mpr he.2
  exact ⟨s, he.1, (rested_iff (run_iff_exec.mpr hs) hrest).1.mpr (by decide)⟩

theorem runs_next (k : Nat) : runs ⟨.kWrite, 0, 0, k, k⟩ .idle nextWrite =
    some (⟨.kWrite, 0, 0, fetchAdd regUint k, fetchAdd bigUint k⟩, .idle) := by
  let l : RwLock := ⟨.kWrite, 0, 1, k, fetchAdd bigUint k⟩
  have hin : runs ⟨.kWrite, 0, 0, k, k⟩ .idle (.writeLock :: List.replicate 4 (.access false)) =
      some (l, .loadCurWriter k) := rfl
  have hout : runs l (.loadCurWriter k) (List.replicate 3 (.access false)) =
      some (⟨.kWrite, 0, 0, fetchAdd regUint k, fetchAdd bigUint k⟩, .idle) :=
    congrArg (Option.bind · _) (if_pos rfl)
  have happ : nextWrite = (.writeLock :: List.replicate 4 (.access false)) ++
      List.replicate 3 (.access false) := rfl
  unfold runs at hin hout ⊢
  rw [happ, exec_append, hin]
  exact hout

theorem runs_many {k n : Nat} (h : k + n < regUint) :
    runs ⟨.kWrite, 0, 0, k, k⟩ .idle (List.replicate n nextWrite).flatten =
      some (⟨.kWrite, 0, 0, k + n, k + n⟩, .idle) := by
  induction n generalizing k with
  | zero => rfl
  | succ n ih =>
    have hnext := runs_next k
    have hbig : k + 1 < bigUint := by
      unfold bigUint
      unfold regUint at h
      omega
    rw [fetchAdd_of_lt (show k + 1 < regUint by omega), fetchAdd_of_lt hbig] at hnext
    unfold runs at hnext ih ⊢
    rw [List.replicate_succ, List.flatten_cons, exec_append, hnext, Option.bind_some,
      ih (by omega)]
    simp only [Nat.add_assoc, Nat.add_comm 1 n]

/-- One thread writes as often as `cur_writer_` has values. -/
def wrappingWrites : List Act :=
  firstWrite ++ ((List.replicate (regUint - 2) nextWrite).flatten ++ nextWrite)

theorem wrapped_writer_waits : ¬ ∀ (ls : List (Unit × Act)) (s : State Unit),
    Run step Unrestricted (init Unit) ls s → Rest s → Rested s := by
  intro hall
  have hfirst : runs {} .idle firstWrite = some (⟨.kWrite, 0, 0, 1, 1⟩, .idle) := rfl
  have hmany := runs_many (show 1 + (regUint - 2) < regUint by unfold regUint; omega)
  have hlast := runs_next (1 + (regUint - 2))
  have hall' : runs {} .idle wrappingWrites =
      some (⟨.kWrite, 0, 0, 0, regUint⟩, .idle) := by
    unfold runs at hfirst hmany hlast ⊢
    rw [wrappingWrites, exec_append, hfirst, Option.bind_some, exec_append, hmany,
      Option.bind_some, hlast]
    rfl
  have hexec : exec step (init Unit) (wrappingWrites.map ((), ·)) =
      some ⟨⟨.kWrite, 0, 0, 0, regUint⟩, fun _ => .idle⟩ := by
    rw [step, Pool.exec_alone]
    unfold runs at hall'
    rw [show ((init Unit).shared, (init Unit).pc ()) = ({}, .idle) from rfl, hall']
    exact congrArg some (congrArg _ (Function.update_eq_self () fun _ : Unit => Pc.idle))
  have hrest := hall _ _ (run_iff_exec.mpr hexec) fun _ => rfl
  exact absurd hrest.cur_writer (by decide)

end HermesShm.Thread.RwLock
