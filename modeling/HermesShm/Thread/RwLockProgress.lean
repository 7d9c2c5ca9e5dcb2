import HermesShm.Base.Fairness
import HermesShm.Thread.RwLockRest
import Mathlib.Data.Prod.Lex

/-! # The reader-writer lock empties

`RwLock` gives no turn to anybody: readers that keep coming hold off the writers, and the other
way round. But it does not get stuck. Once no thread calls it any more, whatever `mode_` says and
whichever resets of it are under way, some thread gets in by its own steps, and in the end every
thread has left. -/
namespace HermesShm.Thread.RwLock
open HermesShm.Base

variable {ι : Type*} {l l' : RwLock} {p p' : Pc} {i : ι} {calls c : Nat} {q : List ι}

/-! ## The writers in line -/

/-- The writers with a ticket, the one whose turn comes next first; `c` of them have left. -/
structure Line (l : RwLock) (pc : ι → Pc) (calls c : Nat) (q : List ι) : Prop where
  takers : ∃ t, Count (· = .takeTicket) pc t ∧ calls = t + (c + q.length)
  ticket_ : l.ticket_ = c + q.length
  cur_writer_ : l.cur_writer_ = c % regUint
  nodup : q.Nodup
  mem : ∀ i, i ∈ q ↔ (pc i).ticket.isSome
  ticket : ∀ n i, q[n]? = some i → (pc i).ticket = some (c + n)
  turn : ∀ i, (pc i).turn.isSome → q.head? = some i

theorem init_line : Line (init ι).shared (init ι).pc 0 0 [] where
  takers := ⟨0, .zero fun _ => by simp [init], rfl⟩
  ticket_ := rfl
  cur_writer_ := rfl
  nodup := .nil
  mem _ := iff_of_false List.not_mem_nil nofun
  ticket := nofun
  turn := nofun

/-- Tickets are no more than calls. -/
theorem Line.length_le (h : Line l pc calls c q) : c + q.length ≤ calls := by
  obtain ⟨t, -, heq⟩ := h.takers
  omega

/-- Only the first in line finds its ticket in `cur_writer_`. -/
theorem Line.front {pc : ι → Pc} (h : Line l pc calls c q) (hlt : calls ≤ regUint)
    (hi : (pc i).ticket = some l.cur_writer_) : q.head? = some i := by
  have hmem : i ∈ q := (h.mem i).mpr (by rw [hi]; rfl)
  obtain ⟨n, hn, rfl⟩ := List.mem_iff_getElem.mp hmem
  have hle := h.length_le
  have htkt := h.ticket n _ (List.getElem?_eq_getElem hn)
  rw [hi, Option.some.injEq, h.cur_writer_, Nat.mod_eq_of_lt (by omega)] at htkt
  obtain rfl : n = 0 := by omega
  rw [List.head?_eq_getElem?, List.getElem?_eq_getElem hn]

/-- A thread gets its turn when `cur_writer_` has come to its ticket. -/
theorem access_turn {sp : Bool} {tkt : Nat} (h : access l sp p = some (l', p'))
    (ht : p'.turn = some tkt) :
    p.turn = some tkt ∨ (p.ticket = some tkt ∧ l.cur_writer_ = tkt) := by
  cases p with
  | idle => cases h
  | loadCurWriter n =>
    simp only [access] at h
    split at h
    · rename_i hcur
      cases h
      obtain rfl : n = tkt := Option.some.inj ht
      exact .inr ⟨rfl, hcur⟩
    · cases h
      cases ht
  | writing n => cases h; exact .inl ht
  | loadReaders c mode =>
    simp only [access] at h
    split at h <;> cases h <;> cases ht
  | loadWriters c mode =>
    simp only [access] at h
    split at h <;> cases h
    · cases ht
    · rw [afterUpdate_turn] at ht
      cases ht
  | casNone c mode =>
    cases h
    rw [afterUpdate_turn] at ht
    cases ht
  | casRead =>
    simp only [access, compareExchangeWeak] at h
    split at h <;> cases h <;> cases ht
  | reloadMode n =>
    simp only [access] at h
    split at h <;> cases h <;> cases ht
  | loadMode _ | reading | takeTicket | casWrite _ | passOn _ => cases h; cases ht

variable [DecidableEq ι]

/-- The places in line stay as they are. -/
theorem Line.stay {pc : ι → Pc} (h : Line l pc calls c q) (hticket : l'.ticket_ = l.ticket_)
    (hcur : l'.cur_writer_ = l.cur_writer_) (htkt : p'.ticket = (pc i).ticket)
    (hturn : p'.turn.isSome → q.head? = some i) {t : Nat}
    (ht : Count (· = .takeTicket) (Function.update pc i p') t) {calls' : Nat}
    (hcalls : calls' = t + (c + q.length)) : Line l' (Function.update pc i p') calls' c q := by
  have hticket' : ∀ j, (Function.update pc i p' j).ticket = (pc j).ticket := by
    intro j
    obtain rfl | hj := eq_or_ne j i
    · rw [Function.update_self, htkt]
    · rw [Function.update_of_ne hj]
  refine ⟨⟨t, ht, hcalls⟩, hticket.trans h.ticket_, hcur.trans h.cur_writer_, h.nodup, fun j => ?_,
    fun n j hj => ?_, fun j hj => ?_⟩
  · rw [hticket']
    exact h.mem j
  · rw [hticket']
    exact h.ticket n j hj
  · obtain rfl | hne := eq_or_ne j i
    · rw [Function.update_self] at hj
      exact hturn hj
    · rw [Function.update_of_ne hne] at hj
      exact h.turn j hj

/-- A ticket is taken at the end of the line. -/
theorem Line.take {pc : ι → Pc} (h : Line l pc calls c q) (hi : pc i = .takeTicket)
    (hlt : calls ≤ regUint) : Line { l with ticket_ := fetchAdd bigUint l.ticket_ }
      (Function.update pc i (.loadMode (.writer l.ticket_))) calls c (q ++ [i]) := by
  obtain ⟨t, ht, hcalls⟩ := h.takers
  have hpos := ht.pos (i := i) hi
  have hnot : i ∉ q := fun hmem => by
    have := (h.mem i).mp hmem
    rw [hi] at this
    cases this
  refine ⟨⟨t - 1, ht.leave hi rfl (by simp), ?_⟩, ?_, h.cur_writer_,
    List.nodup_append'.mpr ⟨h.nodup, List.nodup_singleton i, by simpa⟩, fun j => ?_,
    fun n j hj => ?_, fun j hj => ?_⟩
  · rw [List.length_append, List.length_singleton]
    omega
  · have hbits : regUint < bigUint := by decide
    rw [List.length_append, List.length_singleton, ← Nat.add_assoc, ← h.ticket_]
    exact fetchAdd_of_lt (by rw [h.ticket_]; omega)
  · obtain rfl | hj := eq_or_ne j i
    · rw [Function.update_self]
      exact iff_of_true (by simp) rfl
    · rw [Function.update_of_ne hj, ← h.mem j]
      simp [hj]
  · rcases Nat.lt_or_ge n q.length with hn | hn
    · rw [List.getElem?_append_left hn] at hj
      have hne : j ≠ i := by
        rintro rfl
        exact hnot (List.mem_of_getElem? hj)
      rw [Function.update_of_ne hne]
      exact h.ticket n j hj
    · obtain ⟨rfl, rfl⟩ : n = q.length ∧ j = i := by
        have hlen : n < (q ++ [i]).length := (List.getElem?_eq_some_iff.mp hj).1
        have hn : n = q.length := by simp at hlen; omega
        subst hn
        rw [List.getElem?_concat_length] at hj
        exact ⟨rfl, (Option.some.inj hj).symm⟩
      rw [Function.update_self, ← h.ticket_]
      rfl
  · obtain rfl | hne := eq_or_ne j i
    · rw [Function.update_self] at hj
      cases hj
    · rw [Function.update_of_ne hne] at hj
      rw [List.head?_append_of_ne_nil _ (by rintro rfl; cases h.turn j hj)]
      exact h.turn j hj

/-- The first in line leaves. -/
theorem Line.leave {pc : ι → Pc} {tkt : Nat} (h : Line l pc calls c q) (hi : pc i = .passOn tkt) :
    ∃ q', Line { l with cur_writer_ := fetchAdd regUint l.cur_writer_ }
      (Function.update pc i .idle) calls (c + 1) q' := by
  have hfront := h.turn i (by rw [hi]; rfl)
  obtain ⟨q, rfl⟩ : ∃ q', q = i :: q' := by
    cases q with
    | nil => cases hfront
    | cons k q => exact ⟨q, by rw [Option.some.inj hfront]⟩
  obtain ⟨hnot, hnodup⟩ := List.nodup_cons.mp h.nodup
  obtain ⟨t, ht, hcalls⟩ := h.takers
  rw [List.length_cons] at hcalls
  refine ⟨q, ⟨t, ht.same hi (by simp), by omega⟩, ?_, ?_, hnodup, fun j => ?_, fun n j hj => ?_,
    fun j hj => ?_⟩
  · refine h.ticket_.trans ?_
    rw [List.length_cons]
    omega
  · rw [h.cur_writer_]
    exact fetchAdd_mod regUint c
  · obtain rfl | hj := eq_or_ne j i
    · rw [Function.update_self]
      exact iff_of_false hnot nofun
    · rw [Function.update_of_ne hj, ← h.mem j]
      simp [hj]
  · have hne : j ≠ i := by
      rintro rfl
      exact hnot (List.mem_of_getElem? hj)
    rw [Function.update_of_ne hne, Nat.add_assoc, Nat.add_comm 1]
    exact h.ticket (n + 1) j hj
  · obtain rfl | hne := eq_or_ne j i
    · rw [Function.update_self] at hj
      cases hj
    · rw [Function.update_of_ne hne] at hj
      exact absurd (Option.some.inj ((h.turn j hj).symm.trans hfront)) hne

theorem Line.access {pc : ι → Pc} {sp : Bool} (h : Line l pc calls c q) (hlt : calls ≤ regUint)
    (ha : access l sp (pc i) = some (l', p')) :
    ∃ c' q', Line l' (Function.update pc i p') calls c' q' := by
  obtain ⟨t, ht, hcalls⟩ := h.takers
  rcases access_moves ha with ⟨hpc, rfl, rfl⟩ | ⟨hpc, rfl, rfl⟩ | ⟨tkt, hpc, rfl, rfl⟩ |
    ⟨tkt, hpc, rfl, rfl⟩ | ⟨⟨mode, rfl⟩, -, -, htkt, hp, hp'⟩
  · exact ⟨c, q, h.stay (by rfl) (by rfl) (by rw [hpc]; rfl) (by nofun) (ht.same hpc (by simp))
      hcalls⟩
  · exact ⟨c, _, h.take hpc hlt⟩
  · exact ⟨c, q, h.stay (by rfl) (by rfl) (by rw [hpc]; rfl)
      (fun _ => h.turn i (by rw [hpc]; rfl)) (ht.same hpc (by simp)) hcalls⟩
  · obtain ⟨q', hq'⟩ := h.leave hpc
    exact ⟨c + 1, q', hq'⟩
  · refine ⟨c, q, h.stay (by rfl) (by rfl) htkt (fun hturn => ?_)
      (ht.same rfl (iff_of_false hp' hp)) hcalls⟩
    obtain ⟨tkt, hturn⟩ := Option.isSome_iff_exists.mp hturn
    rcases access_turn ha hturn with hold | ⟨hown, hcur⟩
    · exact h.turn i (by rw [hold]; rfl)
    · exact h.front hlt (hcur ▸ hown)

theorem step_line {ls : List (ι × Act)} {s t : State ι} {la : ι × Act}
    (h : Line s.shared s.pc (writeCalls ls) c q) (hlt : writeCalls ls ≤ regUint)
    (hs : step s la = some t) :
    ∃ c' q', Line t.shared t.pc (writeCalls (ls ++ [la])) c' q' := by
  obtain ⟨i, a⟩ := la
  obtain ⟨l', p', he, rfl⟩ := Pool.step_cases hs
  obtain ⟨n, hn, hcalls⟩ := h.takers
  rw [writeCalls_concat]
  rcases act_cases he with ⟨hpc, rfl, rfl, rfl⟩ | ⟨hpc, rfl, rfl, rfl⟩ | ⟨sp, rfl, hacc⟩
  · exact ⟨c, q, h.stay (by rfl) (by rfl) (by rw [hpc]; rfl) (by nofun) (hn.same hpc (by simp))
      hcalls⟩
  · refine ⟨c, q, h.stay (by rfl) (by rfl) (by rw [hpc]; rfl) (by nofun)
      (hn.enter hpc (by simp) rfl) ?_⟩
    rw [hcalls, Nat.add_right_comm]
    rfl
  · exact h.access hlt hacc

theorem run_line {ls : List (ι × Act)} {s : State ι} (h : Run step Unrestricted (init ι) ls s)
    (hlt : writeCalls ls ≤ regUint) : ∃ c q, Line s.shared s.pc (writeCalls ls) c q := by
  refine h.history (J := fun ls s => writeCalls ls ≤ regUint →
    ∃ c q, Line s.shared s.pc (writeCalls ls) c q) (fun _ => ⟨0, [], init_line⟩) ?_ hlt
  intro ls s la t ih _ hs hle
  rw [writeCalls_concat] at hle
  have hle' : writeCalls ls ≤ regUint := (Nat.le_add_right ..).trans hle
  obtain ⟨c, q, hline⟩ := ih hle'
  exact step_line hline hle' hs

/-! ## The state while the lock empties -/

/-- The counters that say who is inside, as numbers that do not wrap. -/
structure Ready (calls : Nat) (s : State ι) : Prop where
  readers : Count Pc.isReader s.pc s.shared.readers_
  writers : Count Pc.isWriter s.pc s.shared.writers_
  line : ∃ c q, Line s.shared s.pc calls c q

theorem Ready.keeps {s : State ι} {sp : Bool} (h : Ready calls s) (hlt : calls ≤ regUint)
    (ha : access s.shared sp (s.pc i) = some (l', p')) :
    Ready calls ⟨l', Function.update s.pc i p'⟩ where
  readers := (access_readers (fun hi => h.readers.pos hi) ha).count h.readers
  writers := (access_writers (fun hi => h.writers.pos hi) ha).count h.writers
  line := by
    obtain ⟨c, q, hline⟩ := h.line
    exact hline.access hlt ha

theorem run_ready [Fintype ι] (hcard : Fintype.card ι < regUint) {ls : List (ι × Act)}
    {s : State ι} (h : Run step Unrestricted (init ι) ls s) (hlt : writeCalls ls ≤ regUint) :
    Ready (writeCalls ls) s := by
  obtain ⟨⟨r, hr, hreaders⟩, ⟨w, hw, hwriters⟩, -⟩ := run_tally h
  refine ⟨?_, ?_, run_line h hlt⟩
  · rwa [hreaders, Nat.mod_eq_of_lt (lt_of_le_of_lt hr.le_card hcard)]
  · rwa [hwriters, Nat.mod_eq_of_lt (lt_of_le_of_lt hw.le_card hcard)]

/-! ## What one access brings about -/

def Caller.stage : Caller → Nat
  | .reader => 2
  | .writer _ => 3

/-- What a thread still has to do, however long it may have to wait. -/
def Pc.stage : Pc → Nat
  | .idle => 0
  | .loadMode c | .loadReaders c _ | .loadWriters c _ | .casNone c _ => c.stage
  | .casRead => 2
  | .reading => 1
  | .takeTicket => 4
  | .casWrite _ | .reloadMode _ | .loadCurWriter _ => 3
  | .writing _ => 2
  | .passOn _ => 1

/-- `1` for a reset of `mode_` under way that would not be begun any more. -/
def stale (l : RwLock) : Pc → Nat
  | .casNone _ .kRead => if l.readers_ = 0 then 0 else 1
  | .casNone _ .kWrite => if l.writers_ = 0 then 0 else 1
  | _ => 0

/-- How far `mode_` is from one in which somebody gets in. -/
def modeRank (l : RwLock) : Nat :=
  match l.mode_ with
  | .kWrite => if l.writers_ = 0 then 2 else 0
  | .kNone => 1
  | .kRead => if l.writers_ = 0 then 0 else 2

/-- Between the accesses of a call that has to wait. -/
def Pc.waits : Pc → Bool
  | .idle | .reading | .takeTicket | .writing _ | .passOn _ => false
  | _ => true

/-- A thread whose own steps bring it in, or change `mode_`, if no other thread changes the lock. -/
structure Helper (l : RwLock) (p : Pc) : Prop where
  inside : p ≠ .idle
  reader : p.waits → p.isReader → l.mode_ = .kWrite → l.writers_ = 0
  noReader : p.waits → p.isWriter → l.mode_ = .kRead → l.readers_ = 0
  turn : p.waits → ∀ tkt, p.ticket = some tkt → l.mode_ = .kWrite → tkt = l.cur_writer_

/-- The accesses a helper needs at most. -/
def left (mode_ : RwLockMode) : Pc → Nat
  | .loadMode _ => 6
  | .loadReaders _ mode => if mode = mode_ then 5 else 11
  | .loadWriters c mode => if mode = mode_ ∧ ¬ (c ≠ .reader ∧ mode = .kRead) then 4 else 10
  | .casNone _ mode => if mode = mode_ then 3 else 9
  | .casRead | .casWrite _ => if mode_ = .kNone then 1 else 8
  | .reloadMode _ => if mode_ = .kWrite then 2 else 7
  | .loadCurWriter _ => if mode_ = .kWrite then 1 else 7
  | .idle | .reading | .takeTicket | .writing _ | .passOn _ => 0

/-- An access brings its thread on, ends a stale reset, takes `mode_` further, or leaves the lock
as it is, and then a helper has less to do. -/
inductive Progress (l : RwLock) (p : Pc) (l' : RwLock) (p' : Pc) : Prop
  | on : p'.stage < p.stage → Progress l p l' p'
  | reset : p'.stage = p.stage → (∃ mode, l' = { l with mode_ := mode }) → stale l p = 1 →
      stale l p' = 0 → Progress l p l' p'
  | mode : p'.stage = p.stage → (∃ mode, l' = { l with mode_ := mode }) → stale l p = 0 →
      stale l p' = 0 → modeRank l' < modeRank l → Progress l p l' p'
  | wait : l' = l → p.waits → p'.stage = p.stage → stale l p = 0 → stale l p' = 0 →
      (Helper l p → left l.mode_ p' < left l.mode_ p) → Progress l p l' p'

theorem one_lt_stage (c : Caller) : Pc.reading.stage < c.stage := by
  cases c with
  | reader => exact Nat.lt_succ_self 1
  | writer tkt => exact Nat.lt_of_lt_of_le (Nat.lt_succ_self 1) (Nat.le_succ 2)

theorem stale_cases (l : RwLock) (p : Pc) : stale l p = 0 ∨ stale l p = 1 := by
  unfold stale
  split
  · exact (em _).imp (if_pos ·) (if_neg ·)
  · exact (em _).imp (if_pos ·) (if_neg ·)
  · exact .inl rfl

theorem afterUpdate_stale (l : RwLock) (c : Caller) (mode : RwLockMode) :
    stale l (afterUpdate c mode) = 0 := by
  cases c <;> cases mode <;> rfl

theorem afterUpdate_stage (c : Caller) (mode : RwLockMode) :
    afterUpdate c mode = .reading ∨ (afterUpdate c mode).stage = c.stage := by
  cases c <;> cases mode <;> simp [afterUpdate, Pc.stage, Caller.stage]

theorem left_afterUpdate (mode_ : RwLockMode) (c : Caller) (mode : RwLockMode) :
    left mode_ (afterUpdate c mode) ≤ 8 := by
  cases c <;> cases mode <;> simp only [afterUpdate, left] <;> (try split) <;> omega

/-- It has just seen the mode the lock is in. -/
theorem left_afterUpdate_same (mode : RwLockMode) (c : Caller) :
    left mode (afterUpdate c mode) ≤ 6 := by
  cases c <;> cases mode <;> simp [afterUpdate, left]

/-- And that mode is for it. -/
theorem left_afterUpdate_fresh {mode : RwLockMode} {c : Caller}
    (hread : c = .reader → mode ≠ .kWrite) (hwrite : c ≠ .reader → mode ≠ .kRead) :
    left mode (afterUpdate c mode) ≤ 1 := by
  cases c with
  | reader =>
    cases mode with
    | kWrite => exact absurd rfl (hread rfl)
    | kNone | kRead => decide
  | writer tkt =>
    cases mode with
    | kRead => exact absurd rfl (hwrite nofun)
    | kNone | kWrite => exact Nat.le_refl 1

section
variable (hr : p.isReader → l.readers_ ≠ 0) (hw : p.isWriter → l.writers_ ≠ 0)

/-- The end of `UpdateMode` without a reset. -/
theorem progress_afterUpdate {c : Caller} {mode : RwLockMode} (hwaits : p.waits)
    (hp : p.stage = c.stage) (hstale : stale l p = 0)
    (hleft : Helper l p → left l.mode_ (afterUpdate c mode) < left l.mode_ p) :
    Progress l p l (afterUpdate c mode) := by
  rcases afterUpdate_stage c mode with hread | hstage
  · refine .on ?_
    rw [hread, hp]
    exact one_lt_stage c
  · exact .wait rfl hwaits (hstage.trans hp.symm) hstale (afterUpdate_stale l c mode) hleft

/-- A reset of `mode_`, done or not. -/
theorem progress_reset {c : Caller} {mode new : RwLockMode} (hp : p.stage = c.stage)
    (hlive : stale l p = 0 → Progress l p { l with mode_ := new } (afterUpdate c mode)) :
    Progress l p { l with mode_ := new } (afterUpdate c mode) := by
  by_cases hstale : stale l p = 0
  · exact hlive hstale
  rcases afterUpdate_stage c mode with hread | hstage
  · refine .on ?_
    rw [hread, hp]
    exact one_lt_stage c
  · exact .reset (hstage.trans hp.symm) ⟨new, rfl⟩ ((stale_cases l p).resolve_left hstale)
      (afterUpdate_stale l c mode)

include hr hw in
theorem progress_casNone {c : Caller} {mode : RwLockMode} (hp : p = .casNone c mode)
    (h : access l false p = some (l', p')) : Progress l p l' p' := by
  subst hp
  simp only [access, compareExchangeWeak, and_true] at h
  split at h
  · rename_i heq
    cases h
    refine progress_reset rfl fun hstale => ?_
    rcases afterUpdate_stage c mode with hread | hstage
    · refine .on ?_
      rw [hread]
      exact one_lt_stage c
    cases mode with
    | kNone =>
      have hl : ({ l with mode_ := .kNone } : RwLock) = l := by rw [← heq]
      rw [hl]
      refine progress_afterUpdate rfl rfl hstale fun _ => ?_
      rw [heq]
      exact Nat.lt_of_le_of_lt (left_afterUpdate_fresh (by simp) (by simp)) (by decide : 1 < 3)
    | kRead =>
      have hzero : l.readers_ = 0 := by
        by_contra hne
        rw [stale, if_neg hne] at hstale
        cases hstale
      -- a reader is counted itself
      have hc : c ≠ .reader := fun hc => hr hc hzero
      refine .mode hstage ⟨_, rfl⟩ hstale (afterUpdate_stale l c _) ?_
      rw [modeRank, modeRank, heq]
      dsimp only
      rw [if_neg (hw hc)]
      exact Nat.lt_succ_self 1
    | kWrite =>
      have hzero : l.writers_ = 0 := by
        by_contra hne
        rw [stale, if_neg hne] at hstale
        cases hstale
      refine .mode hstage ⟨_, rfl⟩ hstale (afterUpdate_stale l c _) ?_
      rw [modeRank, modeRank, heq]
      dsimp only
      rw [if_pos hzero]
      exact Nat.lt_succ_self 1
  · rename_i hne
    cases h
    refine progress_reset rfl fun hstale => progress_afterUpdate rfl rfl hstale fun _ => ?_
    rw [left, if_neg (Ne.symm hne)]
    exact Nat.lt_of_le_of_lt (left_afterUpdate_same l.mode_ c) (by decide : 6 < 9)

include hr hw in
theorem access_progress (h : access l false p = some (l', p')) : Progress l p l' p' := by
  cases p with
  | idle => cases h
  | reading | passOn tkt => cases h; exact .on Nat.one_pos
  | writing tkt => cases h; exact .on (Nat.lt_succ_self 1)
  | takeTicket => cases h; exact .on (Nat.lt_succ_self 3)
  | loadMode c => cases h; exact .wait rfl rfl rfl rfl rfl fun _ => by simp [left]
  | loadReaders c mode =>
    simp only [access] at h
    split at h
    · rename_i hz
      cases h
      refine .wait rfl rfl rfl rfl ?_ fun _ => ?_
      · rw [hz.2, stale, if_pos hz.1]
      · simp only [left]
        split <;> omega
    · rename_i hz
      cases h
      refine .wait rfl rfl rfl rfl rfl fun hh => ?_
      simp only [left]
      by_cases hmode : mode = l.mode_
      · -- a writer that saw `kRead` would have found no reader
        have hne : ¬ (c ≠ .reader ∧ mode = .kRead) := by
          rintro ⟨hc, hread⟩
          exact hz ⟨hh.noReader rfl hc (hmode ▸ hread), hread⟩
        rw [if_pos ⟨hmode, hne⟩, if_pos hmode]
        omega
      · rw [if_neg fun hf => hmode hf.1, if_neg hmode]
        omega
  | loadWriters c mode =>
    simp only [access] at h
    split at h
    · rename_i hz
      cases h
      obtain ⟨hz, rfl⟩ := hz
      refine .wait rfl rfl rfl rfl ?_ fun _ => ?_
      · rw [stale, if_pos hz]
      · simp only [left, reduceCtorEq, and_false, not_false_eq_true, and_true]
        split <;> omega
    · rename_i hz
      cases h
      refine progress_afterUpdate rfl rfl rfl fun hh => ?_
      rw [left]
      by_cases hfresh : mode = l.mode_ ∧ ¬ (c ≠ .reader ∧ mode = .kRead)
      · rw [if_pos hfresh]
        obtain ⟨rfl, hne⟩ := hfresh
        refine Nat.lt_of_le_of_lt (left_afterUpdate_fresh ?_ fun hc hread => hne ⟨hc, hread⟩)
          (by decide : 1 < 4)
        rintro rfl hwrite
        exact hz ⟨hh.reader rfl rfl hwrite, hwrite⟩
      · rw [if_neg hfresh]
        exact Nat.lt_of_le_of_lt (left_afterUpdate l.mode_ c mode) (by decide : 8 < 10)
  | casNone c mode => exact progress_casNone hr hw rfl h
  | casRead =>
    simp only [access, compareExchangeWeak, and_true] at h
    split at h
    · cases h; exact .on (Nat.lt_succ_self 1)
    · rename_i hne
      cases h
      refine .wait rfl rfl rfl rfl rfl fun _ => ?_
      rw [left, if_neg hne]
      exact (by decide : 6 < 8)
  | casWrite tkt =>
    simp only [access, compareExchangeWeak, and_true] at h
    split at h
    · rename_i heq
      cases h
      refine .mode rfl ⟨_, rfl⟩ rfl rfl ?_
      simp only [modeRank, heq, if_neg (hw trivial)]
      omega
    · rename_i hne
      cases h
      refine .wait rfl rfl rfl rfl rfl fun _ => ?_
      simp only [left]
      rw [if_neg hne]
      split <;> omega
  | reloadMode tkt =>
    simp only [access] at h
    split at h
    · rename_i heq
      cases h
      refine .wait rfl rfl rfl rfl rfl fun _ => ?_
      simp only [left, if_pos heq]
      omega
    · rename_i hne
      cases h
      refine .wait rfl rfl rfl rfl rfl fun _ => ?_
      simp only [left, if_neg hne]
      omega
  | loadCurWriter tkt =>
    simp only [access] at h
    split at h
    · cases h; exact .on (Nat.lt_succ_self 2)
    · rename_i hne
      cases h
      refine .wait rfl rfl rfl rfl rfl fun hh => ?_
      simp only [left]
      rw [if_neg fun hmode => hne (hh.turn rfl tkt rfl hmode).symm]
      omega

end

theorem Pc.isReader_or_isWriter (h : p.waits) : p.isReader ∨ p.isWriter := by
  cases p with
  | idle | reading | takeTicket | writing _ | passOn _ => cases h
  | loadMode c | loadReaders c _ | loadWriters c _ | casNone c _ => exact em (c = .reader)
  | casRead => exact .inl trivial
  | casWrite _ | reloadMode _ | loadCurWriter _ => exact .inr trivial

theorem Pc.ticket_not_isReader {tkt : Nat} (h : p.ticket = some tkt) : ¬ p.isReader := by
  cases p with
  | loadMode c | loadReaders c _ | loadWriters c _ | casNone c _ =>
    rintro rfl
    cases h
  | idle | casRead | reading | takeTicket => cases h
  | casWrite _ | reloadMode _ | loadCurWriter _ | writing _ | passOn _ => exact id

theorem Pc.isWriter_ticket (h : p.waits) (hw : p.isWriter) : p.ticket.isSome := by
  cases p with
  | idle | reading | takeTicket | writing _ | passOn _ => cases h
  | loadMode c | loadReaders c _ | loadWriters c _ | casNone c _ =>
    cases c with
    | reader => exact absurd rfl hw
    | writer tkt => rfl
  | casRead => exact hw.elim
  | casWrite _ | reloadMode _ | loadCurWriter _ => rfl

/-- A helper that waits goes on helping. -/
theorem Helper.access (hh : Helper l p) (hp : p.waits) (h : access l false p = some (l, p')) :
    Helper l p' := by
  rcases access_moves h with ⟨rfl, -⟩ | ⟨rfl, -⟩ | ⟨tkt, rfl, -⟩ | ⟨tkt, rfl, -⟩ |
    ⟨-, hread, hwrite, htkt, -, -⟩
  · cases hp
  · cases hp
  · cases hp
  · cases hp
  · refine ⟨?_, fun _ hr => hh.reader hp (hread.mp hr), fun _ hw => hh.noReader hp (hwrite.mp hw),
      fun _ tkt ht => hh.turn hp tkt (htkt ▸ ht)⟩
    rintro rfl
    rcases Pc.isReader_or_isWriter hp with hr | hw
    · exact hread.mpr hr
    · exact hwrite.mpr hw

omit [DecidableEq ι] in
/-- While somebody is inside, somebody is a helper. -/
theorem Ready.helper {s : State ι} (h : Ready calls s) (hlt : calls ≤ regUint)
    (hi : s.pc i ≠ .idle) : ∃ j, Helper s.shared (s.pc j) := by
  by_cases hall : ∃ j, s.pc j ≠ .idle ∧ ¬ (s.pc j).waits
  · obtain ⟨j, hj, hwaits⟩ := hall
    exact ⟨j, hj, fun hf => absurd hf hwaits, fun hf => absurd hf hwaits,
      fun hf => absurd hf hwaits⟩
  have hwaits : ∀ j, s.pc j ≠ .idle → (s.pc j).waits := by
    intro j hj
    by_contra hf
    exact hall ⟨j, hj, hf⟩
  cases hmode : s.shared.mode_ with
  | kNone => exact ⟨i, hi, fun _ _ => by rw [hmode]; nofun, fun _ _ => by rw [hmode]; nofun,
      fun _ _ _ => by rw [hmode]; nofun⟩
  | kRead =>
    by_cases hzero : s.shared.readers_ = 0
    · exact ⟨i, hi, fun _ _ => by rw [hmode]; nofun, fun _ _ _ => hzero,
        fun _ _ _ => by rw [hmode]; nofun⟩
    · obtain ⟨j, hj⟩ := h.readers.exists_of_ne_zero hzero
      have hin : s.pc j ≠ .idle := by
        intro hidle
        rw [hidle] at hj
        exact hj
      refine ⟨j, hin, fun _ _ => by rw [hmode]; nofun, fun hw hwrite => ?_,
        fun _ _ _ => by rw [hmode]; nofun⟩
      obtain ⟨tkt, htkt⟩ := Option.isSome_iff_exists.mp (Pc.isWriter_ticket hw hwrite)
      exact absurd hj (Pc.ticket_not_isReader htkt)
  | kWrite =>
    by_cases hzero : s.shared.writers_ = 0
    · refine ⟨i, hi, fun _ _ _ => hzero, fun _ _ => by rw [hmode]; nofun, fun hw tkt htkt => ?_⟩
      rcases Pc.isReader_or_isWriter hw with hread | hwrite
      · exact absurd hread (Pc.ticket_not_isReader htkt)
      · exact absurd hzero (Nat.pos_iff_ne_zero.mp (h.writers.pos hwrite))
    · -- the first in line
      obtain ⟨j, hj⟩ := h.writers.exists_of_ne_zero hzero
      have hin : s.pc j ≠ .idle := by
        intro hidle
        rw [hidle] at hj
        exact hj
      obtain ⟨c, q, hline⟩ := h.line
      have hmem := (hline.mem j).mpr (Pc.isWriter_ticket (hwaits j hin) hj)
      obtain ⟨k, q, rfl⟩ := List.exists_cons_of_ne_nil (List.ne_nil_of_mem hmem)
      have htkt := hline.ticket 0 k rfl
      have hcur : s.shared.cur_writer_ = c := by
        have hle := hline.length_le
        rw [List.length_cons] at hle
        exact hline.cur_writer_.trans (Nat.mod_eq_of_lt (by omega))
      refine ⟨k, fun hidle => ?_, fun _ hread => absurd hread (Pc.ticket_not_isReader htkt),
        fun _ _ => by rw [hmode]; nofun, fun _ tkt ht _ => ?_⟩
      · rw [hidle] at htkt
        cases htkt
      · rw [hcur]
        exact Option.some.inj (ht.symm.trans htkt)

/-! ## Fair behaviors -/

/-- No thread calls the lock, and no compare-exchange fails for no reason. -/
def Draining (_ : State ι) (la : ι × Act) : Prop := la.2 = .access false

/-- The steps of thread `i`. -/
def Mine (i : ι) (la : ι × Act) : Prop := la.1 = i

/-- Thread `i` is in a call, or holds the lock and is to release it. -/
def Inside (i : ι) (s : State ι) : Prop := s.pc i ≠ .idle

/-- What the threads have to do; then the resets under way; then `mode_`. -/
def rank [Fintype ι] (s : State ι) : Nat ×ₗ Nat ×ₗ Nat :=
  toLex (total Pc.stage s.pc, toLex (total (stale s.shared) s.pc, modeRank s.shared))

omit [DecidableEq ι] in
theorem rank_lt [Fintype ι] {s t : State ι} (h : total Pc.stage t.pc < total Pc.stage s.pc ∨
    (total Pc.stage t.pc = total Pc.stage s.pc ∧
      (total (stale t.shared) t.pc < total (stale s.shared) s.pc ∨
        (total (stale t.shared) t.pc = total (stale s.shared) s.pc ∧
          modeRank t.shared < modeRank s.shared)))) : rank t < rank s := by
  rw [rank, rank, Prod.Lex.toLex_lt_toLex]
  refine h.imp_right (And.imp_right fun h => ?_)
  rwa [Prod.Lex.toLex_lt_toLex]

/-- A step leaves less to do, or the lock is as it was and helpers come nearer. -/
theorem Ready.descends [Fintype ι] {s t : State ι} {la : ι × Act} (h : Ready calls s)
    (hlt : calls ≤ regUint) (hd : Draining s la) (hs : step s la = some t) :
    Ready calls t ∧ (rank t < rank s ∨ (rank t = rank s ∧ t.shared = s.shared ∧
      ∀ j, Helper s.shared (s.pc j) → Helper t.shared (t.pc j) ∧
        left t.shared.mode_ (t.pc j) ≤ left s.shared.mode_ (s.pc j) ∧
        (Mine j la → left t.shared.mode_ (t.pc j) < left s.shared.mode_ (s.pc j)))) := by
  obtain ⟨i, a⟩ := la
  obtain rfl : a = .access false := hd
  obtain ⟨l', p', he, rfl⟩ := Pool.step_cases hs
  obtain ⟨sp, hsp, hacc⟩ : ∃ sp, Act.access false = .access sp ∧
      access s.shared sp (s.pc i) = some (l', p') := by
    rcases act_cases he with ⟨-, hf, -⟩ | ⟨-, hf, -⟩ | hacc
    · cases hf
    · cases hf
    · exact hacc
  cases hsp
  refine ⟨h.keeps hlt hacc, ?_⟩
  have hr : (s.pc i).isReader → s.shared.readers_ ≠ 0 := fun hi => (h.readers.pos hi).ne'
  have hw : (s.pc i).isWriter → s.shared.writers_ ≠ 0 := fun hi => (h.writers.pos hi).ne'
  have hstage := total_update Pc.stage s.pc i p'
  have hstale := total_update (stale s.shared) s.pc i p'
  cases access_progress hr hw hacc with
  | on hless => exact .inl (rank_lt (.inl (by dsimp only; omega)))
  | reset heq hl hold hnew =>
    obtain ⟨mode, rfl⟩ := hl
    exact .inl (rank_lt (.inr ⟨by dsimp only; omega,
      .inl (by change total (stale s.shared) _ < _; dsimp only; omega)⟩))
  | mode heq hl hold hnew hrank =>
    obtain ⟨mode, rfl⟩ := hl
    exact .inl (rank_lt (.inr ⟨by dsimp only; omega,
      .inr ⟨by change total (stale s.shared) _ = _; dsimp only; omega, hrank⟩⟩))
  | wait hl hwaits heq hold hnew hleft =>
    subst hl
    refine .inr ⟨?_, rfl, fun j hj => ?_⟩
    · rw [rank, rank]
      dsimp only
      rw [show total Pc.stage (Function.update s.pc i p') = total Pc.stage s.pc by omega,
        show total (stale s.shared) (Function.update s.pc i p') = total (stale s.shared) s.pc by
          omega]
    · obtain rfl | hne := eq_or_ne j i
      · simp only [Function.update_self]
        exact ⟨hj.access hwaits hacc, (hleft hj).le, fun _ => hleft hj⟩
      · simp only [Function.update_of_ne hne]
        exact ⟨hj, le_refl _, fun hmine => absurd hmine (Ne.symm hne)⟩

/-- **The lock empties.** `ls` is any run of at most `2 ^ 32` calls of `WriteLock` by fewer than
`2 ^ 32` threads, its compare-exchanges failing as they like. If from there on the lock is not
called any more, and every thread inside goes on at some time, then at some time no thread is
inside. -/
theorem rests_of_fair [Fintype ι] (hcard : Fintype.card ι < regUint) {ls : List (ι × Act)}
    {s : State ι} (hrun : Run step Unrestricted (init ι) ls s) (hcalls : writeCalls ls ≤ regUint)
    (ρ : Behavior step Draining s) (hfair : ∀ i, ρ.Fair (Mine i) (Inside i)) (n : Nat) :
    ρ.Eventually n Rest := by
  have hready : ∀ n, Ready (writeCalls ls) (ρ.state n) :=
    ρ.invariant (run_ready hcard hrun hcalls) fun _ _ _ h hd hs => (h.descends hcalls hd hs).1
  refine Behavior.descend (P := fun _ => True) rank (fun m _ => ?_) trivial
  by_cases hrest : Rest (ρ.state m)
  · exact .now (.inl hrest)
  obtain ⟨i, hi⟩ := not_forall.mp hrest
  obtain ⟨j, hj⟩ := (hready m).helper hcalls hi
  refine Behavior.helped (P := fun t => Ready (writeCalls ls) t ∧ rank t = rank (ρ.state m) ∧
    Helper t.shared (t.pc j)) (fun t => left t.shared.mode_ (t.pc j)) (hfair j)
    (fun _ ht => ht.2.2.inside) ?_ ⟨hready m, rfl, hj⟩
  intro t la u ⟨ht, hrank, hhelp⟩ hd hs
  obtain ⟨hu, hlt | ⟨heq, -, hleft⟩⟩ := ht.descends hcalls hd hs
  · exact .inl (.inr ⟨trivial, hrank ▸ hlt⟩)
  · obtain ⟨hhelp', hle, hmine⟩ := hleft j hhelp
    exact .inr ⟨⟨hu, heq.trans hrank, hhelp'⟩, hle, hmine⟩

instance (s : State ι) : ∀ la, Decidable (Draining s la)
  | (_, .access false) => isTrue rfl
  | (_, .access true) | (_, .readLock) | (_, .writeLock) => isFalse nofun

/-- A writer and a reader call at the same time. -/
def bothCall : List (Fin 2 × Act) :=
  [(⟨0, Nat.zero_lt_two⟩, .writeLock), (⟨1, Nat.one_lt_two⟩, .readLock)]

/-- The writer is first. -/
def bothLeave : List (Fin 2 × Act) :=
  List.replicate 9 (⟨0, Nat.zero_lt_two⟩, .access false) ++
    List.replicate 9 (⟨1, Nat.one_lt_two⟩, .access false)

theorem rests_of_fair_bothLeave : ∃ (s : State (Fin 2)) (ρ : Behavior step Draining s),
    s.pc 0 = .takeTicket ∧ s.pc 1 = .loadMode .reader ∧ ρ.Eventually 0 Rest := by
  have hex : (exec step (init (Fin 2)) bothCall).bind (fun s =>
      (execOk step Draining s bothLeave).map fun t => (s.pc 0, s.pc 1, t.pc 0, t.pc 1)) =
        some (.takeTicket, .loadMode .reader, .idle, .idle) := by
    decide +kernel
  obtain ⟨s, hs, ht⟩ := Option.bind_eq_some_iff.mp hex
  obtain ⟨t, ht, he⟩ := Option.map_eq_some_iff.mp ht
  simp only [Prod.mk.injEq] at he
  obtain ⟨h0, h1, hidle⟩ := he
  obtain ⟨ρ, -, hstate⟩ := (run_of_execOk ht).halts
  refine ⟨s, ρ, h0, h1, rests_of_fair (by decide) (run_iff_exec.mpr hs) (by decide) ρ ?_ 0⟩
  have hrest : ∀ i, t.pc i = .idle := Fin.forall_fin_two.mpr hidle
  intro i n
  refine ⟨max n bothLeave.length, le_max_left .., fun hin => absurd ?_ hin⟩
  rw [hstate _ (le_max_right ..)]
  exact hrest i

end HermesShm.Thread.RwLock
