import HermesShm.Memory.PageAllocatorThreads

/-! # When freeing into another thread's page allocator is safe

Every list keeps its own invariant: a step on one list writes links of pages of
that list only, because a page's size decides where it goes. The lock-free lists
need nothing more. Of the list of large pages the accesses must be current;
where two overlap, one of them may be lost. -/
namespace HermesShm.Memory.PageAllocatorThreads
open HermesShm.Base HermesShm.Ipc
open Lifo (live)

variable {ι ν : Type*} {d i : ι} {size : ν → Nat}

/-! ## Projections of a program point -/

section
variable {p : MpscLifoListQueue.Pc ν} {q : LifoListQueue.Pc ν} {k k' : Nat}

@[simp] theorem Pc.onCls_ofCls : (Pc.ofCls k p).onCls k = p := by
  cases p <;> simp [ofCls, onCls]

theorem Pc.onCls_ofCls_ne (h : k ≠ k') : (Pc.ofCls k p).onCls k' = .idle := by
  cases p <;> simp [ofCls, onCls, h]

@[simp] theorem Pc.onFallback_ofCls : (Pc.ofCls k p).onFallback = .idle := by
  cases p <;> rfl

@[simp] theorem Pc.onFallback_ofFallback : (Pc.ofFallback q).onFallback = q := by
  cases q <;> rfl

@[simp] theorem Pc.onCls_ofFallback : (Pc.ofFallback q).onCls k = .idle := by
  cases q <;> rfl

theorem Pc.entry_of_onCls {p : Pc ν} {n : ν} (h : (p.onCls k).entry = some n) :
    p.entry = some n := by
  cases p with
  | idle => cases h
  | cls j p =>
    simp only [onCls] at h
    split at h
    · exact h
    · cases h
  | fallback p => cases h

theorem Pc.entry_of_onFallback {p : Pc ν} {n : ν} (h : p.onFallback.entry = some n) :
    p.entry = some n := by
  cases p with
  | idle => cases h
  | cls j p => cases h
  | fallback p => exact h

end

/-- A projection of the threads, after one has moved. -/
theorem proj_update [DecidableEq ι] {β : Type*} (f : Pc ν → β) (pc : ι → Pc ν) (i : ι) (p : Pc ν) :
    (fun j => f (Function.update pc i p j)) = Function.update (fun j => f (pc j)) i (f p) :=
  Function.comp_update f pc i p

theorem proj_same [DecidableEq ι] {β : Type*} {f : Pc ν → β} {pc : ι → Pc ν} {i : ι} {p : Pc ν}
    (h : f p = f (pc i)) : (fun j => f (Function.update pc i p j)) = fun j => f (pc j) := by
  rw [proj_update, h]
  exact Function.update_eq_self i fun j => f (pc j)

/-- The page a thread is freeing into a slot. -/
def Pc.entryOn (p : Pc ν) : Slot → Option ν
  | .cls k => (p.onCls k).entry
  | .fallback => p.onFallback.entry

section
variable {p p' : MpscLifoListQueue.Pc ν} {q q' : LifoListQueue.Pc ν} {k : Nat} {sl : Slot}

theorem Pc.entryOn_ofCls_ne (h : sl ≠ .cls k) : (Pc.ofCls k p).entryOn sl = none := by
  cases sl with
  | cls k' => rw [entryOn, onCls_ofCls_ne fun he => h (congrArg Slot.cls he.symm)]; rfl
  | fallback => rw [entryOn, onFallback_ofCls]; rfl

theorem Pc.entryOn_ofFallback_ne (h : sl ≠ .fallback) : (Pc.ofFallback q).entryOn sl = none := by
  cases sl with
  | cls k => rw [entryOn, onCls_ofFallback]; rfl
  | fallback => exact absurd rfl h

theorem event_ofCls_ne (h : sl ≠ .cls k) : event (.ofCls k p) (.ofCls k p') sl = none := by
  cases sl with
  | cls k' =>
    have hk : k ≠ k' := fun he => h (congrArg Slot.cls he.symm)
    rw [event, Pc.onCls_ofCls_ne hk, Pc.onCls_ofCls_ne hk]
    rfl
  | fallback => rw [event, Pc.onFallback_ofCls, Pc.onFallback_ofCls]; rfl

theorem event_ofFallback_ne (h : sl ≠ .fallback) :
    event (.ofFallback q) (.ofFallback q') sl = none := by
  cases sl with
  | cls k => rw [event, Pc.onCls_ofFallback, Pc.onCls_ofFallback]; rfl
  | fallback => exact absurd rfl h

end

variable [DecidableEq ν] {s t : State ι ν} {m : Shared ν} {p : Pc ν}

/-! ## The invariant -/

structure Inv (d : ι) (size : ν → Nat) (s : State ι ν) : Prop where
  cls : ∀ k, MpscLifoListQueue.Inv d (s.pool.shared.cls k) (fun j => (s.pool.pc j).onCls k)
    (s.events (.cls k))
  fallback : LifoListQueue.Inv d s.pool.shared.fallback (fun j => (s.pool.pc j).onFallback)
    (s.events .fallback)
  home : ∀ sl n, .push n ∈ s.events sl → (PageId.ofSize (size n)).slot = sl
  entry : ∀ j sl n, (s.pool.pc j).entryOn sl = some n → (PageId.ofSize (size n)).slot = sl

theorem Inv.home_live {sl : Slot} {n : ν} (h : Inv d size s) (hn : n ∈ live (s.events sl)) :
    (PageId.ofSize (size n)).slot = sl :=
  h.home sl n (Lifo.push_mem hn)

theorem init_inv (d : ι) (size : ν → Nat) (next : ν → Option ν) : Inv d size (init ι next) where
  cls _ := (MpscLifoListQueue.init_inv d next).list
  fallback := LifoListQueue.init_inv d next
  home _ _ h := by cases h
  entry _ sl _ h := by cases sl <;> cases h

theorem chain_kept {pos : Option ν} {es : List (Lifo.Event ν)} {n : ν}
    (hchain : m.Pages pos (live es)) (hpops : Lifo.PopsLive es)
    (hn : es.count (.pop n) < es.count (.push n)) : ∃ ps, m.Pages pos ps ∧ n ∈ ps := by
  refine ⟨live es, hchain, List.count_pos_iff.mp ?_⟩
  have := hpops.count n
  omega

theorem Inv.popsLive (h : Inv d size s) : ∀ sl, Lifo.PopsLive (s.events sl)
  | .cls k => (h.cls k).newest.popsLive
  | .fallback => h.fallback.popsLive

theorem Inv.pages (h : Inv d size s) :
    ∀ sl, s.pool.shared.Pages (s.pool.shared.tail sl) (live (s.events sl))
  | .cls k => (h.cls k).chain
  | .fallback => h.fallback.chain

theorem Inv.iterates (h : Inv d size s) (hquiet : ∀ i, (s.pool.pc i).onFallback = .idle) :
    ∃ ps, s.pool.shared.Pages s.pool.shared.begin_ ps ∧
      ps.length = s.pool.shared.fallback_list_.length_ := by
  obtain ⟨linked, unlinked, hl, hu, hlength⟩ := h.fallback.length
  obtain rfl : linked = 0 := hl.eq_zero fun j => by simp [hquiet j, LifoListQueue.Pc.Linked]
  obtain rfl : unlinked = 0 := hu.eq_zero fun j => by simp [hquiet j, LifoListQueue.Pc.Unlinked]
  have hlen : s.pool.shared.fallback_list_.length_ = (live (s.events .fallback)).length := by
    have : s.pool.shared.fallback.queue.length_ = s.pool.shared.fallback_list_.length_ := rfl
    omega
  refine ⟨live (s.events .fallback), ?_, hlen.symm⟩
  unfold Shared.begin_
  split
  · rename_i h0
    rw [hlen, Int.natCast_eq_zero, List.length_eq_zero_iff] at h0
    rw [h0]
    rfl
  · exact h.fallback.chain

theorem Inv.sound (h : Inv d size s) : Sound size s where
  home := h.home
  once sl n := by
    have := (h.popsLive sl).count n
    omega
  kept sl _ hn := chain_kept (h.pages sl) (h.popsLive sl) hn
  iterates := h.iterates

/-! ## One step keeps it -/

variable [DecidableEq ι]

/-- A step that stays away from a class. -/
theorem Inv.keep_cls {k : Nat} (h : Inv d size s) (hp : p.onCls k = (s.pool.pc i).onCls k)
    (hq : m.free_lists_ k = s.pool.shared.free_lists_ k)
    (hnext : ∀ n, (PageId.ofSize (size n)).slot = .cls k →
      m.next_shm_ n = s.pool.shared.next_shm_ n) :
    MpscLifoListQueue.Inv d (m.cls k) (fun j => (Function.update s.pool.pc i p j).onCls k)
      (s.events (.cls k)) := by
  rw [proj_same (f := Pc.onCls k) hp]
  refine (h.cls k).frame hq (fun n hn => hnext n (h.home_live hn)) fun j n hn => ?_
  exact hnext n (h.entry j (.cls k) n hn)

/-- A step that stays away from the large pages. -/
theorem Inv.keep_fallback (h : Inv d size s) (hp : p.onFallback = (s.pool.pc i).onFallback)
    (hq : m.fallback_list_ = s.pool.shared.fallback_list_)
    (hnext : ∀ n, (PageId.ofSize (size n)).slot = .fallback →
      m.next_shm_ n = s.pool.shared.next_shm_ n) :
    LifoListQueue.Inv d m.fallback (fun j => (Function.update s.pool.pc i p j).onFallback)
      (s.events .fallback) := by
  rw [proj_same (f := Pc.onFallback) hp]
  exact h.fallback.frame hq fun n hn => hnext n (h.home_live hn)

/-- The pages that a step brings are of the slot it works on. -/
theorem Inv.homes (h : Inv d size s) (sl : Slot)
    (hpush : ∀ n, event (s.pool.pc i) p sl = some (.push n) → (s.pool.pc i).entryOn sl = some n)
    (hnone : ∀ sl', sl' ≠ sl → event (s.pool.pc i) p sl' = none)
    (hentry : ∀ n, p.entryOn sl = some n → (PageId.ofSize (size n)).slot = sl)
    (hout : ∀ sl', sl' ≠ sl → p.entryOn sl' = none) :
    (∀ sl' n, .push n ∈ s.events sl' ++ (event (s.pool.pc i) p sl').toList →
      (PageId.ofSize (size n)).slot = sl') ∧
    ∀ j sl' n, (Function.update s.pool.pc i p j).entryOn sl' = some n →
      (PageId.ofSize (size n)).slot = sl' := by
  refine ⟨?_, ?_⟩
  · intro sl' n hn
    rw [List.mem_append, Option.mem_toList] at hn
    obtain hn | hn := hn
    · exact h.home sl' n hn
    · obtain rfl | hne := eq_or_ne sl' sl
      · exact h.entry i sl' n (hpush n hn)
      · rw [hnone sl' hne] at hn
        cases hn
  · intro j sl' n hn
    obtain rfl | hj := eq_or_ne j i
    · rw [Function.update_self] at hn
      obtain rfl | hne := eq_or_ne sl' sl
      · exact hentry n hn
      · rw [hout sl' hne] at hn
        cases hn
    · rw [Function.update_of_ne hj] at hn
      exact h.entry j sl' n hn

theorem actCls_inv {k : Nat} {a : MpscLifoListQueue.Act ν} {q : MpscLifoListQueue.Pc ν}
    (h : Inv d size s) (hi : s.pool.pc i = .ofCls k q)
    (hb : MpscLifoListQueue.Begins d (fun j => (s.pool.pc j).onCls k) (s.events (.cls k)) i a)
    (hhome : ∀ n, a = .enqueue n → (PageId.ofSize (size n)).slot = .cls k)
    (ha : actCls s.pool.shared k q a = some (m, p)) :
    Inv d size
      { pool := ⟨m, Function.update s.pool.pc i p⟩
        events := fun sl => s.events sl ++ (event (s.pool.pc i) p sl).toList } := by
  obtain ⟨⟨u, q'⟩, hact, hr⟩ := Option.map_eq_some_iff.mp ha
  cases hr
  have hon : (s.pool.pc i).onCls k = q := by rw [hi, Pc.onCls_ofCls]
  have hoff : ∀ k', k' ≠ k → (s.pool.pc i).onCls k' = .idle := fun k' hk => by
    rw [hi, Pc.onCls_ofCls_ne (Ne.symm hk)]
  have hfb : (s.pool.pc i).onFallback = .idle := by rw [hi, Pc.onFallback_ofCls]
  have hact' : MpscLifoListQueue.act (s.pool.shared.cls k) ((s.pool.pc i).onCls k) a =
      some (u, q') := by rw [hon]; exact hact
  have hnone : ∀ sl, sl ≠ .cls k → event (s.pool.pc i) (.ofCls k q') sl = none := by
    rw [hi]
    exact fun sl => event_ofCls_ne
  -- the links written are those of the thread's own page
  have hnext : ∀ n, (PageId.ofSize (size n)).slot ≠ .cls k →
      u.next_shm_ n = s.pool.shared.next_shm_ n := by
    intro n hn
    refine MpscLifoListQueue.act_next hact' ?_
    intro he
    exact hn (h.entry i (.cls k) n he)
  obtain ⟨hhomes, hentry⟩ := h.homes (i := i) (p := .ofCls k q') (.cls k)
    (fun n he => by
      rw [event, Pc.onCls_ofCls] at he
      exact MpscLifoListQueue.event_push he)
    hnone
    (fun n he => by
      rw [Pc.entryOn, Pc.onCls_ofCls] at he
      obtain he | he := MpscLifoListQueue.act_entry hact' he
      · exact h.entry i (.cls k) n he
      · exact hhome n he)
    (fun sl => Pc.entryOn_ofCls_ne)
  refine ⟨?_, ?_, hhomes, hentry⟩
  · intro k'
    obtain rfl | hk := eq_or_ne k' k
    · have hinv := MpscLifoListQueue.act_inv (h.cls k') hb hact'
      simp only [proj_update (Pc.onCls k'), event, Pc.onCls_ofCls]
      simp only [Shared.cls, Shared.setCls, Function.update_self]
      exact hinv
    · simp only [hnone (.cls k') (fun he => hk (Slot.cls.inj he)), Option.toList_none,
        List.append_nil]
      refine h.keep_cls ?_ ?_ ?_
      · rw [hoff k' hk, Pc.onCls_ofCls_ne (Ne.symm hk)]
      · exact Function.update_of_ne hk ..
      · intro n hn
        exact hnext n (by rw [hn]; exact fun he => hk (Slot.cls.inj he))
  · simp only [hnone .fallback nofun, Option.toList_none, List.append_nil]
    refine h.keep_fallback ?_ rfl ?_
    · rw [hfb, Pc.onFallback_ofCls]
    · intro n hn
      exact hnext n (by rw [hn]; nofun)

theorem actFallback_inv {a : LifoListQueue.Act ν} {q : LifoListQueue.Pc ν}
    (h : Inv d size s) (hi : s.pool.pc i = .ofFallback q)
    (hb : LifoListQueue.Begins d (fun j => (s.pool.pc j).onFallback) (s.events .fallback) i a)
    (hhome : ∀ n, a = .enqueue n → (PageId.ofSize (size n)).slot = .fallback)
    (hc : LifoListQueue.Current s.pool.shared.fallback q)
    (ha : actFallback size s.pool.shared q a = some (m, p)) :
    Inv d size
      { pool := ⟨m, Function.update s.pool.pc i p⟩
        events := fun sl => s.events sl ++ (event (s.pool.pc i) p sl).toList } := by
  obtain ⟨⟨u, q'⟩, hact, hr⟩ := Option.map_eq_some_iff.mp ha
  cases hr
  have hon : (s.pool.pc i).onFallback = q := by rw [hi, Pc.onFallback_ofFallback]
  have hoff : ∀ k, (s.pool.pc i).onCls k = .idle := fun k => by rw [hi, Pc.onCls_ofFallback]
  have hact' : LifoListQueue.act size s.pool.shared.fallback (s.pool.pc i).onFallback a =
      some (u, q') := by rw [hon]; exact hact
  have hnone : ∀ sl, sl ≠ .fallback → event (s.pool.pc i) (.ofFallback q') sl = none := by
    rw [hi]
    exact fun sl => event_ofFallback_ne
  -- the links written are those of large pages
  have hnext : ∀ n, (PageId.ofSize (size n)).slot ≠ .fallback →
      u.next_shm_ n = s.pool.shared.next_shm_ n := by
    intro n hn
    refine LifoListQueue.act_next hact' (fun he => hn (h.entry i .fallback n he)) ?_
    intro page next he
    have hok := h.fallback.roles.ok i
    rw [he] at hok
    exact hn (h.home_live hok.2.2.1)
  obtain ⟨hhomes, hentry⟩ := h.homes (i := i) (p := .ofFallback q') .fallback
    (fun n he => by
      rw [event, Pc.onFallback_ofFallback] at he
      exact LifoListQueue.event_push he)
    hnone
    (fun n he => by
      rw [Pc.entryOn, Pc.onFallback_ofFallback] at he
      obtain he | he := LifoListQueue.act_entry hact' he
      · exact h.entry i .fallback n he
      · exact hhome n he)
    (fun sl => Pc.entryOn_ofFallback_ne)
  refine ⟨?_, ?_, hhomes, hentry⟩
  · intro k
    simp only [hnone (.cls k) (by simp), Option.toList_none, List.append_nil]
    refine h.keep_cls ?_ rfl ?_
    · rw [hoff k, Pc.onCls_ofFallback]
    · intro n hn
      exact hnext n (by simp [hn])
  · have hinv := LifoListQueue.act_inv h.fallback hb (hon ▸ hc) hact'
    simp only [proj_update Pc.onFallback, event, Pc.onFallback_ofFallback]
    exact hinv

theorem act_inv {a : Act ν} (h : Inv d size s) (hg : Guarded size d s (i, a))
    (ha : act size s.pool.shared (s.pool.pc i) a = some (m, p)) :
    Inv d size
      { pool := ⟨m, Function.update s.pool.pc i p⟩
        events := fun sl => s.events sl ++ (event (s.pool.pc i) p sl).toList } := by
  obtain ⟨hallowed, hc⟩ := hg
  unfold act at ha
  split at ha
  · rename_i page hi
    obtain ⟨hfresh, hentry⟩ := hallowed
    split at ha
    · rename_i k hslot
      rw [hslot] at hfresh
      refine actCls_inv (k := k) (q := .idle) (a := .enqueue page) h hi ⟨hfresh, ?_⟩ ?_ ha
      · intro j he
        exact hentry j (Pc.entry_of_onCls he)
      · rintro n ⟨⟩
        exact hslot
    · rename_i hslot
      rw [hslot] at hfresh
      refine actFallback_inv (q := .idle) (a := .enqueue page) h hi ⟨hfresh, ?_⟩ ?_ trivial ha
      · intro j he
        exact hentry j (Pc.entry_of_onFallback he)
      · rintro n ⟨⟩
        exact hslot
  · rename_i page_id hi
    split at ha
    · rename_i k _
      exact actCls_inv (k := k) (q := .idle) (a := .dequeue) h hi hallowed nofun ha
    · exact actFallback_inv (q := .idle) (a := .allocate page_id.round_) h hi hallowed nofun
        trivial ha
  · rename_i k q spurious hi
    have hq : s.pool.pc i = .ofCls k q := by
      cases q with
      | idle => cases ha
      | _ => exact hi
    exact actCls_inv (a := .access spurious) h hq trivial nofun ha
  · rename_i q spurious hi
    have hq : s.pool.pc i = .ofFallback q := by
      cases q with
      | idle => cases ha
      | _ => exact hi
    simp only [hi, Pc.onFallback] at hc
    exact actFallback_inv (a := .access) h hq trivial nofun hc ha
  · cases ha

theorem step_inv {l : ι × Act ν} (h : Inv d size s) (hg : Guarded size d s l)
    (hs : step size s l = some t) : Inv d size t := by
  obtain ⟨i, a⟩ := l
  obtain ⟨u, hu, rfl⟩ := Option.map_eq_some_iff.mp hs
  obtain ⟨m, p, hact, rfl⟩ := Pool.step_cases hu
  have hinv := act_inv h hg hact
  simp only [Function.update_self]
  exact hinv

/-- **Cross-thread free.** In every run in which each access to the list of large
pages finds what it was computed from, no page is handed out more often than it
was freed, none is lost, and the list of large pages has its length. -/
theorem current_sound {as : List (ι × Act ν)} {next : ν → Option ν}
    (hr : Run (step size) (Guarded size d) (init ι next) as s) : Sound size s :=
  (hr.invariant (init_inv d size next) fun _ _ _ h hg hs => step_inv h hg hs).sound

/-- Page 7 is of a class, the others are larger. -/
def sizes (page : Nat) : Nat := if page = 7 then 96 else if page = 5 then 2 ^ 26 else 2 ^ 25

/-- Threads 1 and 2 free pages 5 and 7 at the same time, thread 2 then frees page
6, and the owner takes them all, page 5 from behind page 6. -/
def takenInTurn : List (Fin 3 × Act Nat) :=
  let go (i : Fin 3) (n : Nat) : List (Fin 3 × Act Nat) := List.replicate n (i, .access false)
  [(1, .free 5), (2, .free 7)] ++ go 1 2 ++ go 2 3 ++ go 1 2 ++ [(2, .free 6)] ++ go 2 4 ++
    [(0, .allocate (.ofSize (2 ^ 26)))] ++ go 0 6 ++ [(0, .allocate (.ofSize (2 ^ 25)))] ++
    go 0 7 ++ [(0, .allocate (.ofSize 96))] ++ go 0 4

theorem current_sound_taken : ∃ s : State (Fin 3) Nat,
    s.events .fallback = [.push 5, .push 6, .pop 5, .pop 6] ∧
      s.events (.cls 0) = [.push 7, .pop 7] ∧ Sound sizes s := by
  have hex : (execOk (step sizes) (Guarded sizes 0) (init (Fin 3) fun _ => none) takenInTurn).map
      (fun s => (s.events .fallback, s.events (.cls 0))) =
        some ([.push 5, .push 6, .pop 5, .pop 6], [.push 7, .pop 7]) := by
    decide +kernel
  obtain ⟨s, hs, he⟩ := Option.map_eq_some_iff.mp hex
  obtain ⟨hf, hc⟩ := Prod.mk.inj he
  exact ⟨s, hf, hc, current_sound (run_of_execOk hs)⟩

/-- Threads 1 and 2 free pages 5 and 6, each having loaded the tail before the
other one stores it. -/
def overlappingFrees : List (Fin 3 × Act Nat) :=
  let go (i : Fin 3) (n : Nat) : List (Fin 3 × Act Nat) := List.replicate n (i, .access false)
  [(1, .free 5), (2, .free 6)] ++ go 1 4 ++ go 2 4

theorem overlapping_frees_lose : ∃ s,
    Run (step sizes) (Allowed sizes 0) (init (Fin 3) fun _ => none) overlappingFrees s ∧
      ¬ Sound sizes s := by
  have hex : (execOk (step sizes) (Allowed sizes 0) (init (Fin 3) fun _ => none)
      overlappingFrees).map (fun s => (s.events .fallback,
        s.pool.shared.tail .fallback, s.pool.shared.next_shm_ 6)) =
      some ([.push 5, .push 6], some 6, none) := by
    decide +kernel
  obtain ⟨s, hs, he⟩ := Option.map_eq_some_iff.mp hex
  obtain ⟨hevents, htail, hnext⟩ : s.events .fallback = [.push 5, .push 6] ∧
      s.pool.shared.tail .fallback = some 6 ∧ s.pool.shared.next_shm_ 6 = none := by
    simpa using he
  refine ⟨s, run_of_execOk hs, ?_⟩
  intro h
  obtain ⟨ps, hps, hmem⟩ := h.kept .fallback 5 (by rw [hevents]; decide)
  have hsix : s.pool.shared.Pages (some 6) [6] := ⟨rfl, none, congrArg some hnext, rfl⟩
  rw [htail] at hps
  rw [hps.unique hsix] at hmem
  exact absurd hmem (by decide)

end HermesShm.Memory.PageAllocatorThreads
