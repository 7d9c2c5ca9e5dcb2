import HermesShm.Memory.PageAllocator

/-! # Pages in use and free pages

What the page allocators of one heap (one for each `k : κ`) know of its pages.
The ranges of the pages are apart, each page is in use or in one slot, its header
has a size no larger than its range, and its flag tells whether it is in use. -/
namespace HermesShm.Memory
open HermesShm.Base MpPage

inductive Place (κ : Type)
  | live
  | free (k : κ) (sl : Slot)
  deriving DecidableEq

variable {κ : Type}

structure Pages (buf lo hi : Nat) (m : ByteMem) (pas : κ → PageAllocator) (len : Nat → Nat)
    (at_ : Place κ → List Nat) : Prop where
  arena : Arena lo hi len at_
  buf_le : buf ≤ lo
  lo_le : lo ≤ hi
  hi_lt : hi < sizeT
  lists : ∀ k sl, ((pas k).list sl).Represents buf m (at_ (.free k sl))
  size : ∀ i, ∀ p ∈ at_ i,
    ∃ sl, PageSize (page_size_.get m p) sl ∧ ∀ k sl', i = .free k sl' → sl' = sl
  size_le : ∀ i, ∀ p ∈ at_ i, page_size_.get m p ≤ len p
  live : ∀ p ∈ at_ .live, isAllocated m p = true
  free : ∀ k sl, ∀ p ∈ at_ (.free k sl), isAllocated m p = false

namespace Pages

variable {buf lo hi hi' n : Nat} {m m' m'' : ByteMem} {pas : κ → PageAllocator} {len : Nat → Nat}
  {at_ : Place κ → List Nat} {i j : Place κ} {k : κ} {p q : Nat}

theorem empty (hb : buf ≤ lo) (hl : lo ≤ hi) (hh : hi < sizeT) (m : ByteMem) (len : Nat → Nat) :
    Pages buf lo hi m (fun _ : κ => {}) len fun _ => [] where
  arena := .empty lo hi len
  buf_le := hb
  lo_le := hl
  hi_lt := hh
  lists := fun k sl => by cases sl <;> exact ListQueue.represents_empty buf m
  size := nofun
  size_le := nofun
  live := nofun
  free := nofun

theorem header_le (h : Pages buf lo hi m pas len at_) (hp : p ∈ at_ i) :
    mpPage ≤ page_size_.get m p := by
  obtain ⟨sl, hs, -⟩ := h.size i p hp
  exact hs.header_le

theorem reachable (h : Pages buf lo hi m pas len at_) (hp : p ∈ at_ i) :
    ListQueue.Reachable buf p := by
  have := h.arena.inside i p hp
  have := h.size_le i p hp
  have := h.header_le hp
  have := h.hi_lt
  have := h.buf_le
  have : mpPage = 32 := rfl
  have : nullOff = sizeT - 1 := rfl
  refine ⟨?_, ?_, ?_⟩ <;> omega

/-- Headers of two pages are apart. -/
theorem headers_apart (h : Pages buf lo hi m pas len at_) (hp : p ∈ at_ i) (hq : q ∈ at_ j)
    (hne : p ≠ q) : p + mpPage ≤ q ∨ q + mpPage ≤ p := by
  have := h.arena.apart_of_ne hp hq hne
  have := h.size_le i p hp
  have := h.size_le j q hq
  have := h.header_le hp
  have := h.header_le hq
  omega

/-- A change inside one page leaves the headers of the others. -/
theorem sameOn (h : Pages buf lo hi m pas len at_) (hp : p ∈ at_ i) (hq : q ∈ at_ j) (hne : q ≠ p)
    (hm : m.SameOff m' p (len p)) : m.SameOn m' q mpPage := by
  have := h.arena.apart_of_ne hp hq hne.symm
  have := h.size_le j q hq
  have := h.header_le hq
  exact hm.sameOn (by omega)

/-- A change of the data of a page in use. -/
theorem write (h : Pages buf lo hi m pas len at_) (hp : p ∈ at_ .live)
    (hm : m.SameOff m' (p + mpPage) (len p - mpPage)) : Pages buf lo hi m' pas len at_ := by
  have hlen := h.size_le _ p hp
  have hhdr := h.header_le hp
  have hsame : ∀ j, ∀ q ∈ at_ j, m.SameOn m' q mpPage := fun j q hq => by
    by_cases hqp : q = p
    · subst hqp
      exact hm.sameOn (.inr (Nat.le_refl _))
    · exact h.sameOn hp hq hqp (hm.mono (Nat.le_add_right ..) (by omega))
  refine { h with
    lists := fun k sl => (h.lists k sl).congr fun q hq => hsame _ q hq
    size := fun j q hq => ?_
    size_le := fun j q hq => ?_
    live := fun q hq => (isAllocated_congr (hsame _ q hq)).trans (h.live q hq)
    free := fun k sl q hq => (isAllocated_congr (hsame _ q hq)).trans (h.free k sl q hq) }
  · rw [page_size_.get_congr (hsame j q hq)]
    exact h.size j q hq
  · rw [page_size_.get_congr (hsame j q hq)]
    exact h.size_le j q hq

/-- A new page from the heap, with its header written. -/
theorem carve [DecidableEq κ] (h : Pages buf lo hi m pas len at_) (hp : hi ≤ p)
    (hlt : p + n < sizeT) (hm : m.SameOff m' p mpPage)
    (hs : ∃ sl, PageSize (page_size_.get m' p) sl) (hn : page_size_.get m' p ≤ n)
    (ha : isAllocated m' p = true) :
    Pages buf lo (p + n) m' pas (Function.update len p n)
      (Function.update at_ .live (p :: at_ .live)) := by
  obtain ⟨sl, hs⟩ := hs
  have hpos : 0 < n := Nat.lt_of_lt_of_le (by decide) (Nat.le_trans hs.header_le hn)
  have hold : ∀ j, ∀ q ∈ at_ j, q ≠ p ∧ m.SameOn m' q mpPage := fun j q hq => by
    have hin := h.arena.inside j q hq
    have hlen := h.size_le j q hq
    have hhdr := h.header_le hq
    have : mpPage = 32 := rfl
    exact ⟨by omega, hm.sameOn (.inr (by omega))⟩
  have hmem : ∀ j, ∀ q ∈ Function.update at_ .live (p :: at_ .live) j,
      (j = .live ∧ q = p) ∨ q ∈ at_ j := fun j q hq => by
    by_cases hj : j = .live
    · subst hj
      rw [Function.update_self, List.mem_cons] at hq
      exact hq.imp_left fun h => ⟨rfl, h⟩
    · rw [Function.update_of_ne hj] at hq
      exact .inr hq
  have hfree : ∀ k sl, Function.update at_ Place.live (p :: at_ .live) (.free k sl) =
      at_ (.free k sl) := fun k sl => Function.update_of_ne (by simp) ..
  refine ⟨h.arena.carve h.lo_le hp hpos hmem fun j => ?_, h.buf_le, ?_, hlt, fun k sl' => ?_,
    fun j q hq => ?_, fun j q hq => ?_, fun q hq => ?_, fun k sl' q hq => ?_⟩
  · by_cases hj : j = .live
    · subst hj
      rw [Function.update_self]
      exact List.nodup_cons.mpr ⟨fun hq => (hold _ p hq).1 rfl, h.arena.nodup _⟩
    · rw [Function.update_of_ne hj]
      exact h.arena.nodup j
  · have := h.lo_le
    omega
  · rw [hfree]
    exact (h.lists k sl').congr fun q hq => (hold _ q hq).2
  · rcases hmem j q hq with ⟨rfl, rfl⟩ | hq
    · exact ⟨sl, hs, nofun⟩
    · rw [page_size_.get_congr (hold j q hq).2]
      exact h.size j q hq
  · rcases hmem j q hq with ⟨rfl, rfl⟩ | hq
    · rw [Function.update_self]
      exact hn
    · rw [page_size_.get_congr (hold j q hq).2, Function.update_of_ne (hold j q hq).1]
      exact h.size_le j q hq
  · rcases hmem _ q hq with ⟨-, rfl⟩ | hq
    · exact ha
    · rw [isAllocated_congr (hold _ q hq).2]
      exact h.live q hq
  · rw [hfree] at hq
    rw [isAllocated_congr (hold _ q hq).2]
    exact h.free k sl' q hq

/-- Removing a page from its list changes a link of the list, and no other field. -/
theorem unlinked (h : Pages buf lo hi m pas len at_) {as : List Nat}
    (hu : PageAllocator.Unlinked buf m m' as p) (has : ∀ r ∈ as, r ∈ at_ i) (hq : q ∈ at_ j) :
    (∀ f : Field, f.Apart next_shm_ → f.get m' q = f.get m q) ∧ isAllocated m' q = isAllocated m q ∧
      (q ∉ as → m.SameOn m' q mpPage) := by
  rcases hu with rfl | ⟨r, hr, -, rfl⟩
  · exact ⟨fun _ _ => rfl, rfl, fun _ => .refl m' q mpPage⟩
  by_cases hqr : q = r
  · subst hqr
    exact ⟨fun f hf => Field.get_set_apart hf, isAllocated_set_apart (by decide),
      fun hn => absurd hr hn⟩
  · have hsame := (next_shm_.set_sameOff m r (next_shm_.get m p)).sameOn
      (h.headers_apart (has r hr) hq (Ne.symm hqr))
    exact ⟨fun f _ => f.get_congr hsame, isAllocated_congr hsame, fun _ => hsame⟩

theorem free_ne {k k' : κ} {sl sl' : Slot} (hk : ¬ (k' = k ∧ sl' = sl)) :
    Place.free k' sl' ≠ .free k sl := by
  intro he
  injection he with h1 h2
  exact hk ⟨h1, h2⟩

variable [DecidableEq κ]

theorem list_update_self (k : κ) (sl : Slot) (l : ListQueue) :
    (Function.update pas k ((pas k).setList sl l) k).list sl = l := by
  rw [Function.update_self, PageAllocator.list_setList, Function.update_self]

theorem list_update_of_ne {k k' : κ} {sl sl' : Slot} (hk : ¬ (k' = k ∧ sl' = sl)) (l : ListQueue) :
    (Function.update pas k ((pas k).setList sl l) k').list sl' = (pas k').list sl' := by
  by_cases hk' : k' = k
  · subst hk'
    rw [Function.update_self, PageAllocator.list_setList,
      Function.update_of_ne fun hsl => hk ⟨rfl, hsl⟩]
  · rw [Function.update_of_ne hk']

/-- `Allocate` finds no page, or takes one from the slot of the request; its header
is then written. -/
theorem allocate (h : Pages buf lo hi m pas len at_) (k : κ) (page_id : PageId) :
    (∃ pa', (pas k).allocate buf m page_id = some (none, m, pa') ∧ pa'.heap_ = (pas k).heap_ ∧
      Pages buf lo hi m (Function.update pas k pa') len at_) ∨
    ∃ p m₁ pa', (pas k).allocate buf m page_id = some (some p, m₁, pa') ∧
      pa'.heap_ = (pas k).heap_ ∧ p ∈ at_ (.free k page_id.slot) ∧
      (page_id.slot = .fallback → page_id.round_ ≤ page_size_.get m p) ∧
      PageAllocator.Unlinked buf m m₁ (at_ (.free k page_id.slot)) p ∧
      page_size_.get m₁ p = page_size_.get m p ∧
      ∀ m', m₁.SameOff m' p mpPage → (∃ sl, PageSize (page_size_.get m' p) sl) →
        page_size_.get m' p ≤ len p → isAllocated m' p = true →
        Pages buf lo hi m' (Function.update pas k pa') len
          (moved at_ (.free k page_id.slot) .live p) := by
  have hapart : ∀ r ∈ at_ (.free k page_id.slot), ∀ s ∈ at_ (.free k page_id.slot), r ≠ s →
      r + mpPage ≤ s ∨ s + mpPage ≤ r := fun r hr s hs => h.headers_apart hr hs
  rcases PageAllocator.allocate_spec (h.lists k page_id.slot) hapart with
    ⟨q, he, hr, -⟩ | ⟨as, p, cs, m₁, q, he, hps, hr, hfit, hu⟩
  · refine .inl ⟨_, he, PageAllocator.heap_setList .., { h with lists := fun k' sl => ?_ }⟩
    by_cases hk : k' = k ∧ sl = page_id.slot
    · obtain ⟨rfl, rfl⟩ := hk
      rw [list_update_self]
      exact hr
    · rw [list_update_of_ne hk]
      exact h.lists k' sl
  · have hp : p ∈ at_ (.free k page_id.slot) := by simp [hps]
    have has : ∀ r ∈ as, r ∈ at_ (.free k page_id.slot) := fun r hr => by simp [hps, hr]
    have hnd := h.arena.nodup (.free k page_id.slot)
    rw [hps, List.nodup_append] at hnd
    have hpas : p ∉ as := fun hpa => hnd.2.2 p hpa p List.mem_cons_self rfl
    have hu' : PageAllocator.Unlinked buf m m₁ (at_ (.free k page_id.slot)) p :=
      hu.imp_right fun ⟨r, hr, hn⟩ => ⟨r, has r hr, hn⟩
    refine .inr ⟨p, m₁, _, he, PageAllocator.heap_setList .., hp, hfit, hu',
      (h.unlinked hu has hp).1 _ (by decide), fun m' hm' hs hn ha => ?_⟩
    have hne : Place.free k page_id.slot ≠ .live := nofun
    have hmem := fun (j : Place κ) (q : Nat) =>
      h.arena.mem_moved (k := j) (q := q) hp hne
    -- headers of the other pages, from `m₁` to `m'`
    have hsame : ∀ j, ∀ q ∈ at_ j, q ≠ p → m₁.SameOn m' q mpPage := fun j q hq hqp =>
      hm'.sameOn (h.headers_apart hp hq (Ne.symm hqp))
    refine ⟨h.arena.moved hp hne, h.buf_le, h.lo_le, h.hi_lt, fun k' sl => ?_, fun j q hq => ?_,
      fun j q hq => ?_, fun q hq => ?_, fun k' sl q hq => ?_⟩
    · by_cases hk : k' = k ∧ sl = page_id.slot
      · obtain ⟨rfl, rfl⟩ := hk
        have hplace : moved at_ (.free k' page_id.slot) .live p (.free k' page_id.slot) =
            as ++ cs := by
          rw [moved, Function.update_of_ne hne, Function.update_self, hps,
            List.erase_append_right _ hpas, List.erase_cons_head]
        rw [list_update_self, hplace]
        refine hr.congr fun q hq => ?_
        have hqat : q ∈ at_ (.free k' page_id.slot) ∧ q ≠ p :=
          (hmem (.free k' page_id.slot) q).mp (hplace ▸ hq) |>.resolve_left (by simp)
        exact hsame _ q hqat.1 hqat.2
      · have hplace :
            moved at_ (.free k page_id.slot) .live p (.free k' sl) = at_ (.free k' sl) := by
          rw [moved, Function.update_of_ne (by simp), Function.update_of_ne (free_ne hk)]
        rw [hplace, list_update_of_ne hk]
        refine (h.lists k' sl).congr fun q hq => ?_
        have hqslot : ∀ r ∈ at_ (.free k page_id.slot), q ≠ r := fun r hr' =>
          h.arena.ne_of_place_ne hq hr' (free_ne hk)
        exact ((h.unlinked hu has hq).2.2 fun hqa => hqslot q (has q hqa) rfl).trans
          (hsame _ q hq (hqslot p hp))
    · rcases (hmem j q).mp hq with ⟨rfl, rfl⟩ | ⟨hq, hqp⟩
      · obtain ⟨sl, hs⟩ := hs
        exact ⟨sl, hs, nofun⟩
      · rw [page_size_.get_congr (hsame j q hq hqp), (h.unlinked hu has hq).1 _ (by decide)]
        exact h.size j q hq
    · rcases (hmem j q).mp hq with ⟨rfl, rfl⟩ | ⟨hq, hqp⟩
      · exact hn
      · rw [page_size_.get_congr (hsame j q hq hqp), (h.unlinked hu has hq).1 _ (by decide)]
        exact h.size_le j q hq
    · rcases (hmem _ q).mp hq with ⟨-, rfl⟩ | ⟨hq, hqp⟩
      · exact ha
      · rw [isAllocated_congr (hsame _ q hq hqp), (h.unlinked hu has hq).2.1]
        exact h.live q hq
    · obtain ⟨hq, hqp⟩ := (hmem _ q).mp hq |>.resolve_left (by simp)
      rw [isAllocated_congr (hsame _ q hq hqp), (h.unlinked hu has hq).2.1]
      exact h.free k' sl q hq

omit [DecidableEq κ] in
/-- Where `Allocate` finds no page, those in the slot of the request are too short. -/
theorem none_fits {page_id : PageId} {pa' : PageAllocator} (h : Pages buf lo hi m pas len at_)
    (he : (pas k).allocate buf m page_id = some (none, m', pa')) :
    ∀ p ∈ at_ (.free k page_id.slot), page_size_.get m p < page_id.round_ := by
  rcases PageAllocator.allocate_spec (h.lists k page_id.slot)
      fun r hr s hs => h.headers_apart hr hs with ⟨q, -, -, hall⟩ | ⟨as, p, cs, m₁, q, he', -⟩
  · exact hall
  · rw [he] at he'
    cases he'

/-- A page in use goes to the front of a list, with its header written. -/
theorem shelve (h : Pages buf lo hi m pas len at_) (hp : p ∈ at_ .live) {sl : Slot} {l : ListQueue}
    (hs : PageSize (page_size_.get m' p) sl) (hm : m.SameOff m' p mpPage)
    (hn : page_size_.get m' p ≤ len p) (ha : isAllocated m' p = false)
    (hl : l.Represents buf m' (p :: at_ (.free k sl))) :
    Pages buf lo hi m' (Function.update pas k ((pas k).setList sl l)) len
      (moved at_ .live (.free k sl) p) := by
  have hne : Place.live ≠ .free k sl := nofun
  have hmem := fun (j : Place κ) (q : Nat) => h.arena.mem_moved (k := j) (q := q) hp hne
  have hsame : ∀ j, ∀ q ∈ at_ j, q ≠ p → m.SameOn m' q mpPage := fun j q hq hqp =>
    hm.sameOn (h.headers_apart hp hq (Ne.symm hqp))
  refine ⟨h.arena.moved hp hne, h.buf_le, h.lo_le, h.hi_lt, fun k' sl' => ?_, fun j q hq => ?_,
    fun j q hq => ?_, fun q hq => ?_, fun k' sl' q hq => ?_⟩
  · by_cases hk : k' = k ∧ sl' = sl
    · obtain ⟨rfl, rfl⟩ := hk
      rw [list_update_self, Base.moved, Function.update_self]
      exact hl
    · have hplace : moved at_ .live (.free k sl) p (.free k' sl') = at_ (.free k' sl') := by
        rw [Base.moved, Function.update_of_ne (free_ne hk), Function.update_of_ne (by simp)]
      rw [hplace, list_update_of_ne hk]
      exact (h.lists k' sl').congr fun q hq => hsame _ q hq (h.arena.ne_of_place_ne hq hp nofun)
  · rcases (hmem j q).mp hq with ⟨rfl, rfl⟩ | ⟨hq, hqp⟩
    · refine ⟨sl, hs, fun k' sl' he => ?_⟩
      injection he with h1 h2
      exact h2.symm
    · rw [page_size_.get_congr (hsame j q hq hqp)]
      exact h.size j q hq
  · rcases (hmem j q).mp hq with ⟨rfl, rfl⟩ | ⟨hq, hqp⟩
    · exact hn
    · rw [page_size_.get_congr (hsame j q hq hqp)]
      exact h.size_le j q hq
  · obtain ⟨hq, hqp⟩ := (hmem _ q).mp hq |>.resolve_left (by simp)
    rw [isAllocated_congr (hsame _ q hq hqp)]
    exact h.live q hq
  · rcases (hmem _ q).mp hq with ⟨-, rfl⟩ | ⟨hq, hqp⟩
    · exact ha
    · rw [isAllocated_congr (hsame _ q hq hqp)]
      exact h.free k' sl' q hq

/-- `Free` puts a page in use into the slot of its size, and writes the flags and the
link of its header. -/
theorem release (h : Pages buf lo hi m pas len at_) (hp : p ∈ at_ .live) (k : κ) :
    ∃ sl m' pa', (pas k).free buf (unsetAllocated m p) p = (m', pa') ∧ m.SameOff m' p mpPage ∧
      (∀ f : Field, f.Apart next_shm_ → f.Apart flags_ → f.get m' p = f.get m p) ∧
      Pages buf lo hi m' (Function.update pas k pa') len (moved at_ .live (.free k sl) p) := by
  obtain ⟨sl, hs, -⟩ := h.size _ p hp
  have hsize : page_size_.get (unsetAllocated m p) p = page_size_.get m p :=
    Field.get_set_apart (by decide)
  have hs' : PageSize (page_size_.get (unsetAllocated m p) p) sl := by rw [hsize]; exact hs
  have hfree := PageAllocator.free_spec buf (pas k) hs'
  have hother : ∀ q ∈ at_ (.free k sl), p + mpPage ≤ q ∨ q + mpPage ≤ p := fun q hq =>
    h.headers_apart hp hq (h.arena.ne_of_place_ne hp hq nofun)
  have hl := ((h.lists k sl).congr fun q hq =>
    (unsetAllocated_sameOff m p).sameOn (hother q hq)).enqueue (h.reachable hp) hother
  have hkeep : ∀ f : Field, f.Apart next_shm_ → f.Apart flags_ →
      f.get (next_shm_.set (unsetAllocated m p) p ((pas k).list sl).tail_shm_) p = f.get m p :=
    fun f hn hf => (Field.get_set_apart hn).trans (Field.get_set_apart hf)
  have hn := hkeep page_size_ (by decide) (by decide)
  refine ⟨sl, _, _, hfree, (unsetAllocated_sameOff m p).trans (next_shm_.set_sameOff _ p _), hkeep,
    ?_⟩
  rw [ListQueue.enqueue_fst] at hl ⊢
  refine h.shelve hp ?_ ((unsetAllocated_sameOff m p).trans (next_shm_.set_sameOff _ p _)) ?_ ?_ hl
  · rw [hn]
    exact hs
  · rw [hn]
    exact h.size_le _ p hp
  · rw [isAllocated_set_apart (by decide)]
    exact isAllocated_unsetAllocated

end Pages
end HermesShm.Memory
