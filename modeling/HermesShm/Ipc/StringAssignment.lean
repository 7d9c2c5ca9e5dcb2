import HermesShm.Ipc.StringMemory

/-! # Assignment of strings -/
namespace HermesShm.Ipc.StringMemory
open HermesShm.Base HermesShm.Ipc.Lifetime HermesShm.Ipc.HipcString

variable {P : Placement} {σ : Store} {i t s n : Nat} {p src : CharPtr} {r : Region} {b : Block}
  {F : Multiset Block} {f : Heap → Str → Str × Heap}

namespace Store

/-! ## What a read finds -/

theorem view_dead (h : b ∉ σ.heap.live) : σ.view (.block b) = fun _ => none := if_neg h

@[simp] theorem act_strs : (σ.act i f).strs = Function.update σ.strs i (f σ.heap (σ.strs i)).1 :=
  rfl
@[simp] theorem act_heap : (σ.act i f).heap = (f σ.heap (σ.strs i)).2 := rfl
@[simp] theorem act_cls : (σ.act i f).cls = σ.cls := rfl

@[simp] theorem setStr_view (x : Str) : (σ.setStr i x).view = σ.view := rfl
@[simp] theorem setStr_heap (x : Str) : (σ.setStr i x).heap = σ.heap := rfl
@[simp] theorem setStr_cls (x : Str) : (σ.setStr i x).cls = σ.cls := rfl
@[simp] theorem setStr_strs (x : Str) : (σ.setStr i x).strs = Function.update σ.strs i x := rfl

theorem setStr_self : σ.setStr i (σ.strs i) = σ := by
  simp only [setStr, Function.update_eq_self]

@[simp] theorem memcpy_strs (d : Option CharPtr) : (σ.memcpy d src n).strs = σ.strs := by
  cases d <;> rfl

@[simp] theorem memcpy_heap (d : Option CharPtr) : (σ.memcpy d src n).heap = σ.heap := by
  cases d <;> rfl

@[simp] theorem memcpy_cls (d : Option CharPtr) : (σ.memcpy d src n).cls = σ.cls := by
  cases d <;> rfl

/-- A block that stays allocated keeps its bytes. -/
theorem act_view_block : (σ.act i f).view (.block b) =
    if b ∈ (σ.act i f).heap.live then σ.view (.block b) else fun _ => none := rfl

theorem act_view_of_ne (h : ∀ b, r ≠ .block b) : (σ.act i f).view r = σ.view r := by
  cases r with
  | block b => exact absurd rfl (h b)
  | other i => rfl
  | sso i => rfl

/-- A block that comes in has no bytes, as before. -/
theorem act_view_of_le (h : ∀ b, b ∈ σ.heap.live → b ∈ (σ.act i f).heap.live) :
    (σ.act i f).view = σ.view := by
  funext r
  by_cases hr : ∃ b, r = .block b
  · obtain ⟨b, rfl⟩ := hr
    rw [act_view_block]
    by_cases hb : b ∈ (σ.act i f).heap.live
    · rw [if_pos hb]
    · rw [if_neg hb, view_dead (mt (h b) hb)]
  · exact act_view_of_ne fun b hb => hr ⟨b, hb⟩

theorem view_congr {σ' : Store} (hh : σ'.heap = σ.heap) (hm : σ'.mem r = σ.mem r) :
    σ'.view r = σ.view r := by
  cases r <;> simp only [view, hh, hm]

theorem memcpy_view_of_ne (h : r ≠ p.region) : (σ.memcpy (some p) src n).view r = σ.view r := by
  refine view_congr rfl ?_
  simp only [memcpy]
  exact RegionMem.blit_of_ne h

/-- The region written to is one that is there. -/
theorem memcpy_view (h : ∀ b, p.region = .block b → b ∈ σ.heap.live) :
    (σ.memcpy (some p) src n).view p.region =
      RegionMem.blit σ.view p.region p.off n (fun k => σ.view src.region (src.off + k))
        p.region := by
  have hview : ∀ m : RegionMem Region (Option UInt8),
      ({ σ with mem := m } : Store).view p.region = m p.region := by
    intro m
    cases hr : p.region with
    | block b => exact if_pos (h b hr)
    | other i => rfl
    | sso i => rfl
  funext k
  simp only [memcpy, hview, RegionMem.blit_apply]

theorem memcpy_view_at {k : Nat} (h : ∀ b, p.region = .block b → b ∈ σ.heap.live) (hk : k < n) :
    (σ.memcpy (some p) src n).view p.region (p.off + k) = σ.view src.region (src.off + k) := by
  rw [memcpy_view h, RegionMem.blit_at hk]

/-! ## `data()` -/

theorem data_congr {σ' : Store} (hs : σ'.strs i = σ.strs i) (hc : σ'.cls = σ.cls) :
    σ'.data i = σ.data i := by
  simp only [data, hs, hc]

theorem data_wrap (hc : (σ.cls i).kWrap = true) (hw : (σ.strs i).is_wrap_ = true)
    (ht : (σ.strs i).text = .data p) : σ.data i = some p := by
  simp [data, hc, hw, ht]

theorem data_inline (hw : (σ.strs i).is_wrap_ = false) (hn : (σ.strs i).length_ ≤ (σ.cls i).SSO) :
    σ.data i = some ⟨.sso i, 0⟩ := by
  simp [data, hw, hn]

theorem data_heap {off : Nat} (hh : (σ.strs i).isHeap (σ.cls i))
    (ht : (σ.strs i).text = .text off) :
    σ.data i = some ⟨.block ((σ.strs i).alloc, off), 0⟩ := by
  simp [data, hh.1, not_le.mpr hh.2, ht]

/-- A string has its characters in one of three places. -/
theorem data_cases (hok : (σ.strs i).Ok (σ.cls i)) :
    (∃ p, (σ.strs i).is_wrap_ = true ∧ σ.data i = some p) ∨
      ((σ.strs i).is_wrap_ = false ∧ (σ.strs i).length_ ≤ (σ.cls i).SSO ∧
        σ.data i = some ⟨.sso i, 0⟩) ∨
      ∃ off, (σ.strs i).isHeap (σ.cls i) ∧ (σ.strs i).text = .text off ∧
        σ.data i = some ⟨.block ((σ.strs i).alloc, off), 0⟩ := by
  cases hw : (σ.strs i).is_wrap_ with
  | true =>
    obtain ⟨hc, p, ht⟩ := hok.wrap hw
    exact .inl ⟨p, rfl, data_wrap hc hw ht⟩
  | false =>
    by_cases hn : (σ.strs i).length_ ≤ (σ.cls i).SSO
    · exact .inr (.inl ⟨rfl, hn, data_inline hw hn⟩)
    · have hh : (σ.strs i).isHeap (σ.cls i) := ⟨hw, not_le.mp hn⟩
      obtain ⟨-, off, ht⟩ := hok.heap hh
      exact .inr (.inr ⟨off, hh, ht, data_heap hh ht⟩)

theorem exists_data (hok : (σ.strs i).Ok (σ.cls i)) : ∃ p, σ.data i = some p := by
  rcases data_cases hok with ⟨p, -, hp⟩ | ⟨-, -, hp⟩ | ⟨off, -, -, hp⟩ <;> exact ⟨_, hp⟩

theorem contents_eq (h : σ.data i = some p) : σ.contents i = σ.read p (σ.strs i).length_ := by
  simp only [contents, h]

/-! ## The target and the source -/

/-- Two strings that are what their classes make of them. What they own is allocated,
each block once, beside the blocks of others. -/
structure Apart (σ : Store) (t s : Nat) (F : Multiset Block) : Prop where
  ne : t ≠ s
  target : (σ.strs t).Ok (σ.cls t)
  source : (σ.strs s).Ok (σ.cls s)
  holds : σ.heap.Holds ((σ.strs t).owns (σ.cls t) + ((σ.strs s).owns (σ.cls s) + F))

/-- Blocks of the target are none of the rest. -/
theorem Apart.notMem (h : Apart σ t s F) (hb : b ∈ (σ.strs t).owns (σ.cls t)) :
    b ∉ (σ.strs s).owns (σ.cls s) + F := by
  have hn : ((σ.strs t).owns (σ.cls t) + ((σ.strs s).owns (σ.cls s) + F)).Nodup := by
    rw [← h.holds.live]
    exact Multiset.coe_nodup.mpr h.holds.nodup
  exact Multiset.disjoint_left.mp (Multiset.nodup_add.mp hn).2.2 hb

/-- What the destruction of the target leaves allocated. -/
theorem Apart.destroyed (h : Apart σ t s F) (hb : b ∈ σ.heap.live) :
    b ∈ (σ.shmDestroy t).heap.live ↔ b ∉ (σ.strs t).owns (σ.cls t) := by
  have hd : (σ.shmDestroy t).heap.Holds ((σ.strs s).owns (σ.cls s) + F) :=
    Str.shmDestroy_holds h.target h.holds
  rw [hd.mem_live]
  constructor
  · intro hm ht
    exact h.notMem ht hm
  · intro ht
    rw [h.holds.mem_live, Multiset.mem_add] at hb
    exact hb.resolve_left ht

theorem Apart.destroyed_view (h : Apart σ t s F) (hb : b ∉ (σ.strs t).owns (σ.cls t)) :
    (σ.shmDestroy t).view (.block b) = σ.view (.block b) := by
  by_cases hl : b ∈ σ.heap.live
  · exact act_view_block.trans (if_pos ((h.destroyed hl).mpr hb))
  · rw [view_dead hl]
    refine view_dead fun hl' => hl ?_
    have hd : (σ.shmDestroy t).heap.Holds ((σ.strs s).owns (σ.cls s) + F) :=
      Str.shmDestroy_holds h.target h.holds
    rw [hd.mem_live] at hl'
    exact h.holds.mem_live.mpr (Multiset.mem_add.mpr (.inr hl'))

theorem Apart.freed_view (h : Apart σ t s F) (hb : b ∈ (σ.strs t).owns (σ.cls t)) :
    (σ.shmDestroy t).view (.block b) = fun _ => none := by
  refine view_dead fun hl' => ?_
  have hl : b ∈ σ.heap.live := h.holds.mem_live.mpr (Multiset.mem_add.mpr (.inl hb))
  exact (h.destroyed hl).mp hl' hb

/-! ## Strong copies -/

theorem createStr_live {l : Heap} {x : Str} {c : StringClass} (hb : b ∈ l.live) :
    b ∈ (Str.createStr P c l x n).2.live := by
  unfold Str.createStr
  split
  · exact hb
  · exact List.mem_cons_of_mem _ hb

/-- A string that was created from `n` characters at `text`. -/
structure Created (σ σ' : Store) (i n : Nat) (text : CharPtr) : Prop where
  contents : σ'.contents i = σ.read text n
  cls : σ'.cls = σ.cls
  others : ∀ j, j ≠ i → σ'.strs j = σ.strs j
  /-- Inline characters are in `sso_`, others in a new block. -/
  sso : σ'.view (.sso i) = if n ≤ (σ.cls i).SSO then
    RegionMem.blit σ.view (.sso i) 0 n (fun k => σ.view text.region (text.off + k)) (.sso i)
    else σ.view (.sso i)
  view : ∀ r, r ≠ .sso i → (∀ b, r = .block b → b ∈ σ.heap.live) → σ'.view r = σ.view r

theorem createStr_created (text : CharPtr) : Created σ (σ.createStr P i text n) i n text := by
  have hview : (σ.act i fun l s => Str.createStr P (σ.cls i) l s n).view = σ.view :=
    act_view_of_le fun b hb => createStr_live hb
  have hstr : (σ.act i fun l s => Str.createStr P (σ.cls i) l s n).strs i =
      (Str.createStr P (σ.cls i) σ.heap (σ.strs i) n).1 := by simp
  unfold createStr
  generalize hσ : σ.act i (fun l s => Str.createStr P (σ.cls i) l s n) = τ at hview hstr
  have hcls : τ.cls = σ.cls := by rw [← hσ]; rfl
  have hlen : (τ.strs i).length_ = n := by rw [hstr, Str.createStr_length]
  have hwrap : (τ.strs i).is_wrap_ = false := by
    rw [hstr]
    unfold Str.createStr
    split <;> rfl
  have hothers : ∀ j, j ≠ i → τ.strs j = σ.strs j := by
    intro j hj
    rw [← hσ, act_strs, Function.update_of_ne hj]
  by_cases hn : n ≤ (σ.cls i).SSO
  · have hdata : τ.data i = some ⟨.sso i, 0⟩ := data_inline hwrap (by rw [hlen, hcls]; exact hn)
    simp only [hdata]
    have hno : ∀ b, (⟨.sso i, 0⟩ : CharPtr).region = .block b → b ∈ τ.heap.live := nofun
    refine ⟨?_, by simp [hcls], fun j hj => by simp [hothers j hj], ?_, fun r hr _ => ?_⟩
    · rw [contents_eq ((data_congr (by simp) (by simp)).trans hdata), memcpy_strs, hlen]
      refine RegionMem.read_congr fun k hk => ?_
      rw [memcpy_view_at hno hk, hview]
    · rw [if_pos hn, memcpy_view (p := ⟨.sso i, 0⟩) hno, hview]
    · rw [memcpy_view_of_ne hr, hview]
  · have hlt := not_le.mp hn
    obtain ⟨htext, hheap⟩ := Str.createStr_text (P := P) (l := σ.heap) (s := σ.strs i) hlt
    obtain ⟨b, hb, hlive, hdata⟩ : ∃ b, b ∉ σ.heap.live ∧ b ∈ τ.heap.live ∧
        τ.data i = some ⟨.block b, 0⟩ := by
      refine ⟨(_, _), P.fresh σ.heap.calls σ.heap.live (σ.strs i).alloc, ?_, ?_⟩
      · rw [← hσ, act_heap, hheap]
        exact List.mem_cons_self
      · have hh : (τ.strs i).isHeap (τ.cls i) := ⟨hwrap, by rw [hlen, hcls]; exact hlt⟩
        rw [data_heap hh (by rw [hstr]; exact htext), hstr, Str.createStr_alloc]
        rfl
    simp only [hdata]
    have hthere : ∀ b', (⟨.block b, 0⟩ : CharPtr).region = .block b' → b' ∈ τ.heap.live := by
      intro b' hb'
      cases hb'
      exact hlive
    refine ⟨?_, by simp [hcls], fun j hj => by simp [hothers j hj], ?_, fun r _ hr => ?_⟩
    · rw [contents_eq ((data_congr (by simp) (by simp)).trans hdata), memcpy_strs, hlen]
      refine RegionMem.read_congr fun k hk => ?_
      rw [memcpy_view_at hthere hk, hview]
    · rw [if_neg hn, memcpy_view_of_ne (by simp), hview]
    · rw [memcpy_view_of_ne (fun he => hb (hr b he)), hview]

/-! ## Copy assignment -/

/-- The target has the characters, and the source is what it was. -/
structure Copied (σ σ' : Store) (t s : Nat) (bs : List UInt8) : Prop where
  target : σ'.contents t = bs.map some
  source : σ'.contents s = bs.map some
  unchanged : σ'.strs s = σ.strs s

/-- The source wraps characters of the target that the assignment gives back or
overwrites with others. -/
def Disturbs (σ : Store) (t s : Nat) : Prop :=
  ∃ p, σ.data s = some p ∧ 0 < (σ.strs s).length_ ∧
    ((∃ b ∈ (σ.strs t).owns (σ.cls t), p.region = .block b) ∨
      (σ.cls t).kWrap = false ∧ (σ.strs s).length_ ≤ (σ.cls t).SSO ∧ p.region = .sso t ∧
        ∃ k, p.off + k < (σ.strs s).length_ ∧
          σ.view (.sso t) (p.off + k) ≠ σ.view (.sso t) (p.off + (p.off + k)))

theorem Apart.destroyed_read (h : Apart σ t s F)
    (hb : ∀ b ∈ (σ.strs t).owns (σ.cls t), p.region ≠ .block b) :
    (σ.shmDestroy t).view p.region = σ.view p.region := by
  cases hr : p.region with
  | block b => exact h.destroyed_view fun hmem => hb b hmem hr
  | other i => rfl
  | sso i => rfl

/-- Characters that were given back are not there any more. -/
theorem Apart.freed_read (bs : List UInt8) (h : Apart σ t s F)
    (hb : b ∈ (σ.strs t).owns (σ.cls t)) (hr : p.region = .block b) (hn : 0 < n) :
    (σ.shmDestroy t).read p n ≠ bs.map some := by
  intro he
  have h0 := RegionMem.read_get he hn
  rw [hr, h.freed_view hb, List.getElem?_map] at h0
  simp at h0

/-- A class that wraps: the target points to the characters of the source. -/
theorem copyOp_wrap {bs : List UInt8} (h : Apart σ t s F) (hc : (σ.cls t).kWrap = true)
    (hp : σ.data s = some p) :
    Copied σ (σ.copyOp P t p (σ.strs s).length_) t s bs ↔
      (σ.shmDestroy t).read p (σ.strs s).length_ = bs.map some := by
  have hs : (σ.copyOp P t p (σ.strs s).length_).strs s = σ.strs s := by
    simp [copyOp, hc, shmDestroy, Function.update_of_ne h.ne.symm]
  have hcls : (σ.copyOp P t p (σ.strs s).length_).cls = σ.cls := by simp [copyOp, hc, shmDestroy]
  have hview : (σ.copyOp P t p (σ.strs s).length_).view = (σ.shmDestroy t).view := by
    simp [copyOp, hc]
  have ht : (σ.copyOp P t p (σ.strs s).length_).strs t =
      Str.wrap ((σ.shmDestroy t).strs t) p (σ.strs s).length_ := by simp [copyOp, hc]
  have htarget : (σ.copyOp P t p (σ.strs s).length_).contents t =
      (σ.shmDestroy t).read p (σ.strs s).length_ := by
    rw [contents_eq (data_wrap (p := p) (by rw [hcls]; exact hc) (by rw [ht]; rfl)
      (by rw [ht]; rfl)), ht]
    exact congrArg (fun m => RegionMem.read m p.region p.off (σ.strs s).length_) hview
  have hsource : (σ.copyOp P t p (σ.strs s).length_).contents s =
      (σ.shmDestroy t).read p (σ.strs s).length_ := by
    rw [contents_eq ((data_congr hs hcls).trans hp), hs]
    exact congrArg (fun m => RegionMem.read m p.region p.off (σ.strs s).length_) hview
  exact ⟨fun hco => htarget.symm.trans hco.target,
    fun he => ⟨htarget.trans he, hsource.trans he, hs⟩⟩

/-- Bytes that somebody has written are in a block that is allocated. -/
theorem live_of_read {bs : List UInt8} (he : σ.read p n = bs.map some) (hn : 0 < n)
    (hr : p.region = .block b) : b ∈ σ.heap.live := by
  by_contra hb
  have h0 := RegionMem.read_get he hn
  rw [hr, view_dead hb, List.getElem?_map] at h0
  simp at h0

/-- A class that does not wrap: the target is destroyed and created again. -/
theorem copyOp_strong_eq (h : Apart σ t s F) (hc : ¬ (σ.cls t).kWrap = true) :
    σ.copyOp P t p n = (σ.shmDestroy t).createStr P t p n := by
  simp only [copyOp, hc, Bool.false_eq_true, if_false]
  rw [Str.clear_wrap h.target hc, setStr_self]

theorem copyOp_strong (bs : List UInt8) (h : Apart σ t s F) (hc : ¬ (σ.cls t).kWrap = true)
    (hp : σ.data s = some p) :
    Copied σ (σ.copyOp P t p (σ.strs s).length_) t s bs ↔
      (σ.shmDestroy t).read p (σ.strs s).length_ = bs.map some ∧
        (σ.copyOp P t p (σ.strs s).length_).read p (σ.strs s).length_ = bs.map some := by
  rw [copyOp_strong_eq h hc]
  have hcr := createStr_created (P := P) (σ := σ.shmDestroy t) (i := t) (n := (σ.strs s).length_) p
  have hs : ((σ.shmDestroy t).createStr P t p (σ.strs s).length_).strs s = σ.strs s := by
    rw [hcr.others s h.ne.symm, shmDestroy, act_strs, Function.update_of_ne h.ne.symm]
  have hsource : ((σ.shmDestroy t).createStr P t p (σ.strs s).length_).contents s =
      ((σ.shmDestroy t).createStr P t p (σ.strs s).length_).read p (σ.strs s).length_ := by
    rw [contents_eq ((data_congr hs hcr.cls).trans hp), hs]
  exact ⟨fun hco => ⟨hcr.contents.symm.trans hco.target, hsource.symm.trans hco.source⟩,
    fun he => ⟨hcr.contents.trans he.1, hsource.trans he.2, hs⟩⟩

/-- What the source reads after a strong copy whose characters survive the destruction
of the target. -/
theorem copyOp_source {bs : List UInt8} (h : Apart σ t s F) (hc : ¬ (σ.cls t).kWrap = true)
    (hn : 0 < n) (hread : (σ.shmDestroy t).read p n = bs.map some)
    (hsame : (σ.shmDestroy t).view p.region = σ.view p.region) :
    (σ.copyOp P t p n).read p n = σ.read p n ↔
      ¬ (n ≤ (σ.cls t).SSO ∧ p.region = .sso t ∧
        ∃ k, p.off + k < n ∧
          σ.view (.sso t) (p.off + k) ≠ σ.view (.sso t) (p.off + (p.off + k))) := by
  rw [copyOp_strong_eq h hc]
  have hcr := createStr_created (P := P) (σ := σ.shmDestroy t) (i := t) (n := n) p
  by_cases hr : p.region = .sso t
  · have hsso : (σ.shmDestroy t).view (.sso t) = σ.view (.sso t) := hr ▸ hsame
    by_cases hle : n ≤ (σ.cls t).SSO
    · have hcell : ∀ k, ((σ.shmDestroy t).createStr P t p n).view (.sso t) (p.off + k) =
          if p.off + k < n then σ.view (.sso t) (p.off + (p.off + k))
          else σ.view (.sso t) (p.off + k) := by
        intro k
        rw [hcr.sso, if_pos (show n ≤ ((σ.shmDestroy t).cls t).SSO from hle), RegionMem.blit_apply,
          hr, hsso]
        simp
      simp only [read, RegionMem.read_eq_iff, hr, hcell, hle, true_and, not_exists, not_and,
        not_not]
      constructor
      · intro hall k hk
        have := hall k (by omega)
        rw [if_pos hk] at this
        exact this.symm
      · intro hall k _
        split
        · rename_i hk
          exact (hall k hk).symm
        · rfl
    · have hv : ((σ.shmDestroy t).createStr P t p n).view (.sso t) = σ.view (.sso t) := by
        rw [hcr.sso, if_neg (show ¬ n ≤ ((σ.shmDestroy t).cls t).SSO from hle), hsso]
      simp only [read, hr, hle, false_and, not_false_eq_true, iff_true]
      exact RegionMem.read_congr fun k _ => by rw [hv]
  · have hv := hcr.view p.region hr fun b hb => live_of_read hread hn hb
    simp only [hr, false_and, and_false, not_false_eq_true, iff_true]
    exact RegionMem.read_congr fun k _ => by rw [hv, hsame]

/-- **Copy assignment** replaces the value exactly where it does not disturb the
characters it copies. -/
theorem copyAssign_iff {bs : List UInt8} (h : Apart σ t s F) (hsrc : σ.contents s = bs.map some) :
    Copied σ (σ.copyAssign P t s) t s bs ↔ ¬ Disturbs σ t s := by
  obtain ⟨p, hp⟩ := exists_data h.source
  rw [contents_eq hp] at hsrc
  simp only [copyAssign, h.ne, if_false, hp]
  generalize hlen : (σ.strs s).length_ = n at hsrc
  have hfrees : ∀ b ∈ (σ.strs t).owns (σ.cls t), p.region = .block b → 0 < n →
      Disturbs σ t s := fun b hb hr hn => ⟨p, hp, hlen ▸ hn, .inl ⟨b, hb, hr⟩⟩
  by_cases hkeep : 0 < n ∧ ∃ b ∈ (σ.strs t).owns (σ.cls t), p.region = .block b
  · obtain ⟨hn, b, hb, hr⟩ := hkeep
    have hlost := h.freed_read bs hb hr hn
    refine iff_of_false (fun hco => hlost ?_) (not_not.mpr (hfrees b hb hr hn))
    by_cases hc : (σ.cls t).kWrap = true
    · exact hlen ▸ (copyOp_wrap h hc hp).mp (hlen.symm ▸ hco)
    · exact hlen ▸ ((copyOp_strong bs h hc hp).mp (hlen.symm ▸ hco)).1
  · have hnot : 0 < n → ∀ b ∈ (σ.strs t).owns (σ.cls t), p.region ≠ .block b := fun hn b hb hr =>
      hkeep ⟨hn, b, hb, hr⟩
    have hread : (σ.shmDestroy t).read p n = bs.map some := by
      rw [← hsrc]
      refine RegionMem.read_congr fun k hk => ?_
      rw [h.destroyed_read (hnot (by omega))]
    have hdist : Disturbs σ t s ↔ 0 < n ∧ (σ.cls t).kWrap = false ∧ n ≤ (σ.cls t).SSO ∧
        p.region = .sso t ∧ ∃ k, p.off + k < n ∧
          σ.view (.sso t) (p.off + k) ≠ σ.view (.sso t) (p.off + (p.off + k)) := by
      constructor
      · rintro ⟨p', hp', hn, hcase⟩
        cases hp.symm.trans hp'
        rw [hlen] at hn hcase
        refine ⟨hn, hcase.resolve_left ?_⟩
        rintro ⟨b, hb, hr⟩
        exact hnot hn b hb hr
      · rintro ⟨hn, hrest⟩
        exact ⟨p, hp, hlen.symm ▸ hn, .inr (hlen.symm ▸ hrest)⟩
    rw [hdist]
    by_cases hc : (σ.cls t).kWrap = true
    · refine iff_of_true (hlen ▸ (copyOp_wrap h hc hp).mpr (hlen.symm ▸ hread)) ?_
      rintro ⟨-, hf, -⟩
      simp [hc] at hf
    · have hstrong := copyOp_strong (P := P) bs h hc hp
      rw [hlen] at hstrong
      rw [hstrong, and_iff_right hread]
      by_cases hn : 0 < n
      · rw [← hsrc, copyOp_source h hc hn hread (h.destroyed_read (hnot hn))]
        simp only [hn, true_and, Bool.not_eq_true _ ▸ hc]
      · refine iff_of_true ?_ fun hd => hn hd.1
        rw [← hsrc]
        exact RegionMem.read_congr fun k hk => absurd hk (by omega)

/-! ## Move assignment -/

/-- The target has the characters, read through its own `data()`, and the source is
empty. -/
structure Moved (σ' : Store) (t s : Nat) (bs : List UInt8) : Prop where
  target : σ'.contents t = bs.map some
  source : (σ'.strs s).length_ = 0

/-- The offset of the source's block is taken over by a target that looks for it in
another allocator, where it does not find the characters. -/
def Misreads (σ : Store) (t s : Nat) : Prop :=
  (σ.strs t).is_wrap_ = true ∧ (σ.strs t).alloc ≠ (σ.strs s).alloc ∧
    (σ.strs s).isHeap (σ.cls s) ∧ ∃ off, (σ.strs s).text = .text off ∧
      σ.read ⟨.block ((σ.strs t).alloc, off), 0⟩ (σ.strs s).length_ ≠ σ.contents s

theorem moveCopy_cls : (σ.moveCopy t s).cls = σ.cls := by
  simp only [moveCopy]
  split <;> simp

theorem moveCopy_strs :
    (σ.moveCopy t s).strs = Function.update σ.strs t (Str.moveCopy (σ.strs t) (σ.strs s)) := by
  simp only [moveCopy]
  split <;> simp

/-- The target of `move_copy` reads what the other string does, but for a block of
another allocator. -/
theorem moveCopy_contents (hne : t ≠ s) (hcls : σ.cls t = σ.cls s)
    (hok : (σ.strs s).Ok (σ.cls s)) :
    (σ.moveCopy t s).contents t = σ.contents s ∧ ¬ (σ.strs s).isHeap (σ.cls s) ∨
      ∃ off, (σ.strs s).isHeap (σ.cls s) ∧ (σ.strs s).text = .text off ∧
        (σ.moveCopy t s).contents t =
          σ.read ⟨.block ((σ.strs t).alloc, off), 0⟩ (σ.strs s).length_ := by
  have ht : (σ.moveCopy t s).strs t = Str.moveCopy (σ.strs t) (σ.strs s) := by
    rw [moveCopy_strs, Function.update_self]
  have hcls' : (σ.moveCopy t s).cls t = σ.cls s := by rw [moveCopy_cls, hcls]
  rcases data_cases hok with ⟨p, hw, hp⟩ | ⟨hw, hn, hp⟩ | ⟨off, hh, htext, hp⟩
  · refine .inl ⟨?_, fun hh => by simp [hh.1] at hw⟩
    obtain ⟨hc, p', htext⟩ := hok.wrap hw
    cases (data_wrap hc hw htext).symm.trans hp
    have hmem : σ.moveCopy t s = σ.setStr t (Str.moveCopy (σ.strs t) (σ.strs s)) := by
      simp only [moveCopy]
      rw [if_neg]
      simp [Str.moveCopy, hw]
    rw [contents_eq (data_wrap (by rw [hcls']; exact hc) (by rw [ht]; exact hw)
      (by rw [ht]; exact htext)), contents_eq hp, ht]
    rw [hmem]
    rfl
  · refine .inl ⟨?_, fun hh => absurd hh.2 (not_lt.mpr hn)⟩
    rw [contents_eq (data_inline (by rw [ht]; exact hw) (by rw [ht, hcls']; exact hn)),
      contents_eq hp, ht]
    refine RegionMem.read_congr fun k hk => ?_
    have hk' : k < (σ.strs s).length_ := hk
    simp only [moveCopy]
    rw [if_pos ⟨by simpa [Str.moveCopy, hcls] using hn, by simp [Str.moveCopy, hw]⟩]
    rw [memcpy_view_at (p := ⟨.sso t, 0⟩) (by simp) (by
      simp only [setStr_strs, Function.update_of_ne hne.symm]
      omega)]
    rfl
  · refine .inr ⟨off, hh, htext, ?_⟩
    have hmem : σ.moveCopy t s = σ.setStr t (Str.moveCopy (σ.strs t) (σ.strs s)) := by
      simp only [moveCopy]
      rw [if_neg]
      simp [Str.moveCopy, hcls, not_le.mpr hh.2]
    rw [contents_eq (data_heap (by rw [ht, hcls']; exact hh) (by rw [ht]; exact htext)),
      ht, hmem]
    rfl

/-- The destruction of one string leaves the characters of another, unless that one
wraps them. -/
theorem Apart.destroy_contents (h : Apart σ t s F) (hw : (σ.strs s).is_wrap_ = false) :
    (σ.shmDestroy t).contents s = σ.contents s := by
  have hs : (σ.shmDestroy t).strs s = σ.strs s := by
    rw [shmDestroy, act_strs, Function.update_of_ne h.ne.symm]
  have hread : ∀ p, σ.data s = some p →
      (∀ b ∈ (σ.strs t).owns (σ.cls t), p.region ≠ .block b) →
      (σ.shmDestroy t).contents s = σ.contents s := by
    intro p hp hb
    rw [contents_eq ((data_congr hs rfl).trans hp), contents_eq hp, hs]
    exact RegionMem.read_congr fun k _ => by rw [h.destroyed_read hb]
  rcases data_cases h.source with ⟨p, hw', -⟩ | ⟨-, -, hp⟩ | ⟨off, hh, htext, hp⟩
  · simp [hw] at hw'
  · exact hread _ hp nofun
  · refine hread _ hp fun b hb he => h.notMem hb ?_
    cases he
    rw [Str.owns_text hh htext]
    exact Multiset.mem_add.mpr (.inl (Multiset.mem_singleton_self _))

/-- The target as a copy of the source, both of which are there. -/
theorem Apart.created {text : CharPtr} (h : Apart σ t s F) :
    Apart (σ.createStr P t text n) s t ((σ.strs t).owns (σ.cls t) + F) := by
  have hcr := createStr_created (P := P) (σ := σ) (i := t) (n := n) text
  have ht : (σ.createStr P t text n).strs t =
      (Str.createStr P (σ.cls t) σ.heap (σ.strs t) n).1 := by simp [createStr]
  have hheap : (σ.createStr P t text n).heap =
      (Str.createStr P (σ.cls t) σ.heap (σ.strs t) n).2 := by simp [createStr]
  refine ⟨h.ne.symm, ?_, ?_, ?_⟩
  · rw [hcr.others s h.ne.symm, hcr.cls]
    exact h.source
  · rw [ht, hcr.cls]
    exact Str.createStr_ok
  · rw [hheap, ht, hcr.cls, hcr.others s h.ne.symm]
    have hc := Str.createStr_holds (P := P) (c := σ.cls t) (s := σ.strs t) (n := n) h.holds
    refine hc.congr ?_
    rw [add_left_comm ((σ.strs t).owns _), add_left_comm _ ((σ.strs s).owns _)]

/-- **Move assignment** replaces the value exactly where the target does not misread
what it took over. -/
theorem moveAssign_iff {bs : List UInt8} (h : Apart σ t s F) (hcls : σ.cls t = σ.cls s)
    (hsrc : σ.contents s = bs.map some) :
    Moved (σ.moveAssign P t s) t s bs ↔ ¬ Misreads σ t s := by
  unfold moveAssign
  rw [if_neg h.ne]
  by_cases hb : (σ.strs t).is_wrap_ = true ∨ (σ.strs t).alloc = (σ.strs s).alloc
  · rw [if_pos hb]
    have htarget : ((σ.moveCopy t s).setStr s ((σ.moveCopy t s).strs s).setNull).contents t =
        (σ.moveCopy t s).contents t := by
      have ht : ((σ.moveCopy t s).setStr s ((σ.moveCopy t s).strs s).setNull).strs t =
          (σ.moveCopy t s).strs t := by rw [setStr_strs, Function.update_of_ne h.ne]
      simp only [contents, data_congr ht rfl, ht]
      rfl
    have hsource : (((σ.moveCopy t s).setStr s ((σ.moveCopy t s).strs s).setNull).strs s).length_ =
        0 := by
      rw [setStr_strs, Function.update_self]
      rfl
    rcases moveCopy_contents h.ne hcls h.source with ⟨he, hnh⟩ | ⟨off, hh, htext, he⟩
    · refine iff_of_true ⟨htarget.trans (he.trans hsrc), hsource⟩ ?_
      rintro ⟨-, -, hh, -⟩
      exact hnh hh
    · have hmoved : Moved ((σ.moveCopy t s).setStr s ((σ.moveCopy t s).strs s).setNull) t s bs ↔
          σ.read ⟨.block ((σ.strs t).alloc, off), 0⟩ (σ.strs s).length_ = σ.contents s := by
        rw [hsrc]
        exact ⟨fun hm => (htarget.trans he).symm.trans hm.target,
          fun hr => ⟨htarget.trans (he.trans hr), hsource⟩⟩
      rw [hmoved]
      by_cases ha : (σ.strs t).alloc = (σ.strs s).alloc
      · refine iff_of_true ?_ fun hm => hm.2.1 ha
        rw [ha, contents_eq (data_heap hh htext)]
      · constructor
        · rintro hr ⟨-, -, -, off', htext', hne⟩
          cases htext.symm.trans htext'
          exact hne hr
        · intro hm
          by_contra hr
          exact hm ⟨hb.resolve_right ha, ha, hh, off, htext, hr⟩
  · rw [if_neg hb]
    obtain ⟨p, hp⟩ := exists_data h.source
    simp only [hp]
    refine iff_of_true ⟨?_, ?_⟩ fun hm => hb (.inl hm.1)
    · have hwrap : ((σ.createStr P t p (σ.strs s).length_).strs t).is_wrap_ = false := by
        simp [createStr, Str.createStr_wrap]
      rw [h.created.destroy_contents hwrap, (createStr_created _).contents, ← hsrc, contents_eq hp]
    · rw [shmDestroy, act_strs, Function.update_self]
      exact Str.shmDestroy_length

/-! ## Headers and blocks -/

/-- Of the header and the blocks a copy assignment makes what `Str.copyAssign` does. -/
theorem copyAssign_header (hne : t ≠ s) (hp : σ.data s = some p) :
    ((σ.copyAssign P t s).strs t, (σ.copyAssign P t s).heap) =
      Str.copyAssign P (σ.cls t) σ.heap (σ.strs t) p (σ.strs s).length_ := by
  simp only [copyAssign, hne, if_false, hp, copyOp, Str.copyAssign]
  split
  · simp [shmDestroy]
  · simp [shmDestroy, createStr]

theorem copyAssign_other {j : Nat} (hj : j ≠ t) : (σ.copyAssign P t s).strs j = σ.strs j := by
  unfold copyAssign
  split
  · rfl
  · split
    · simp only [copyOp]
      split <;> simp [shmDestroy, createStr, Function.update_of_ne hj]
    · rfl

theorem copyAssign_cls : (σ.copyAssign P t s).cls = σ.cls := by
  unfold copyAssign
  split
  · rfl
  · split
    · simp only [copyOp]
      split <;> simp [shmDestroy, createStr]
    · rfl

/-- **Copy assignment** leaves two strings that may be assigned again. -/
theorem Apart.copyAssign (h : Apart σ t s F) : Apart (σ.copyAssign P t s) t s F := by
  obtain ⟨p, hp⟩ := exists_data h.source
  obtain ⟨ht, hheap⟩ := Prod.ext_iff.mp (copyAssign_header (P := P) h.ne hp)
  simp only at ht hheap
  refine ⟨h.ne, ?_, ?_, ?_⟩
  · rw [ht, copyAssign_cls]
    exact Str.copyAssign_ok
  · rw [copyAssign_other h.ne.symm, copyAssign_cls]
    exact h.source
  · rw [hheap, ht, copyAssign_cls, copyAssign_other h.ne.symm]
    exact Str.copyAssign_holds h.target h.holds

theorem moveAssign_header (h : Apart σ t s F) (hcls : σ.cls t = σ.cls s) :
    ((σ.moveAssign P t s).strs t, (σ.moveAssign P t s).strs s, (σ.moveAssign P t s).heap) =
      Str.moveOp P (σ.cls t) σ.heap (σ.strs t) (σ.strs s) := by
  obtain ⟨p, hp⟩ := exists_data h.source
  have hne := h.ne
  simp only [moveAssign, hne, if_false, Str.moveOp, hp]
  split
  · have hheap : (σ.moveCopy t s).heap = σ.heap := by
      simp only [moveCopy]
      split <;> simp
    simp only [setStr_strs, setStr_heap, moveCopy_strs, Function.update_self,
      Function.update_of_ne hne, Function.update_of_ne hne.symm, hheap]
  · simp [shmDestroy, createStr, Function.update_of_ne hne, Function.update_of_ne hne.symm, hcls]

theorem moveAssign_cls : (σ.moveAssign P t s).cls = σ.cls := by
  unfold moveAssign
  split
  · rfl
  · split
    · exact moveCopy_cls
    · split
      · simp [shmDestroy, createStr]
      · rfl

/-- **Move assignment** that does not take over a block of another allocator leaves two
strings that may be assigned again; what the target had may be lost. -/
theorem Apart.moveAssign (h : Apart σ t s F) (hcls : σ.cls t = σ.cls s)
    (ha : (σ.strs t).is_wrap_ = true →
      (σ.strs t).alloc = (σ.strs s).alloc ∨ ¬ (σ.strs s).isHeap (σ.cls s)) :
    ∃ F', Apart (σ.moveAssign P t s) t s F' := by
  have hhead := moveAssign_header (P := P) h hcls
  obtain ⟨ht, hrest⟩ := Prod.ext_iff.mp hhead
  obtain ⟨hs, hheap⟩ := Prod.ext_iff.mp hrest
  simp only at ht hs hheap
  have hsource : (σ.strs s).Ok (σ.cls t) := by
    rw [hcls]
    exact h.source
  refine ⟨(σ.strs t).owns (σ.cls t) + F, h.ne, ?_, ?_, ?_⟩
  · rw [ht, moveAssign_cls]
    exact Str.moveOp_ok hsource
  · rw [hs, moveAssign_cls, ← hcls]
    exact Str.moveOp_other_ok hsource
  · rw [hheap, ht, hs, moveAssign_cls, ← hcls, ← add_assoc]
    refine Str.moveOp_holds hsource (h.holds.congr ?_) (by rw [hcls]; exact ha)
    rw [hcls, add_left_comm]

end Store

end HermesShm.Ipc.StringMemory
