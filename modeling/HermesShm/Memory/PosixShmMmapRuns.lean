import HermesShm.Memory.PosixShmMmapSteps

/-! # Runs of backends -/
namespace HermesShm.Memory.PosixShmMmap
open HermesShm.Base

variable {ι N κ : Type} [DecidableEq ι] [DecidableEq N] [DecidableEq κ] {G : Paging}
  {home : κ → ι} {K K' : System ι N κ} {o p : κ} {b b' : Backend N} {a : Act N} {out : Outcome}
  {f n w x y : Nat} {url : N} {st st' : Nat → Stage κ} {s t u : State ι N κ}
  {l : κ × Act N} {ls : List (κ × Act N)}

theorem Inv.proceed (h : Inv G home s st)
    (ha : proceed G (home o) o s.kernel (s.backends o) out = some (K', b')) :
    Next G home s st o ⟨K', Function.update s.backends o b'⟩ := by
  have hr := (h.each o).reached
  unfold PosixShmMmap.proceed at ha
  split at ha
  next id size url d hpc =>
    obtain ⟨K₁, hK, heq⟩ := Option.bind_eq_some_iff.mp ha
    cases heq
    exact h.created hpc hK
  next => cases ha; exact h.gave_up none
  next id size url hpc =>
    obtain ⟨d, hd, ha⟩ := Option.bind_eq_some_iff.mp ha
    obtain ⟨e, he, heq⟩ := Option.bind_eq_some_iff.mp ha
    rw [Reached, hpc] at hr
    cases hr.2.1.unique hd he
    cases heq
    exact h.truncated hpc
  next id size url hpc =>
    obtain ⟨d, hd, heq⟩ := Option.bind_eq_some_iff.mp ha
    cases heq
    exact h.truncate_failed hpc hd
  next id size v hpc =>
    obtain ⟨K₁, hK, heq⟩ := Option.bind_eq_some_iff.mp ha
    cases heq
    rw [Reached, hpc] at hr
    obtain ⟨hi, ho, hh, hd, hst, hf, hsize⟩ := hr
    refine h.mapHeader ho hh hd hf hi hK (fun _ hu => hu) fun ho hne => ?_
    exact ⟨hi, ho, hne, hd, hst, hsize⟩
  next => cases ha; exact h.gave_up _
  next id size hpc =>
    obtain ⟨K₁, hK, heq⟩ := Option.bind_eq_some_iff.mp ha
    cases heq
    exact h.headerWritten hpc hK
  next size v hpc =>
    obtain ⟨K₁, hK, heq⟩ := Option.bind_eq_some_iff.mp ha
    cases heq
    rw [Reached, hpc] at hr
    obtain ⟨hi, ho, hh, hd, hst, rfl⟩ := hr
    exact h.mapData ho hh hd hi hK (.inr hst)
  next => cases ha; exact h.gave_up _
  next v hpc =>
    obtain ⟨K₁, hK, heq⟩ := Option.bind_eq_some_iff.mp ha
    cases heq
    rw [Reached, hpc] at hr
    obtain ⟨hi, ho, hh, hd, hf⟩ := hr
    refine h.mapHeader ho hh hd hf hi hK (fun _ hu => hu) fun ho hne => ?_
    exact ⟨hi, ho, hne, hd⟩
  next => cases ha; exact h.gave_up _
  next hpc =>
    obtain ⟨n, hn, heq⟩ := Option.bind_eq_some_iff.mp ha
    cases heq
    exact h.sizeRead hpc hn
  next v hpc =>
    obtain ⟨K₁, hK, heq⟩ := Option.bind_eq_some_iff.mp ha
    cases heq
    rw [Reached, hpc] at hr
    obtain ⟨hi, ho, hh, hd, hst⟩ := hr
    exact h.mapData ho hh hd hi hK hst
  next => cases ha; exact h.gave_up _
  next => cases ha

omit [DecidableEq ι] [DecidableEq N] in
/-- A backend that is not initialized has nothing to detach. -/
theorem Inv.uninitialized {pc : Pc N} (h : Inv G home s st) (hpc : pc = .idle ∨ pc = .destructed) :
    Next G home s st o ⟨s.kernel, Function.update s.backends o { s.backends o with pc }⟩ := by
  refine h.move _ (.same rfl rfl rfl) h.world rfl (.mapped rfl rfl rfl rfl (.inr rfl)) ?_
    (h.pending ?_ fun p u _ hu => (h.unlinked p u hu).1)
  · rcases hpc with rfl | rfl <;> trivial
  · rcases hpc with rfl | rfl <;> exact fun _ hu => hu

omit [DecidableEq N] [DecidableEq κ] in
theorem detach_backend (G : Paging) (i : ι) (K : System ι N κ) (b : Backend N) :
    (detach G i K b).2 = { b with initialized := false } := by
  rw [detach]
  split
  · rfl
  · rename_i hi
    obtain ⟨_⟩ := b
    simp at hi
    simp [hi]

omit [DecidableEq κ] in
theorem destroy_backend (G : Paging) (i : ι) (K : System ι N κ) (b : Backend N) :
    (destroy G i K b).2 = { b with initialized := false } := by
  rw [destroy]
  split
  · dsimp only
    rw [detach_backend]
  · rename_i hi
    obtain ⟨_⟩ := b
    simp at hi
    simp [hi]

/-- `_Detach` and `_Destroy`: the backend is not initialized, and was detached if it was. -/
structure Effect (G : Paging) (K : System ι N κ) (i : ι) (b : Backend N)
    (r : System ι N κ × Backend N) : Prop where
  backend : r.2 = { b with initialized := false }
  detached : b.initialized → Detached G K r.1 i b
  same : ¬ b.initialized → r.1 = K

omit [DecidableEq ι] [DecidableEq N] [DecidableEq κ] in
theorem Effect.idle {i : ι} {r : System ι N κ × Backend N} (he : Effect G K i b r)
    (hpc : b.pc = .idle) : r.2 = { r.2 with pc := .idle } := by
  rw [he.backend, ← hpc]

omit [DecidableEq N] [DecidableEq κ] in
theorem detach_effect {i : ι} (hb : Holds G K st i o b) : Effect G K i b (detach G i K b) :=
  ⟨detach_backend .., detach_detached hb, fun hi => by rw [detach, if_neg hi]⟩

omit [DecidableEq κ] in
theorem destroy_effect {i : ι} (hb : Holds G K st i o b) : Effect G K i b (destroy G i K b) :=
  ⟨destroy_backend .., destroy_detached hb, fun hi => by rw [destroy, if_neg hi]⟩

omit [DecidableEq ι] [DecidableEq N] in
theorem Inv.detach {pc : Pc N} {r : System ι N κ × Backend N} (h : Inv G home s st)
    (he : Effect G s.kernel (home o) (s.backends o) r) (hok : Detachable G home s o)
    (hpc : pc = .idle ∨ pc = .destructed) :
    Next G home s st o ⟨r.1, Function.update s.backends o { r.2 with pc }⟩ := by
  rw [he.backend]
  by_cases hi : (s.backends o).initialized = true
  · exact h.detached hok hi (he.detached hi) hpc
  · rw [he.same hi]
    have hnext := h.uninitialized (o := o) hpc
    rwa [← Bool.eq_false_of_not_eq_true hi]

theorem Inv.act (h : Inv G home s st) (hok : Ok G home s (o, a))
    (ha : act G (home o) o s.kernel (s.backends o) a = some (K', b')) :
    Next G home s st o ⟨K', Function.update s.backends o b'⟩ := by
  cases a with
  | proceed out => exact h.proceed ha
  | shmInit id size url =>
    simp only [PosixShmMmap.act] at ha
    split at ha
    · cases ha
      obtain ⟨hh, hd, hsize, hnone⟩ := hok
      exact h.shmInit hh hd hsize hnone
    · cases ha
  | shmDeserialize url fd =>
    simp only [PosixShmMmap.act] at ha
    split at ha
    · rename_i hpc
      obtain ⟨hh, hd⟩ := hok
      cases fd with
      | none =>
        cases ha
        exact h.shmDeserialize_failed hpc hh hd
      | some d =>
        obtain ⟨f, hf, ha⟩ := Option.bind_eq_some_iff.mp ha
        obtain ⟨K₁, hK, heq⟩ := Option.bind_eq_some_iff.mp ha
        cases heq
        exact h.shmDeserialize hh hd hf hK
    · cases ha
  | shmDetach =>
    simp only [PosixShmMmap.act] at ha
    split at ha
    · rename_i hpc
      have he := detach_effect (h.each o)
      rw [Option.some.inj ha] at he
      rw [show b' = _ from he.idle hpc]
      exact h.detach he hok (.inl rfl)
    · cases ha
  | shmDestroy =>
    simp only [PosixShmMmap.act] at ha
    split at ha
    · rename_i hpc
      have he := destroy_effect (h.each o)
      rw [Option.some.inj ha] at he
      rw [show b' = _ from he.idle hpc]
      exact h.detach he hok (.inl rfl)
    · cases ha
  | destruct =>
    simp only [PosixShmMmap.act] at ha
    split at ha
    · have heq := Option.some.inj ha
      simp only [PosixShmMmap.destruct] at heq
      split at heq
      · cases heq
        exact h.detach (destroy_effect (h.each o)) hok (.inr rfl)
      · cases heq
        exact h.detach (detach_effect (h.each o)) hok (.inr rfl)
    · cases ha
  | store x byte =>
    obtain ⟨hready, hx⟩ := hok
    simp only [PosixShmMmap.act, if_pos hready.1] at ha
    obtain ⟨K₁, hK, heq⟩ := Option.map_eq_some_iff.mp ha
    cases heq
    obtain rfl := ((h.each o).data hready.2.1 hready.2.2).mapped.store hx hK
    rw [Function.update_eq_self]
    have h16 : hdr_size_ = 16384 := rfl
    exact h.write hready (ByteMem.load_congr fun y _ hy => Function.update_of_ne (by omega) ..)
  | setHasAlloc =>
    simp only [PosixShmMmap.act, if_pos hok.1] at ha
    obtain ⟨flags, -, ha⟩ := Option.bind_eq_some_iff.mp ha
    obtain ⟨K₁, hK, heq⟩ := Option.bind_eq_some_iff.mp ha
    cases heq
    have hdata := (h.each o).data hok.2.1 hok.2.2
    have hm : s.kernel.Mapped G (home o) ((s.backends o).header_ + 16) 8 (s.backends o).object
      (0 + 16) := (((h.each o).header hdata.header).mapped hok.2.1).sub (by decide)
    obtain rfl := hm.storeWord hK
    rw [Function.update_eq_self]
    exact h.write hok (ByteMem.load_congr
      ((ByteMem.store_sameOff _ _ _ _).sameOn (.inr (Nat.le_add_left ..))))

theorem Inv.step (h : Inv G home s st) (hok : Ok G home s l) (hs : step G home s l = some t) :
    Next G home s st l.1 t := by
  obtain ⟨⟨K', b'⟩, ha, rfl⟩ := Option.map_eq_some_iff.mp hs
  exact h.act hok ha

theorem run_inv (hi : Initial s) (hr : Run (PosixShmMmap.step G home) (Ok G home) s ls t) :
    ∃ st, Inv G home t st := by
  refine hr.invariant (I := fun t => ∃ st, Inv G home t st)
    ⟨_, init_inv hi fun _ => .formatted 0⟩ ?_
  intro t l u ⟨st, h⟩ hok hs
  obtain ⟨st', h', -⟩ := h.step hok hs
  exact ⟨st', h'⟩

end HermesShm.Memory.PosixShmMmap
