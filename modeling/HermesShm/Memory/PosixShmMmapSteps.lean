import HermesShm.Memory.PosixShmMmapSound

/-! # The steps of a backend -/
namespace HermesShm.Memory.PosixShmMmap
open HermesShm.Base

variable {ι N κ : Type} {G : Paging} {home : κ → ι} {K K' : System ι N κ} {o : κ} {i : ι}
  {b b' : Backend N} {f k w d n v x id size : Nat} {url : N} {tag : Tag κ} {byte : UInt8}
  {st st' : Nat → Stage κ} {s t : State ι N κ}

/-- The backend has nothing mapped before and after the step, or the same. -/
inductive Same (b b' : Backend N) : Prop
  | unmapped (hh : b.header_ = 0) (hd : b.data_ = 0) (hh' : b'.header_ = 0) (hd' : b'.data_ = 0)
  | mapped (hobj : b'.object = b.object) (hi : b'.initialized = b.initialized)
      (hh : b'.header_ = b.header_) (hd : b'.data_ = b.data_)
      (hsize : b.data_ = 0 ∨ b'.data_size_ = b.data_size_)

theorem Tagged.not_null (h : Tagged G b w f k tag) (hh : b.header_ = 0) (hd : b.data_ = 0) :
    False := by
  cases tag with
  | header _ => exact h.2.1 hh
  | data _ => exact h.2.2.1 hd

theorem Tagged.same (h : Tagged G b w f k tag) (hs : Same b b') : Tagged G b' w f k tag := by
  cases hs with
  | unmapped hh hd => exact (h.not_null hh hd).elim
  | mapped hobj hi hh hd hsize =>
    cases tag with
    | header _ =>
      rw [Tagged, hobj, hi, hh]
      exact h
    | data _ =>
      rw [Tagged, hobj, hi, hd, hsize.resolve_left h.2.2.1]
      exact h

theorem Holds.same (hb : Holds G K st i o b) (hs : Same b b') (hev : Evolves o K K' st st')
    (htab : K'.tables = K.tables) (hr : Reached K' st' i o b') : Holds G K' st' i o b' := by
  refine ⟨hr, fun hh' => ?_, fun hi' hd' => ?_⟩
  · cases hs with
    | unmapped _ _ hn => exact absurd hn hh'
    | mapped hobj hi hh =>
      obtain ⟨hf, ha, hbound, hpages⟩ := hb.header (hh ▸ hh')
      rw [← hh] at ha hbound hpages
      rw [← hobj] at hf hpages
      rw [← hi, ← htab] at hpages
      exact ⟨Nat.lt_of_lt_of_le hf hev.count, ha, hbound, hpages⟩
  · cases hs with
    | unmapped _ _ _ hn => exact absurd hn hd'
    | mapped hobj hi hh hd hsize =>
      have hne : b.data_ ≠ 0 := hd ▸ hd'
      obtain ⟨hhd, ha, hoff, hpos, hbound, hst, hpages⟩ := hb.data (hi ▸ hi') hne
      have hst := hev.formatted (hb.header hhd).object hst
      have hsize := hsize.resolve_left hne
      rw [← hd] at ha hbound hpages
      rw [← hobj] at hst hpages
      rw [← hsize] at hpos hbound hst hpages
      rw [← htab] at hpages
      exact ⟨hh ▸ hhd, ha, hoff, hpos, hbound, hst, hpages⟩

/-- The invariant after a step of backend `o`, and what the step keeps. -/
def Next (G : Paging) (home : κ → ι) (s : State ι N κ) (st : Nat → Stage κ) (o : κ)
    (t : State ι N κ) : Prop :=
  ∃ st', Inv G home t st' ∧ Evolves o s.kernel t.kernel st st'

theorem openFd_eq [DecidableEq ι] (h : K.openFd i d f o = some K') :
    K'.tables = K.tables ∧ K'.names = K.names ∧ K'.objects = K.objects ∧ K'.count = K.count ∧
      K'.fds i d = some (f, o) := by
  rw [Kernel.openFd] at h
  split at h
  · cases h
    exact ⟨rfl, rfl, rfl, rfl, by simp only [Function.update_self]⟩
  · cases h

theorem World.congr (h : World K st) (htab : K'.tables = K.tables) (hn : K'.names = K.names)
    (hobj : K'.objects = K.objects) (hc : K'.count = K.count) : World K' st :=
  ⟨htab ▸ h.null, by rw [hn, hc]; exact h.names, by rw [hobj, hc]; exact h.staged⟩

variable [DecidableEq κ]

theorem Inv.move (h : Inv G home s st) (st' : Nat → Stage κ)
    (hev : Evolves o s.kernel K' st st') (hw : World K' st')
    (htab : K'.tables = s.kernel.tables) (hs : Same (s.backends o) b')
    (hr : Reached K' st' (home o) o b')
    (hu : ∀ p url, (Function.update s.backends o b' p).pc.Unlinked url → K'.names url = none ∧
      ∀ q, (Function.update s.backends o b' q).pc.Unlinked url → q = p) :
    Next G home s st o ⟨K', Function.update s.backends o b'⟩ := by
  refine ⟨st', h.update hev hw ((h.each o).same hs hev htab hr) (fun i w f k tag hown hkw => ?_) hu,
    hev⟩
  rw [htab] at hkw
  have ht := h.tags i w f k tag hkw
  rw [hown] at ht
  exact ⟨ht.1, ht.2.same hs⟩

/-- A backend that is not about to create a name leaves those that are. -/
theorem Inv.pending (h : Inv G home s st) (hpc : ∀ u, ¬ b'.pc.Unlinked u)
    (hn : ∀ p u, p ≠ o → (s.backends p).pc.Unlinked u → K'.names u = none) :
    ∀ p u, (Function.update s.backends o b' p).pc.Unlinked u → K'.names u = none ∧
      ∀ q, (Function.update s.backends o b' q).pc.Unlinked u → q = p := by
  intro p u hp
  have hne : ∀ q, (Function.update s.backends o b' q).pc.Unlinked u →
      q ≠ o ∧ (s.backends q).pc.Unlinked u := by
    intro q hq
    obtain rfl | hne := eq_or_ne q o
    · rw [Function.update_self] at hq
      exact absurd hq (hpc u)
    · rw [Function.update_of_ne hne] at hq
      exact ⟨hne, hq⟩
  obtain ⟨hpo, hp⟩ := hne p hp
  exact ⟨hn p u hpo hp, fun q hq => (h.unlinked p u hp).2 q (hne q hq).2⟩

/-! ## Opening -/

theorem Inv.shmInit [DecidableEq N] (h : Inv G home s st) (hh : (s.backends o).header_ = 0)
    (hd : (s.backends o).data_ = 0) (hsize : size < sizeT)
    (hnone : ∀ p, ¬ (s.backends p).pc.Unlinked url) :
    Next G home s st o ⟨s.kernel.unlink url, Function.update s.backends o { s.backends o with
      initialized := true, owned := true, pc := .unlinked id size url }⟩ := by
  refine h.move _ (.same rfl rfl rfl) (h.world.unlink url) rfl (.unmapped hh hd hh hd)
    ⟨rfl, hh, hd, hsize⟩ fun p u hp => ?_
  have hcases : ∀ q, (Function.update s.backends o { s.backends o with
      initialized := true, owned := true, pc := .unlinked id size url } q).pc.Unlinked u →
      (q = o ∧ u = url) ∨ (q ≠ o ∧ (s.backends q).pc.Unlinked u) := by
    intro q hq
    obtain rfl | hne := eq_or_ne q o
    · rw [Function.update_self] at hq
      exact .inl ⟨rfl, Eq.symm hq⟩
    · rw [Function.update_of_ne hne] at hq
      exact .inr ⟨hne, hq⟩
  rcases hcases p hp with ⟨rfl, rfl⟩ | ⟨hne, hpu⟩
  · refine ⟨Function.update_self .., fun q hq => ?_⟩
    rcases hcases q hq with ⟨hqo, -⟩ | ⟨-, hqu⟩
    · exact hqo
    · exact absurd hqu (hnone q)
  · have hu : u ≠ url := fun hu => hnone p (hu ▸ hpu)
    refine ⟨(Function.update_of_ne hu ..).trans (h.unlinked p u hpu).1, fun q hq => ?_⟩
    rcases hcases q hq with ⟨-, huu⟩ | ⟨-, hqu⟩
    · exact absurd huu hu
    · exact (h.unlinked p u hpu).2 q hqu

theorem Inv.shmDeserialize_failed (h : Inv G home s st) (hpc : (s.backends o).pc = .idle)
    (hh : (s.backends o).header_ = 0) (hd : (s.backends o).data_ = 0) :
    Next G home s st o ⟨s.kernel, Function.update s.backends o { s.backends o with
      initialized := true, owned := false, fd_ := none }⟩ := by
  refine h.move _ (.same rfl rfl rfl) h.world rfl (.unmapped hh hd hh hd) ?_
    (h.pending (fun u hu => ?_) fun p u _ hu => (h.unlinked p u hu).1)
  · rw [Reached]
    dsimp only
    rw [hpc]
    trivial
  · dsimp only at hu
    rw [hpc] at hu
    exact hu

variable [DecidableEq ι]

theorem Inv.shmDeserialize (h : Inv G home s st) (hh : (s.backends o).header_ = 0)
    (hd : (s.backends o).data_ = 0) (hurl : s.kernel.names url = some f)
    (hK : s.kernel.openFd (home o) d f o = some K') :
    Next G home s st o ⟨K', Function.update s.backends o { s.backends o with
      initialized := true, owned := false, fd_ := some d, object := f, pc := .opened }⟩ := by
  obtain ⟨htab, hn, hobj, hc, hfd⟩ := openFd_eq hK
  refine h.move _ (.openFd hK) (h.world.congr htab hn hobj hc) htab (.unmapped hh hd hh hd)
    ⟨rfl, ⟨d, rfl, hfd⟩, hh, hd, ?_⟩ (h.pending (fun _ hu => hu) fun p u _ hu => ?_)
  · dsimp only
    rw [hc]
    exact h.world.names url f hurl
  · rw [hn]
    exact (h.unlinked p u hu).1

/-- `shm_init` opens the name that it has removed: the object is new. -/
theorem Inv.created [DecidableEq N] (h : Inv G home s st)
    (hpc : (s.backends o).pc = .unlinked id size url)
    (hK : (s.kernel.create url).1.openFd (home o) d (s.kernel.create url).2 o = some K') :
    Next G home s st o ⟨K', Function.update s.backends o { s.backends o with
      fd_ := some d, object := (s.kernel.create url).2, pc := .created id size url }⟩ := by
  have hr := (h.each o).reached
  rw [Reached, hpc] at hr
  obtain ⟨hi, hh, hd, hsize⟩ := hr
  obtain ⟨hname, honly⟩ := h.unlinked o url (by rw [hpc]; rfl)
  obtain ⟨htab, hn, hobj, hc, hfd⟩ := openFd_eq hK
  have hworld := h.world.create hname o size
  have heq := create_eq hname
  refine h.move (Function.update st s.kernel.count (.empty o size))
    ((Evolves.create hname).trans (.openFd hK)) (hworld.congr htab hn hobj hc) ?_
    (.unmapped hh hd hh hd) ⟨hi, ⟨d, rfl, hfd⟩, hh, hd, ?_, ?_, hsize⟩
    (h.pending (fun _ hu => hu) fun p u hne hu => ?_)
  · rw [htab, heq]
  · dsimp only
    rw [heq, Function.update_self]
  · dsimp only
    rw [hc, heq]
    exact Nat.lt_succ_self _
  · have hu' : u ≠ url := by
      rintro rfl
      exact hne (honly p hu)
    rw [hn, heq]
    exact (Function.update_of_ne hu' ..).trans (h.unlinked p u hu).1

omit [DecidableEq ι] in
/-- A call that fails leaves what it has done. -/
theorem Inv.gave_up (h : Inv G home s st) (fd : Option Nat) :
    Next G home s st o ⟨s.kernel, Function.update s.backends o { s.backends o with
      fd_ := fd, pc := .idle }⟩ :=
  h.move _ (.same rfl rfl rfl) h.world rfl (.mapped rfl rfl rfl rfl (.inr rfl)) trivial
    (h.pending (fun _ hu => hu) fun p u _ hu => (h.unlinked p u hu).1)

/-! ## The object of a creator -/

omit [DecidableEq ι] [DecidableEq κ] in
theorem Open.unique {e : Nat × κ} (ho : Open K i o b) (hd : b.fd_ = some d)
    (he : K.fds i d = some e) : e = (b.object, o) := by
  obtain ⟨d', hd', hfd⟩ := ho
  obtain rfl := Option.some.inj (hd.symm.trans hd')
  exact Option.some.inj (he.symm.trans hfd)

omit [DecidableEq ι] in
theorem Inv.truncated (h : Inv G home s st)
    (hpc : (s.backends o).pc = .created id size url) :
    Next G home s st o ⟨s.kernel.truncate (s.backends o).object (wordAdd sizeT size hdr_size_),
      Function.update s.backends o { s.backends o with
        url_ := url, pc := .truncated id size }⟩ := by
  have hr := (h.each o).reached
  rw [Reached, hpc] at hr
  obtain ⟨hi, ho, hh, hd, hst, hf, hsize⟩ := hr
  have hs := h.world.staged _ hf
  rw [hst] at hs
  refine h.move (Function.update st (s.backends o).object (.sized o size))
    (.setStage (by rw [hst]; rfl) (by rw [hst]; rfl)) (h.world.setStage ⟨rfl, fun x => ?_⟩) rfl
    (.unmapped hh hd hh hd) ⟨hi, ho, hh, hd, Function.update_self .., hf, hsize⟩
    (h.pending (fun _ hu => hu) fun p u _ hu => (h.unlinked p u hu).1)
  dsimp only
  rw [hs.2 x, ite_self]

theorem Inv.truncate_failed (h : Inv G home s st)
    (hpc : (s.backends o).pc = .created id size url) (hd : (s.backends o).fd_ = some d) :
    Next G home s st o ⟨s.kernel.close (home o) d, Function.update s.backends o { s.backends o with
      pc := .idle }⟩ := by
  have hr := (h.each o).reached
  rw [Reached, hpc] at hr
  refine h.move _ (.close fun e he => ?_) ⟨h.world.null, h.world.names, h.world.staged⟩ rfl
    (.mapped rfl rfl rfl rfl (.inr rfl)) trivial
    (h.pending (fun _ hu => hu) fun p u _ hu => (h.unlinked p u hu).1)
  rw [hr.2.1.unique hd he]

omit [DecidableEq ι] in
theorem Inv.headerWritten (h : Inv G home s st)
    (hpc : (s.backends o).pc = .headerMapped id size)
    (hK : writeHeader G (home o) s.kernel (s.backends o).header_ id size = some K') :
    Next G home s st o ⟨K', Function.update s.backends o { s.backends o with
      data_size_ := size, pc := .headerWritten size }⟩ := by
  have hr := (h.each o).reached
  rw [Reached, hpc] at hr
  obtain ⟨hi, ho, hh, hd, hst, hsize⟩ := hr
  have hpages := (h.each o).header hh
  obtain ⟨bs, rfl, hload⟩ := writeHeader_eq (hpages.mapped hi) hsize hK
  have hs := h.world.staged _ hpages.object
  rw [hst] at hs
  exact h.move (Function.update st (s.backends o).object (.formatted size))
    (.setStage (by rw [hst]; rfl) (by rw [hst]; rfl)) (h.world.setStage ⟨hs.1, hload⟩) rfl
    (.mapped rfl rfl rfl rfl (.inl hd)) ⟨hi, ho, hh, hd, Function.update_self .., rfl⟩
    (h.pending (fun _ hu => hu) fun p u _ hu => (h.unlinked p u hu).1)

omit [DecidableEq ι] in
/-- The size is that of a finished header, or zero. -/
theorem Inv.sizeRead (h : Inv G home s st) (hpc : (s.backends o).pc = .headerFound)
    (hn : s.kernel.loadWord G (home o) (s.backends o).header_ 8 = some n) :
    Next G home s st o ⟨s.kernel, Function.update s.backends o { s.backends o with
      data_size_ := n, pc := .sizeRead }⟩ := by
  have hr := (h.each o).reached
  rw [Reached, hpc] at hr
  obtain ⟨hi, ho, hh, hd⟩ := hr
  have hpages := (h.each o).header hh
  have hm : s.kernel.Mapped G (home o) ((s.backends o).header_ + 0) 8 (s.backends o).object
    (0 + 0) := (hpages.mapped hi).sub (by decide)
  obtain rfl := hm.loadWord hn
  refine h.move _ (.same rfl rfl rfl) h.world rfl (.mapped rfl rfl rfl rfl (.inl hd))
    ⟨hi, ho, hh, hd, ?_⟩ (h.pending (fun _ hu => hu) fun p u _ hu => (h.unlinked p u hu).1)
  have hs := h.world.staged _ hpages.object
  dsimp only
  cases hst : st (s.backends o).object with
  | empty p m =>
    rw [hst] at hs
    exact .inl (load_of_zero hs.2 ..)
  | sized p m =>
    rw [hst] at hs
    exact .inl (load_of_zero hs.2 ..)
  | formatted m =>
    rw [hst] at hs
    exact .inr (congrArg Stage.formatted hs.2.symm)

/-! ## Mapping -/

theorem Inv.mapHeader {pc : Pc N} (h : Inv G home s st)
    (ho : Open s.kernel (home o) o (s.backends o))
    (hh : (s.backends o).header_ = 0) (hd : (s.backends o).data_ = 0)
    (hf : (s.backends o).object < s.kernel.count) (hi : (s.backends o).initialized)
    (hK : shmMap G (home o) s.kernel (s.backends o) hdr_size_ 0 v (.header o) = some K')
    (hpc : ∀ u, ¬ pc.Unlinked u)
    (hr : Open K' (home o) o (s.backends o) → v * G.bytes ≠ 0 → Reached K' st (home o) o
      { s.backends o with header_ := v * G.bytes, pc }) :
    Next G home s st o ⟨K', Function.update s.backends o { s.backends o with
      header_ := v * G.bytes, pc }⟩ := by
  obtain ⟨-, -, hv, hbound, hfree, rfl⟩ := shmMap_eq hK ho
  have hdiv : v * G.bytes / G.bytes = v := Nat.mul_div_cancel _ G.pos
  have hzero : 0 / G.bytes = 0 := Nat.zero_div _
  have hev : Evolves o s.kernel (s.kernel.setTable (home o) ((s.kernel.tables (home o)).map v
    (G.pagesOf hdr_size_) (s.backends o).object (0 / G.bytes) (.header o))) st st :=
    .map hfree rfl
  refine ⟨st, h.update hev (h.world.setTable hv) ⟨hr ho (Nat.mul_ne_zero (Nat.ne_of_gt hv)
    (Nat.ne_of_gt G.pos)), fun _ => ⟨hf, Nat.mul_mod_left .., ?_, fun w hw hw' _ => ?_⟩,
      fun _ hd' => absurd hd hd'⟩ (fun i w f k tag hown hkw => ?_)
    (h.pending hpc fun p u _ hu => (h.unlinked p u hu).1), hev⟩
  · dsimp only
    rw [hdiv]
    exact hbound
  · dsimp only at hw hw' ⊢
    rw [hdiv] at hw hw' ⊢
    rw [setTable_in hw hw', hzero, Nat.zero_add]
  · rcases setTable_cases hkw with hold | ⟨rfl, hw, hw', heq⟩
    · have ht := (h.tags i w f k tag hold).2
      rw [hown] at ht
      exact (ht.not_null hh hd).elim
    · cases heq
      refine ⟨rfl, rfl, Nat.mul_ne_zero (Nat.ne_of_gt hv) (Nat.ne_of_gt G.pos), ?_⟩
      dsimp only
      rw [hdiv, hzero, Nat.zero_add]
      exact ⟨hw, hw', rfl, .inl hi⟩

theorem Inv.mapData (h : Inv G home s st) (ho : Open s.kernel (home o) o (s.backends o))
    (hh : (s.backends o).header_ ≠ 0) (hd : (s.backends o).data_ = 0)
    (hi : (s.backends o).initialized)
    (hK : shmMap G (home o) s.kernel (s.backends o) (s.backends o).data_size_ hdr_size_ v
      (.data o) = some K')
    (hst : (s.backends o).data_size_ = 0 ∨
      st (s.backends o).object = .formatted (s.backends o).data_size_) :
    Next G home s st o ⟨K', Function.update s.backends o { s.backends o with
      data_ := v * G.bytes, pc := .idle }⟩ := by
  obtain ⟨hoff, hpos, hv, hbound, hfree, rfl⟩ := shmMap_eq hK ho
  have hdiv : v * G.bytes / G.bytes = v := Nat.mul_div_cancel _ G.pos
  have hst := hst.resolve_left (Nat.ne_of_gt hpos)
  have hev : Evolves o s.kernel (s.kernel.setTable (home o) ((s.kernel.tables (home o)).map v
    (G.pagesOf (s.backends o).data_size_) (s.backends o).object (hdr_size_ / G.bytes)
    (.data o))) st st := .map hfree rfl
  obtain ⟨hf, ha, hhb, hpages⟩ := (h.each o).header hh
  refine ⟨st, h.update hev (h.world.setTable hv) ⟨trivial, fun _ => ⟨hf, ha, hhb,
    fun w hw hw' hl => setTable_of_some hfree (hpages w hw hw' hl)⟩, fun _ _ => ⟨hh,
      Nat.mul_mod_left .., hoff, hpos, ?_, hst, fun w hw hw' => ?_⟩⟩
    (fun i w f k tag hown hkw => ?_)
    (h.pending (fun _ hu => hu) fun p u _ hu => (h.unlinked p u hu).1), hev⟩
  · dsimp only
    rw [hdiv]
    exact hbound
  · dsimp only at hw hw' ⊢
    rw [hdiv] at hw hw' ⊢
    exact setTable_in hw hw'
  · rcases setTable_cases hkw with hold | ⟨rfl, hw, hw', heq⟩
    · have ht := h.tags i w f k tag hold
      rw [hown] at ht
      refine ⟨ht.1, ?_⟩
      cases tag with
      | header _ => exact ht.2
      | data _ => exact absurd hd ht.2.2.2.1
    · cases heq
      refine ⟨rfl, rfl, hi, Nat.mul_ne_zero (Nat.ne_of_gt hv) (Nat.ne_of_gt G.pos), ?_⟩
      dsimp only
      rw [hdiv]
      exact ⟨hw, hw', rfl⟩

/-! ## Detaching -/

/-- What `_Detach` and `_Destroy` do to the system. -/
structure Detached (G : Paging) (K K' : System ι N κ) (i : ι) (b : Backend N) : Prop where
  objects : K'.objects = K.objects
  count : K'.count = K.count
  names : ∀ u f, K'.names u = some f → K.names u = some f
  old : ∀ j w fr, K'.tables j w = some fr → K.tables j w = some fr
  header : b.header_ ≠ 0 → K'.tables i (b.header_ / G.bytes) = none
  data : b.data_ ≠ 0 → ∀ w, b.data_ / G.bytes ≤ w →
    w < b.data_ / G.bytes + G.pagesOf b.data_size_ → K'.tables i w = none
  kept : ∀ j w fr, K.tables j w = some fr → (j = i → w ≠ b.header_ / G.bytes ∧
    (w < b.data_ / G.bytes ∨ b.data_ / G.bytes + G.pagesOf b.data_size_ ≤ w)) →
    K'.tables j w = some fr
  fds : ∀ j d e, K.fds j d = some e → (b.fd_ = some d → j ≠ i) → K'.fds j d = some e

omit [DecidableEq κ] in
theorem closeSharedMemory_eq (i : ι) (K : System ι N κ) (b : Backend N) :
    (closeSharedMemory i K b).objects = K.objects ∧ (closeSharedMemory i K b).count = K.count ∧
      (closeSharedMemory i K b).names = K.names ∧ (closeSharedMemory i K b).tables = K.tables ∧
      ∀ j d e, K.fds j d = some e → (b.fd_ = some d → j ≠ i) →
        (closeSharedMemory i K b).fds j d = some e := by
  rw [closeSharedMemory]
  cases hfd : b.fd_ with
  | none => exact ⟨rfl, rfl, rfl, rfl, fun _ _ _ h _ => h⟩
  | some d =>
    refine ⟨rfl, rfl, rfl, rfl, fun j e x hx hne => ?_⟩
    simp only [Kernel.close]
    obtain rfl | hj := eq_or_ne j i
    · have he : e ≠ d := fun he => hne (by rw [he]) rfl
      rw [Function.update_self, Function.update_of_ne he, hx]
    · rw [Function.update_of_ne hj, hx]

omit [DecidableEq κ] in
theorem detach_detached (hb : Holds G K st i o b) (hi : b.initialized) :
    Detached G K (detach G i K b).1 i b := by
  rw [detach, if_pos hi]
  dsimp only
  generalize hK₁ : K.munmap G i b.header_ G.bytes = K₁
  generalize hK₂ : K₁.munmap G i b.data_ b.data_size_ = K₂
  obtain ⟨hobj, hcount, hnames, htab, hfds⟩ := closeSharedMemory_eq i K₂ b
  have hold : ∀ j w fr, K₂.tables j w = some fr → K₁.tables j w = some fr :=
    fun j w fr h => Kernel.munmap_old (hK₂ ▸ h)
  have hold₁ : ∀ j w fr, K₁.tables j w = some fr → K.tables j w = some fr :=
    fun j w fr h => Kernel.munmap_old (hK₁ ▸ h)
  refine ⟨?_, ?_, fun u f h => ?_, fun j w fr h => ?_, fun hh => ?_, fun hd w hw hw' => ?_,
    fun j w fr h hout => ?_, fun j d e h hne => ?_⟩
  · rw [hobj, ← hK₂, ← hK₁, Kernel.munmap_objects, Kernel.munmap_objects]
  · rw [hcount, ← hK₂, ← hK₁, Kernel.munmap_count, Kernel.munmap_count]
  · rwa [hnames, ← hK₂, ← hK₁, Kernel.munmap_names, Kernel.munmap_names] at h
  · rw [htab] at h
    exact hold₁ j w fr (hold j w fr h)
  · obtain ⟨-, ha, hbound, -⟩ := hb.header hh
    have hone := Nat.le_trans (Nat.add_le_add_left
      (show 1 ≤ G.pagesOf hdr_size_ from Paging.pagesOf_pos (by decide)) _) hbound
    cases hfr : (closeSharedMemory i K₂ b).tables i (b.header_ / G.bytes) with
    | none => rfl
    | some fr =>
      rw [htab] at hfr
      have hfr := hold i _ fr hfr
      rw [← hK₁] at hfr
      have := Kernel.munmap_out ha G.pos (by rw [Paging.pagesOf_bytes]; exact hone) hfr
      rw [Paging.pagesOf_bytes] at this
      omega
  · obtain ⟨-, ha, -, hpos, hbound, -, -⟩ := hb.data hi hd
    cases hfr : (closeSharedMemory i K₂ b).tables i w with
    | none => rfl
    | some fr =>
      rw [htab, ← hK₂] at hfr
      have := Kernel.munmap_out ha hpos hbound hfr
      omega
  · rw [htab, ← hK₂]
    refine Kernel.munmap_kept ?_ fun hj => (hout hj).2
    rw [← hK₁]
    refine Kernel.munmap_kept h fun hj => ?_
    have := (hout hj).1
    rw [Paging.pagesOf_bytes]
    omega
  · refine hfds j d e ?_ hne
    rwa [← hK₂, ← hK₁, Kernel.munmap_fds, Kernel.munmap_fds]

omit [DecidableEq κ] in
/-- `_Destroy` does what `_Detach` does, and removes the name. -/
theorem destroy_detached [DecidableEq N] (hb : Holds G K st i o b) (hi : b.initialized) :
    Detached G K (destroy G i K b).1 i b := by
  obtain ⟨hobj, hcount, hnames, hold, hheader, hdata, hkept, hfds⟩ := detach_detached hb hi
  rw [destroy, if_pos hi]
  refine ⟨hobj, hcount, fun u f h => ?_, hold, hheader, hdata, hkept, hfds⟩
  simp only [Kernel.unlink] at h
  by_cases hu : u = (detach G i K b).2.url_
  · rw [hu, Function.update_self] at h
    cases h
  · rw [Function.update_of_ne hu] at h
    exact hnames u f h

omit [DecidableEq ι] in
theorem Inv.detached {pc : Pc N} (h : Inv G home s st)
    (hok : Detachable G home s o) (hi : (s.backends o).initialized)
    (hD : Detached G s.kernel K' (home o) (s.backends o)) (hpc : pc = .idle ∨ pc = .destructed) :
    Next G home s st o ⟨K', Function.update s.backends o { s.backends o with
      initialized := false, pc }⟩ := by
  obtain ⟨hfree, hfd⟩ := hok hi
  have hb := h.each o
  -- what is mapped where `_Detach` unmaps is of the backend itself
  have hheader : ∀ f k tag, s.kernel.tables (home o) ((s.backends o).header_ / G.bytes) =
      some (.shm f k tag) → tag = .header o := by
    intro f k tag hw
    by_cases hh : (s.backends o).header_ = 0
    · rw [hh, Nat.zero_div, h.world.null] at hw
      cases hw
    · have hpage := (hb.header hh).pages _ (Nat.le_refl _)
        (Nat.lt_add_of_pos_right (Paging.pagesOf_pos (by decide))) (.inl hi)
      rw [hpage] at hw
      cases hw
      rfl
  have hdata : ∀ w f k tag, s.kernel.tables (home o) w = some (.shm f k tag) →
      tag ≠ .data o → w < (s.backends o).data_ / G.bytes ∨
        (s.backends o).data_ / G.bytes + G.pagesOf (s.backends o).data_size_ ≤ w := by
    intro w f k tag hw hne
    by_contra hin
    by_cases hd : (s.backends o).data_ = 0
    · rw [hd, Nat.zero_div] at hin
      rw [(hfree hd).apply (by omega) (by omega)] at hw
      cases hw
    · rw [(hb.data hi hd).pages w (by omega) (by omega)] at hw
      cases hw
      exact hne rfl
  have hev : Evolves o s.kernel K' st st := by
    refine ⟨Nat.le_of_eq hD.count.symm, fun _ _ => .inl rfl, fun j d f p hne hd => ?_,
      fun j w f k tag hne hw => ?_, fun j w f k tag _ hw => hD.old j w _ hw⟩
    · refine hD.fds j d _ hd fun hod hj => ?_
      subst hj
      exact hne (hfd d hod _ hd)
    · refine hD.kept j w _ hw fun hj => ⟨?_, ?_⟩
      · rintro rfl
        subst hj
        rw [hheader f k tag hw] at hne
        exact hne rfl
      · subst hj
        refine hdata w f k tag hw ?_
        rintro rfl
        exact hne rfl
  refine ⟨st, h.update hev ?_ ⟨?_, fun hh => ?_, fun hi' => by cases hi'⟩
    (fun i w f k tag hown hw => ?_) (h.pending ?_ fun p u _ hu => ?_), hev⟩
  · refine ⟨fun j => ?_, fun u f hu => ?_, ?_⟩
    · cases hfr : K'.tables j 0 with
      | none => rfl
      | some fr =>
        have := hD.old j 0 fr hfr
        rw [h.world.null] at this
        cases this
    · rw [hD.count]
      exact h.world.names u f (hD.names u f hu)
    · rw [hD.count, hD.objects]
      exact h.world.staged
  · rcases hpc with rfl | rfl <;> exact trivial
  · obtain ⟨hf, ha, hbound, hpages⟩ := hb.header hh
    refine ⟨hD.count.symm ▸ hf, ha, hbound, fun w hw hw' hl => ?_⟩
    have hpage := hpages w hw hw' (.inl hi)
    refine hD.kept _ w _ hpage fun _ => ⟨hl.resolve_left (by simp), hdata w _ _ _ hpage (by simp)⟩
  · have ht := h.tags i w f k tag (hD.old i w _ hw)
    rw [hown] at ht
    refine ⟨ht.1, ?_⟩
    have ht₂ := ht.2
    cases tag with
    | header p =>
      obtain ⟨hf, hh, hlo, hhi, hk, -⟩ := ht₂
      refine ⟨hf, hh, hlo, hhi, hk, .inr ?_⟩
      rintro rfl
      rw [← ht.1, hD.header hh] at hw
      cases hw
    | data p =>
      obtain ⟨-, -, hd, hlo, hhi, -⟩ := ht₂
      rw [← ht.1, hD.data hd w hlo hhi] at hw
      cases hw
  · rcases hpc with rfl | rfl <;> exact fun _ hu => hu
  · have hnone := (h.unlinked p u hu).1
    cases hn : K'.names u with
    | none => rfl
    | some f =>
      rw [hD.names u f hn] at hnone
      cases hnone

/-! ## Writing -/

omit [DecidableEq ι] in
/-- Bytes past `data_size_` of the header are written. -/
theorem Inv.write {bs : ByteMem} (h : Inv G home s st) (hready : (s.backends o).Ready)
    (hload : bs.load 0 8 = (s.kernel.objects (s.backends o).object).bytes.load 0 8) :
    Next G home s st o ⟨s.kernel.setObject (s.backends o).object
      { s.kernel.objects (s.backends o).object with bytes := bs }, s.backends⟩ := by
  obtain ⟨hpc, hi, hd⟩ := hready
  have hdata := (h.each o).data hi hd
  have hev : Evolves o s.kernel (s.kernel.setObject (s.backends o).object
      { s.kernel.objects (s.backends o).object with bytes := bs }) st st := .same rfl rfl rfl
  have hnext := h.move _ hev
    (h.world.write hdata.formatted ((h.each o).header hdata.header).object hload) rfl
    (show Same (s.backends o) (s.backends o) from .mapped rfl rfl rfl rfl (.inr rfl))
    (by rw [Reached, hpc]; trivial) (h.pending (fun u hu => by rw [hpc] at hu; exact hu)
      fun p u _ hu => (h.unlinked p u hu).1)
  rwa [Function.update_eq_self] at hnext

end HermesShm.Memory.PosixShmMmap
