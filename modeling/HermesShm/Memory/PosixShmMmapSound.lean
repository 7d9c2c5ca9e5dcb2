import HermesShm.Memory.PosixShmMmap

/-! # The pages of a backend

In every run the pages of a backend stand for the bytes of its object, of the size that
its creator gave, and no other page of a process is touched. -/
namespace HermesShm.Memory.PosixShmMmap
open HermesShm.Base

variable {ι N κ : Type} {G : Paging} {home : κ → ι} {K K' : System ι N κ} {o p : κ} {i j : ι}
  {b b' : Backend N} {f k w d n v a x id len : Nat} {url : N} {tag : Tag κ}

/-- What has been done with an object that is to have `n` bytes, and by whom it is made. -/
inductive Stage (κ : Type)
  | empty (o : κ) (n : Nat)
  | sized (o : κ) (n : Nat)
  | formatted (n : Nat)

def Stage.size : Stage κ → Nat
  | .empty _ n | .sized _ n | .formatted n => n

def Stage.Of (o : κ) : Stage κ → Prop
  | .empty p _ | .sized p _ => p = o
  | .formatted _ => False

def Staged (ob : ShmObject) : Stage κ → Prop
  | .empty .. => ob.size = 0 ∧ ∀ x, ob.bytes x = 0
  | .sized _ n => ob.size = wordAdd sizeT n hdr_size_ ∧ ∀ x, ob.bytes x = 0
  | .formatted n => ob.size = wordAdd sizeT n hdr_size_ ∧ ob.bytes.load 0 8 = n

/-- What holds of the system alone. -/
structure World (K : System ι N κ) (st : Nat → Stage κ) : Prop where
  null : ∀ i, K.tables i 0 = none
  names : ∀ u f, K.names u = some f → f < K.count
  staged : ∀ f, f < K.count → Staged (K.objects f) (st f)

/-- The descriptor is open, and for the object. -/
def Open (K : System ι N κ) (i : ι) (o : κ) (b : Backend N) : Prop :=
  ∃ d, b.fd_ = some d ∧ K.fds i d = some (b.object, o)

/-- What a call in progress has done so far. -/
def Reached (K : System ι N κ) (st : Nat → Stage κ) (i : ι) (o : κ) (b : Backend N) : Prop :=
  match b.pc with
  | .idle | .destructed => True
  | .unlinked _ size _ => b.initialized ∧ b.header_ = 0 ∧ b.data_ = 0 ∧ size < sizeT
  | .created _ size _ => b.initialized ∧ Open K i o b ∧ b.header_ = 0 ∧ b.data_ = 0 ∧
    st b.object = .empty o size ∧ b.object < K.count ∧ size < sizeT
  | .truncated _ size => b.initialized ∧ Open K i o b ∧ b.header_ = 0 ∧ b.data_ = 0 ∧
    st b.object = .sized o size ∧ b.object < K.count ∧ size < sizeT
  | .headerMapped _ size => b.initialized ∧ Open K i o b ∧ b.header_ ≠ 0 ∧ b.data_ = 0 ∧
    st b.object = .sized o size ∧ size < sizeT
  | .headerWritten size => b.initialized ∧ Open K i o b ∧ b.header_ ≠ 0 ∧ b.data_ = 0 ∧
    st b.object = .formatted size ∧ b.data_size_ = size
  | .opened => b.initialized ∧ Open K i o b ∧ b.header_ = 0 ∧ b.data_ = 0 ∧ b.object < K.count
  | .headerFound => b.initialized ∧ Open K i o b ∧ b.header_ ≠ 0 ∧ b.data_ = 0
  | .sizeRead => b.initialized ∧ Open K i o b ∧ b.header_ ≠ 0 ∧ b.data_ = 0 ∧
    (b.data_size_ = 0 ∨ st b.object = .formatted b.data_size_)

/-- The pages of the header: all of them, or those that `_Detach` has left. -/
structure HeaderPages (G : Paging) (K : System ι N κ) (i : ι) (o : κ) (b : Backend N) : Prop where
  object : b.object < K.count
  aligned : b.header_ % G.bytes = 0
  bound : b.header_ / G.bytes + G.pagesOf hdr_size_ ≤ G.count
  pages : ∀ w, b.header_ / G.bytes ≤ w → w < b.header_ / G.bytes + G.pagesOf hdr_size_ →
    (b.initialized ∨ w ≠ b.header_ / G.bytes) →
    K.tables i w = some (.shm b.object (w - b.header_ / G.bytes) (.header o))

structure DataPages (G : Paging) (K : System ι N κ) (st : Nat → Stage κ) (i : ι) (o : κ)
    (b : Backend N) : Prop where
  header : b.header_ ≠ 0
  aligned : b.data_ % G.bytes = 0
  offset : hdr_size_ % G.bytes = 0
  pos : 0 < b.data_size_
  bound : b.data_ / G.bytes + G.pagesOf b.data_size_ ≤ G.count
  formatted : st b.object = .formatted b.data_size_
  pages : ∀ w, b.data_ / G.bytes ≤ w → w < b.data_ / G.bytes + G.pagesOf b.data_size_ →
    K.tables i w =
      some (.shm b.object (hdr_size_ / G.bytes + (w - b.data_ / G.bytes)) (.data o))

structure Holds (G : Paging) (K : System ι N κ) (st : Nat → Stage κ) (i : ι) (o : κ)
    (b : Backend N) : Prop where
  reached : Reached K st i o b
  header : b.header_ ≠ 0 → HeaderPages G K i o b
  data : b.initialized → b.data_ ≠ 0 → DataPages G K st i o b

/-- A page with a tag is one that the backend knows of, or has left at `_Detach`. -/
def Tagged (G : Paging) (b : Backend N) (w f k : Nat) : Tag κ → Prop
  | .header _ => f = b.object ∧ b.header_ ≠ 0 ∧ b.header_ / G.bytes ≤ w ∧
    w < b.header_ / G.bytes + G.pagesOf hdr_size_ ∧ k = w - b.header_ / G.bytes ∧
    (b.initialized ∨ w ≠ b.header_ / G.bytes)
  | .data _ => f = b.object ∧ b.initialized ∧ b.data_ ≠ 0 ∧ b.data_ / G.bytes ≤ w ∧
    w < b.data_ / G.bytes + G.pagesOf b.data_size_ ∧
    k = hdr_size_ / G.bytes + (w - b.data_ / G.bytes)

structure Inv (G : Paging) (home : κ → ι) (s : State ι N κ) (st : Nat → Stage κ) : Prop where
  world : World s.kernel st
  each : ∀ o, Holds G s.kernel st (home o) o (s.backends o)
  tags : ∀ i w f k tag, s.kernel.tables i w = some (.shm f k tag) →
    home tag.owner = i ∧ Tagged G (s.backends tag.owner) w f k tag
  unlinked : ∀ o url, (s.backends o).pc.Unlinked url →
    s.kernel.names url = none ∧ ∀ p, (s.backends p).pc.Unlinked url → p = o

theorem init_inv {s : State ι N κ} (h : Initial s) (st : Nat → Stage κ) : Inv G home s st := by
  refine ⟨⟨h.null, fun u f hf => ?_, fun f hf => ?_⟩, fun o => ?_, fun i w f k tag hw => ?_,
    fun o url hu => ?_⟩
  · rw [h.names u] at hf
    cases hf
  · rw [h.count] at hf
    exact absurd hf (Nat.not_lt_zero f)
  · obtain ⟨hpc, -, hh, hd⟩ := h.backends o
    exact ⟨by rw [Reached, hpc]; trivial, absurd hh, fun _ => absurd hd⟩
  · cases h.anon i w _ hw
  · rw [(h.backends o).1] at hu
    exact hu.elim

/-! ## What a step leaves alone -/

/-- A step of backend `o` keeps what belongs to the others. -/
structure Evolves (o : κ) (K K' : System ι N κ) (st st' : Nat → Stage κ) : Prop where
  count : K.count ≤ K'.count
  stage : ∀ f, f < K.count → st' f = st f ∨ ((st f).Of o ∧ (st' f).size = (st f).size)
  fds : ∀ i d f p, p ≠ o → K.fds i d = some (f, p) → K'.fds i d = some (f, p)
  kept : ∀ i w f k tag, tag.owner ≠ o → K.tables i w = some (.shm f k tag) →
    K'.tables i w = some (.shm f k tag)
  old : ∀ i w f k tag, tag.owner ≠ o → K'.tables i w = some (.shm f k tag) →
    K.tables i w = some (.shm f k tag)

variable {st st' : Nat → Stage κ}

theorem Evolves.sized (h : Evolves o K K' st st') (hf : f < K.count) (hne : p ≠ o)
    (hst : st f = .sized p n) : st' f = .sized p n := by
  refine ((h.stage f hf).resolve_right fun hof => ?_).trans hst
  rw [hst] at hof
  exact hne hof.1

theorem Evolves.empty (h : Evolves o K K' st st') (hf : f < K.count) (hne : p ≠ o)
    (hst : st f = .empty p n) : st' f = .empty p n := by
  refine ((h.stage f hf).resolve_right fun hof => ?_).trans hst
  rw [hst] at hof
  exact hne hof.1

theorem Evolves.formatted (h : Evolves o K K' st st') (hf : f < K.count)
    (hst : st f = .formatted n) : st' f = .formatted n := by
  refine ((h.stage f hf).resolve_right fun hof => ?_).trans hst
  rw [hst] at hof
  exact hof.1

/-- The size of an object is settled when it is made. -/
theorem Evolves.size (h : Evolves o K K' st st') (hf : f < K.count) :
    (st' f).size = (st f).size := by
  rcases h.stage f hf with he | ⟨-, he⟩
  · rw [he]
  · exact he

theorem Evolves.open (h : Evolves o K K' st st') (hne : p ≠ o) (ho : Open K j p b) :
    Open K' j p b := by
  obtain ⟨d, hd, hfd⟩ := ho
  exact ⟨d, hd, h.fds j d b.object p hne hfd⟩

theorem Evolves.reached (h : Evolves o K K' st st') (hne : p ≠ o) (hb : Holds G K st j p b) :
    Reached K' st' j p b := by
  have hr := hb.reached
  have hobj : b.header_ ≠ 0 → b.object < K.count := fun hh => (hb.header hh).object
  unfold Reached at hr ⊢
  cases hpc : b.pc with
  | idle | destructed => trivial
  | unlinked id size url => rw [hpc] at hr; exact hr
  | created id size url =>
    rw [hpc] at hr
    obtain ⟨hi, ho, hh, hd, hst, hf, hsize⟩ := hr
    exact ⟨hi, h.open hne ho, hh, hd, h.empty hf hne hst, Nat.lt_of_lt_of_le hf h.count, hsize⟩
  | truncated id size =>
    rw [hpc] at hr
    obtain ⟨hi, ho, hh, hd, hst, hf, hsize⟩ := hr
    exact ⟨hi, h.open hne ho, hh, hd, h.sized hf hne hst, Nat.lt_of_lt_of_le hf h.count, hsize⟩
  | headerMapped id size =>
    rw [hpc] at hr
    obtain ⟨hi, ho, hh, hd, hst, hsize⟩ := hr
    exact ⟨hi, h.open hne ho, hh, hd, h.sized (hobj hh) hne hst, hsize⟩
  | headerWritten size =>
    rw [hpc] at hr
    obtain ⟨hi, ho, hh, hd, hst, hsize⟩ := hr
    exact ⟨hi, h.open hne ho, hh, hd, h.formatted (hobj hh) hst, hsize⟩
  | opened =>
    rw [hpc] at hr
    obtain ⟨hi, ho, hh, hd, hf⟩ := hr
    exact ⟨hi, h.open hne ho, hh, hd, Nat.lt_of_lt_of_le hf h.count⟩
  | headerFound =>
    rw [hpc] at hr
    obtain ⟨hi, ho, hrest⟩ := hr
    exact ⟨hi, h.open hne ho, hrest⟩
  | sizeRead =>
    rw [hpc] at hr
    obtain ⟨hi, ho, hh, hd, hst⟩ := hr
    exact ⟨hi, h.open hne ho, hh, hd, hst.imp_right (h.formatted (hobj hh))⟩

/-- What a backend relies on is kept by the steps of the others. -/
theorem Holds.frame (hb : Holds G K st j p b) (h : Evolves o K K' st st') (hne : p ≠ o) :
    Holds G K' st' j p b where
  reached := h.reached hne hb
  header hh := by
    obtain ⟨hf, ha, hbound, hpages⟩ := hb.header hh
    exact ⟨Nat.lt_of_lt_of_le hf h.count, ha, hbound,
      fun w hw hw' hl => h.kept _ _ _ _ _ hne (hpages w hw hw' hl)⟩
  data hi hd := by
    obtain ⟨hh, ha, hoff, hpos, hbound, hst, hpages⟩ := hb.data hi hd
    exact ⟨hh, ha, hoff, hpos, hbound, h.formatted (hb.header hh).object hst,
      fun w hw hw' => h.kept _ _ _ _ _ hne (hpages w hw hw')⟩

/-- A step is a matter of the backend that takes it. -/
theorem Inv.update [DecidableEq κ] {s : State ι N κ} (h : Inv G home s st)
    (hev : Evolves o s.kernel K' st st') (hw : World K' st') (hb : Holds G K' st' (home o) o b')
    (ht : ∀ i w f k tag, tag.owner = o → K'.tables i w = some (.shm f k tag) →
      home o = i ∧ Tagged G b' w f k tag)
    (hu : ∀ p url, (Function.update s.backends o b' p).pc.Unlinked url → K'.names url = none ∧
      ∀ q, (Function.update s.backends o b' q).pc.Unlinked url → q = p) :
    Inv G home ⟨K', Function.update s.backends o b'⟩ st' := by
  refine ⟨hw, fun p => ?_, fun i w f k tag hkw => ?_, hu⟩
  · dsimp only
    obtain rfl | hne := eq_or_ne p o
    · rw [Function.update_self]
      exact hb
    · rw [Function.update_of_ne hne]
      exact (h.each p).frame hev hne
  · dsimp only
    by_cases hown : tag.owner = o
    · rw [hown, Function.update_self]
      exact ht i w f k tag hown hkw
    · rw [Function.update_of_ne hown]
      exact h.tags i w f k tag (hev.old i w f k tag hown hkw)

/-! ## What system calls do -/

theorem HeaderPages.mapped (h : HeaderPages G K i o b) (hi : b.initialized) :
    K.Mapped G i b.header_ hdr_size_ b.object 0 := by
  have hzero : 0 / G.bytes = 0 := Nat.zero_div _
  refine Kernel.mapped_of_pages (.header o) h.aligned (Nat.zero_mod _) fun w hw hw' => ?_
  rw [hzero, Nat.zero_add]
  exact h.pages w hw hw' (.inl hi)

theorem DataPages.mapped (h : DataPages G K st i o b) :
    K.Mapped G i b.data_ b.data_size_ b.object hdr_size_ :=
  Kernel.mapped_of_pages (.data o) h.aligned h.offset h.pages

theorem Evolves.same (ht : K'.tables = K.tables) (hf : K'.fds = K.fds) (hc : K'.count = K.count) :
    Evolves o K K' st st where
  count := Nat.le_of_eq hc.symm
  stage _ _ := .inl rfl
  fds _ _ _ _ _ h := hf ▸ h
  kept _ _ _ _ _ _ h := ht ▸ h
  old _ _ _ _ _ _ h := ht ▸ h

theorem Evolves.trans {K₁ : System ι N κ} {st₁ : Nat → Stage κ} (h : Evolves o K K₁ st st₁)
    (h' : Evolves o K₁ K' st₁ st') : Evolves o K K' st st' where
  count := Nat.le_trans h.count h'.count
  stage f hf := by
    rcases h'.stage f (Nat.lt_of_lt_of_le hf h.count) with he | ⟨hof, hsize⟩
    · exact he ▸ h.stage f hf
    · rcases h.stage f hf with he | ⟨hof', hsize'⟩
      · exact .inr (he ▸ ⟨hof, hsize⟩)
      · exact .inr ⟨hof', hsize.trans hsize'⟩
  fds i d f p hne hd := h'.fds i d f p hne (h.fds i d f p hne hd)
  kept i w f k tag hne hw := h'.kept i w f k tag hne (h.kept i w f k tag hne hw)
  old i w f k tag hne hw := h.old i w f k tag hne (h'.old i w f k tag hne hw)

/-- A backend goes on with its own object. -/
theorem Evolves.setStage {ob : ShmObject} {sg : Stage κ} (h : (st f).Of o)
    (hsize : sg.size = (st f).size) :
    Evolves o K (K.setObject f ob) st (Function.update st f sg) where
  count := Nat.le_refl _
  stage g _ := by
    obtain rfl | hne := eq_or_ne g f
    · exact .inr ⟨h, by rw [Function.update_self, hsize]⟩
    · exact .inl (Function.update_of_ne hne ..)
  fds _ _ _ _ _ h := h
  kept _ _ _ _ _ _ h := h
  old _ _ _ _ _ _ h := h

section

variable [DecidableEq ι]

theorem Evolves.openFd (h : K.openFd i d f o = some K') : Evolves o K K' st st := by
  rw [Kernel.openFd] at h
  split at h
  · rename_i hnone
    cases h
    refine ⟨Nat.le_refl _, fun _ _ => .inl rfl, fun j e g p hne hg => ?_, fun _ _ _ _ _ _ h => h,
      fun _ _ _ _ _ _ h => h⟩
    obtain rfl | hj := eq_or_ne j i
    · obtain rfl | he := eq_or_ne e d
      · rw [hg] at hnone
        cases hnone
      · simp only [Function.update_self, Function.update_of_ne he, hg]
    · simp only [Function.update_of_ne hj, hg]
  · cases h

theorem Evolves.close (h : ∀ e ∈ K.fds i d, e.2 = o) : Evolves o K (K.close i d) st st := by
  refine ⟨Nat.le_refl _, fun _ _ => .inl rfl, fun j e g p hne hg => ?_, fun _ _ _ _ _ _ h => h,
    fun _ _ _ _ _ _ h => h⟩
  obtain rfl | hj := eq_or_ne j i
  · obtain rfl | he := eq_or_ne e d
    · exact absurd (h _ hg) hne
    · simp only [Kernel.close, Function.update_self, Function.update_of_ne he, hg]
  · simp only [Kernel.close, Function.update_of_ne hj, hg]

theorem setTable_cases {fr : Frame (Tag κ)}
    (h : (K.setTable i ((K.tables i).map v n f k tag)).tables j w = some fr) :
    K.tables j w = some fr ∨ (j = i ∧ v ≤ w ∧ w < v + n ∧ fr = .shm f (k + (w - v)) tag) := by
  simp only [Kernel.setTable] at h
  obtain rfl | hj := eq_or_ne j i
  · rw [Function.update_self] at h
    exact (PageTable.map_cases h).imp_right fun hin => ⟨rfl, hin⟩
  · rw [Function.update_of_ne hj] at h
    exact .inl h

theorem setTable_of_some {fr : Frame (Tag κ)} (hfree : (K.tables i).Free v n)
    (h : K.tables j w = some fr) :
    (K.setTable i ((K.tables i).map v n f k tag)).tables j w = some fr := by
  simp only [Kernel.setTable]
  obtain rfl | hj := eq_or_ne j i
  · rw [Function.update_self, PageTable.map_of_some hfree h]
  · rw [Function.update_of_ne hj, h]

theorem setTable_in (hv : v ≤ w) (hw : w < v + n) :
    (K.setTable i ((K.tables i).map v n f k tag)).tables i w =
      some (.shm f (k + (w - v)) tag) := by
  simp only [Kernel.setTable, Function.update_self]
  exact PageTable.map_in hv hw

theorem Evolves.map (hfree : (K.tables i).Free v n) (hown : tag.owner = o) :
    Evolves o K (K.setTable i ((K.tables i).map v n f k tag)) st st where
  count := Nat.le_refl _
  stage _ _ := .inl rfl
  fds _ _ _ _ _ h := h
  kept _ _ _ _ _ _ h := setTable_of_some hfree h
  old j w g m tag' hne h := by
    refine (setTable_cases h).resolve_right fun hin => ?_
    cases hin.2.2.2
    exact hne hown

theorem World.setTable (h : World K st) (hv : 0 < v) :
    World (K.setTable i ((K.tables i).map v n f k tag)) st where
  null j := by
    cases hfr : (K.setTable i ((K.tables i).map v n f k tag)).tables j 0 with
    | none => rfl
    | some fr =>
      rcases setTable_cases hfr with hold | hin
      · rw [h.null j] at hold
        cases hold
      · exact absurd hin.2.1 (Nat.not_le.mpr hv)
  names := h.names
  staged := h.staged

/-- `_ShmMap` maps the object that the descriptor is for. -/
theorem shmMap_eq {off : Nat} (h : shmMap G i K b len off v tag = some K') (ho : Open K i o b) :
    off % G.bytes = 0 ∧ 0 < len ∧ 0 < v ∧ v + G.pagesOf len ≤ G.count ∧
      (K.tables i).Free v (G.pagesOf len) ∧
      K' = K.setTable i ((K.tables i).map v (G.pagesOf len) b.object (off / G.bytes) tag) := by
  obtain ⟨d, hd, hfd⟩ := ho
  simp only [shmMap, hd, hfd, Option.bind_eq_bind, Option.bind_some, Kernel.mmap] at h
  split at h
  · rename_i hg
    obtain ⟨hoff, hlen, hv, hbound, hfree⟩ := hg
    exact ⟨hoff, hlen, hv, hbound, hfree, (Option.some.inj h).symm⟩
  · cases h

end

theorem World.setStage {ob : ShmObject} {sg : Stage κ} (h : World K st) (hs : Staged ob sg) :
    World (K.setObject f ob) (Function.update st f sg) where
  null := h.null
  names := h.names
  staged g hg := by
    obtain rfl | hne := eq_or_ne g f
    · simp only [Kernel.setObject, Function.update_self, hs]
    · simp only [Kernel.setObject, Function.update_of_ne hne]
      exact h.staged g hg

/-- Bytes that are not of `data_size_` are written. -/
theorem World.write {bs : ByteMem} (h : World K st) (hst : st f = .formatted n)
    (hf : f < K.count) (hload : bs.load 0 8 = (K.objects f).bytes.load 0 8) :
    World (K.setObject f { K.objects f with bytes := bs }) st := by
  have hs := h.staged f hf
  rw [hst] at hs
  have hw : World (K.setObject f { K.objects f with bytes := bs })
    (Function.update st f (.formatted n)) := h.setStage ⟨hs.1, hload.trans hs.2⟩
  rwa [← hst, Function.update_eq_self] at hw

theorem World.unlink [DecidableEq N] (h : World K st) (url : N) : World (K.unlink url) st where
  null := h.null
  names u f hf := by
    simp only [Kernel.unlink] at hf
    obtain rfl | hne := eq_or_ne u url
    · rw [Function.update_self] at hf
      cases hf
    · rw [Function.update_of_ne hne] at hf
      exact h.names u f hf
  staged := h.staged

/-- A name that is not there gets a new object. -/
theorem create_eq [DecidableEq N] (h : K.names url = none) : K.create url =
    ({ K with
        names := Function.update K.names url (some K.count)
        objects := Function.update K.objects K.count ⟨0, fun _ => 0⟩
        count := K.count + 1 }, K.count) := by
  simp only [Kernel.create, h]

theorem World.create [DecidableEq N] (h : World K st) (hu : K.names url = none) (o : κ)
    (n : Nat) : World (K.create url).1 (Function.update st K.count (.empty o n)) := by
  rw [create_eq hu]
  refine ⟨h.null, fun u f hf => ?_, fun f hf => ?_⟩
  · dsimp only at hf ⊢
    obtain rfl | hne := eq_or_ne u url
    · rw [Function.update_self] at hf
      cases hf
      exact Nat.lt_succ_self _
    · rw [Function.update_of_ne hne] at hf
      exact Nat.lt_succ_of_lt (h.names u f hf)
  · dsimp only at hf ⊢
    obtain rfl | hne := eq_or_ne f K.count
    · rw [Function.update_self, Function.update_self]
      exact ⟨rfl, fun _ => rfl⟩
    · rw [Function.update_of_ne hne, Function.update_of_ne hne]
      exact h.staged f (by omega)

theorem Evolves.create [DecidableEq N] (hu : K.names url = none) :
    Evolves o K (K.create url).1 st (Function.update st K.count (.empty o n)) := by
  rw [create_eq hu]
  exact ⟨Nat.le_succ _, fun f hf => .inl (Function.update_of_ne (Nat.ne_of_lt hf) ..),
    fun _ _ _ _ _ h => h, fun _ _ _ _ _ _ h => h, fun _ _ _ _ _ _ h => h⟩

theorem load_of_zero {bs : ByteMem} (h : ∀ x, bs x = 0) (a n : Nat) : bs.load a n = 0 := by
  induction n generalizing a with
  | zero => rfl
  | succ n ih => rw [ByteMem.load, h, ih]; rfl

/-- The header is written, whatever was there. -/
theorem writeHeader_eq {size : Nat} (hm : K.Mapped G i a hdr_size_ f 0) (hsize : size < sizeT)
    (h : writeHeader G i K a id size = some K') :
    ∃ bs, K' = K.setObject f { K.objects f with bytes := bs } ∧ bs.load 0 8 = size := by
  have hsub : ∀ z m, z + m ≤ hdr_size_ → K.Mapped G i (a + z) m f (0 + z) := fun z m => hm.sub
  obtain ⟨K₁, h₁, h⟩ := Option.bind_eq_some_iff.mp h
  obtain ⟨K₂, h₂, h⟩ := Option.bind_eq_some_iff.mp h
  obtain ⟨K₃, h₃, h⟩ := Option.bind_eq_some_iff.mp h
  obtain rfl := (hsub 0 40 (by decide)).storeWord h₁
  obtain rfl := ((hsub 8 4 (by decide)).congr (by rfl)).storeWord h₂
  obtain rfl := ((hsub 12 4 (by decide)).congr (by rfl)).storeWord h₃
  obtain rfl := ((hsub 0 8 (by decide)).congr (by rfl)).storeWord h
  simp only [Kernel.setObject, Function.update_self, Function.update_idem]
  exact ⟨_, rfl, ByteMem.load_store hsize⟩

end HermesShm.Memory.PosixShmMmap
