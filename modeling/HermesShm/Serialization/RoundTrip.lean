import HermesShm.Serialization.LocalSerialize

/-! # Loading gives back what was saved

`bytes` is what saving a value appends. A load yields the value on these bytes,
so it stops where the save did. -/
namespace HermesShm.Serialization
open HermesShm.Base HermesShm.Base.Reader

variable {m : MapImpl} {b : Resize}

/-! ## Saving appends -/

def Atom.bytes : (a : Atom) → a.Val → List UInt8
  | .arithmetic w, (x : Fin (256 ^ w)) => toBytes w x
  | .string, (text : List UInt8) => toBytes 8 text.length ++ text

def Ty.bytes : (t : Ty) → t.Val → List UInt8
  | .atom a, x => a.bytes x
  | .vector t, (xs : List t.Val) => toBytes 8 xs.length ++ xs.flatMap t.bytes
  | .list t, (xs : List t.Val) => toBytes 8 xs.length ++ xs.flatMap t.bytes
  | .unordered_map k t, (xs : List (k.Val × t.Val)) =>
    toBytes 8 xs.length ++ xs.flatMap fun e => k.bytes e.1 ++ t.bytes e.2

theorem writeBinary_eq (bytes data_ : List UInt8) :
    writeBinary b bytes data_ = data_ ++ bytes := by
  unfold writeBinary
  dsimp only
  rw [b.keeps data_ _ (Nat.le_add_right ..),
    List.drop_eq_nil_of_le (Nat.le_of_eq (b.length_resize ..)), List.append_nil]

theorem saveSize_eq (size : Nat) (data_ : List UInt8) :
    saveSize b size data_ = data_ ++ toBytes 8 size := writeBinary_eq ..

theorem saveAtom_eq (a : Atom) (x : a.Val) (data_ : List UInt8) :
    saveAtom b a x data_ = data_ ++ a.bytes x := by
  have hstring : ∀ text : List UInt8,
      saveString b text data_ = data_ ++ (toBytes 8 text.length ++ text) := by
    intro text
    rw [saveString, writeBinary_eq, saveSize_eq, List.append_assoc]
  cases a with
  | arithmetic w => exact writeBinary_eq ..
  | string => exact hstring x

theorem saveArray_eq {w : Nat} (xs : List (Fin (256 ^ w))) (data_ : List UInt8) :
    saveArray b w xs data_ =
      data_ ++ (toBytes 8 xs.length ++ xs.flatMap fun x => toBytes w x.val) := by
  rw [saveArray, writeBinary_eq, saveSize_eq, List.append_assoc]

theorem foldl_append {α : Type} {f : List UInt8 → α → List UInt8} {enc : α → List UInt8}
    (h : ∀ data_ x, f data_ x = data_ ++ enc x) (xs : List α) (data_ : List UInt8) :
    xs.foldl f data_ = data_ ++ xs.flatMap enc := by
  induction xs generalizing data_ with
  | nil => rw [List.foldl_nil, List.flatMap_nil, List.append_nil]
  | cons x xs ih => rw [List.foldl_cons, ih, h, List.flatMap_cons, List.append_assoc]

theorem saveList_eq {α : Type} {f : α → List UInt8 → List UInt8} {enc : α → List UInt8}
    (h : ∀ x data_, f x data_ = data_ ++ enc x) (xs : List α) (data_ : List UInt8) :
    saveList b f xs data_ = data_ ++ (toBytes 8 xs.length ++ xs.flatMap enc) := by
  rw [saveList, foldl_append (fun data_ x => h x data_), saveSize_eq, List.append_assoc]

theorem saveMap_eq {κ α : Type} {f : κ → List UInt8 → List UInt8}
    {g : α → List UInt8 → List UInt8} {enc : κ → List UInt8} {enc' : α → List UInt8}
    (hf : ∀ x data_, f x data_ = data_ ++ enc x) (hg : ∀ x data_, g x data_ = data_ ++ enc' x)
    (xs : List (κ × α)) (data_ : List UInt8) :
    saveMap b f g xs data_ =
      data_ ++ (toBytes 8 xs.length ++ xs.flatMap fun e => enc e.1 ++ enc' e.2) := by
  have hentry : ∀ data_ (e : κ × α), g e.2 (f e.1 data_) = data_ ++ (enc e.1 ++ enc' e.2) := by
    intro data_ e
    rw [hg, hf, List.append_assoc]
  rw [saveMap, foldl_append hentry, saveSize_eq, List.append_assoc]

theorem save_eq (t : Ty) (x : t.Val) (data_ : List UInt8) :
    save b t x data_ = data_ ++ t.bytes x := by
  induction t generalizing data_ with
  | atom a => exact saveAtom_eq a x data_
  | vector t ih =>
    match t, x with
    | .atom (.arithmetic _), x => exact saveArray_eq x data_
    | .atom .string, x | .vector _, x | .list _, x | .unordered_map _ _, x =>
      exact saveList_eq ih x data_
  | list t ih => exact saveList_eq ih x data_
  | unordered_map k t ih => exact saveMap_eq (saveAtom_eq k) ih x data_

/-! ## Loading -/

theorem loadSize_yields {size : Nat} (h : size < 2 ^ 64) :
    Yields loadSize (toBytes 8 size) (· = size) := by
  have htake := yields_take (toBytes 8 size)
  rw [length_toBytes] at htake
  refine htake.map ?_
  intro bytes hb
  rw [hb, ofBytes_toBytes (Nat.lt_of_lt_of_eq h (by decide))]

theorem number_toBytes {w : Nat} (x : Fin (256 ^ w)) : number w (toBytes w x) = x := by
  apply Fin.ext
  change ofBytes (toBytes w x) % 256 ^ w = x
  rw [ofBytes_toBytes x.isLt, Nat.mod_eq_of_lt x.isLt]

theorem loadArithmetic_yields {w : Nat} (x : Fin (256 ^ w)) :
    Yields (loadArithmetic w) (toBytes w x) (· = x) := by
  have htake := yields_take (toBytes w x)
  rw [length_toBytes] at htake
  refine htake.map ?_
  intro bytes hb
  rw [hb, number_toBytes]

theorem loadString_yields {text : List UInt8} (h : text.length < 2 ^ 64) :
    Yields loadString (toBytes 8 text.length ++ text) (· = text) := by
  refine (loadSize_yields h).bind ?_
  intro size hsize
  rw [hsize]
  exact yields_take text

theorem loadAtom_yields (a : Atom) {x : a.Val} (h : a.Wf x) (target : a.Val) :
    Yields (loadAtom a target) (a.bytes x) (· = x) := by
  cases a with
  | arithmetic w => exact loadArithmetic_yields x
  | string => exact loadString_yields h

theorem numbers_toBytes {w : Nat} (xs : List (Fin (256 ^ w))) :
    numbers w xs.length (xs.flatMap fun x => toBytes w x.val) = xs := by
  induction xs with
  | nil => rfl
  | cons x xs ih =>
    rw [List.length_cons, numbers, List.flatMap_cons, List.take_left' (length_toBytes w x),
      List.drop_left' (length_toBytes w x), number_toBytes, ih]

theorem length_flatMap_toBytes {w : Nat} (xs : List (Fin (256 ^ w))) :
    (xs.flatMap fun x => toBytes w x.val).length = xs.length * w := by
  simp [List.length_flatMap]

theorem loadArray_yields {w : Nat} {xs : List (Fin (256 ^ w))} (h : xs.length < 2 ^ 64) :
    Yields (loadArray w) (toBytes 8 xs.length ++ xs.flatMap fun x => toBytes w x.val) (· = xs) := by
  refine (loadSize_yields h).bind ?_
  intro size hsize
  rw [hsize]
  have htake := yields_take (xs.flatMap fun x => toBytes w x.val)
  rw [length_flatMap_toBytes] at htake
  refine htake.map ?_
  intro bytes hb
  rw [hb, numbers_toBytes]

section
variable {α : Type} {fresh : α} {f : α → Reader α} {enc : α → List UInt8} {R : α → α → Prop}
  {xs : List α}

/-- A fresh vector is resized to fresh elements. -/
theorem loadElems_yields (h : xs.length < 2 ^ 64)
    (hf : ∀ x ∈ xs, Yields (f fresh) (enc x) (R x)) :
    Yields (loadElems fresh f []) (toBytes 8 xs.length ++ xs.flatMap enc)
      (List.Forall₂ R xs) := by
  refine (loadSize_yields h).bind ?_
  intro size hsize
  have hresize : resizeVec fresh [] size = List.replicate xs.length fresh := by
    rw [hsize, resizeVec, List.take_nil, List.nil_append, List.length_nil, Nat.sub_zero]
  rw [hresize]
  refine yields_mapM List.length_replicate ?_
  intro target htarget x hx
  rw [List.eq_of_mem_replicate htarget]
  exact hf x hx

/-- A list keeps what it has. -/
theorem loadList_appends {ι : Type} {enc : ι → List UInt8} {R : ι → α → Prop} {xs : List ι}
    (h : xs.length < 2 ^ 64) (hf : ∀ x ∈ xs, Yields (f fresh) (enc x) (R x)) (obj : List α) :
    Yields (loadList fresh f obj) (toBytes 8 xs.length ++ xs.flatMap enc) fun obj' =>
      ∃ new, obj' = obj ++ new ∧ List.Forall₂ R xs new := by
  refine (loadSize_yields h).bind ?_
  rintro _ rfl
  refine yields_foldlM (fun pre obj' => ∃ new, obj' = obj ++ new ∧ List.Forall₂ R pre new) ?_
    ⟨[], (List.append_nil obj).symm, .nil⟩ ?_
  · rw [List.length_range]
  · rintro pre x post _ _ hsplit ⟨new, rfl, hnew⟩
    have hx : x ∈ xs := by
      rw [hsplit]
      exact List.mem_append_right _ List.mem_cons_self
    refine (hf x hx).map fun last hlast => ?_
    exact ⟨new ++ [last], by rw [List.append_assoc], List.rel_append hnew (.cons hlast .nil)⟩

theorem loadList_yields (h : xs.length < 2 ^ 64)
    (hf : ∀ x ∈ xs, Yields (f fresh) (enc x) (R x)) :
    Yields (loadList fresh f []) (toBytes 8 xs.length ++ xs.flatMap enc)
      (List.Forall₂ R xs) := by
  refine (loadList_appends h hf []).mono ?_
  rintro _ ⟨new, rfl, hnew⟩
  exact hnew

/-- The keys read so far are those of the map, so the next one is new. -/
theorem loadMap_yields {k : Atom} {xs : List (k.Val × α)} (h : xs.length < 2 ^ 64)
    (hkeys : xs.Pairwise fun e e' => m.keyEq k e.1 e'.1 = false) (hk : ∀ e ∈ xs, k.Wf e.1)
    (hf : ∀ e ∈ xs, Yields (f fresh) (enc e.2) (R e.2)) :
    Yields (loadMap m k fresh f [])
      (toBytes 8 xs.length ++ xs.flatMap fun e => k.bytes e.1 ++ enc e.2)
      (MapEqual R xs) := by
  refine (loadSize_yields h).bind ?_
  intro size hsize
  refine yields_foldlM (MapEqual R) ?_ ⟨[], .nil, .nil⟩ ?_
  · rw [hsize, List.length_range]
  · intro pre x post obj _ hsplit hobj
    obtain ⟨zs, hperm, hzs⟩ := hobj
    have hx : x ∈ xs := by
      rw [hsplit]
      exact List.mem_append_right _ List.mem_cons_self
    refine (loadAtom_yields k (hk x hx) k.fresh).bind ?_
    intro key hkey
    refine (hf x hx).map ?_
    intro val hval
    have hnew : obj.any (fun e => m.keyEq k e.1 key) = false := by
      have hfst : pre.map (·.1) = zs.map (·.1) := by
        rw [← List.forall₂_eq_eq_eq, List.forall₂_map_left_iff, List.forall₂_map_right_iff]
        exact hzs.imp fun _ _ h => h.1
      rw [List.any_eq_false]
      intro e he
      have hmem : e.1 ∈ pre.map (·.1) := by
        rw [hfst]
        exact List.mem_map_of_mem (hperm.symm.subset he)
      obtain ⟨e', he', heq⟩ := List.mem_map.mp hmem
      rw [hsplit] at hkeys
      have hne := (List.pairwise_append.mp hkeys).2.2 e' he' x List.mem_cons_self
      rw [← heq, hkey, hne]
      exact Bool.false_ne_true
    refine ⟨zs ++ [(key, val)], ?_, List.rel_append hzs (.cons ⟨hkey.symm, hval⟩ .nil)⟩
    rw [MapImpl.assign, if_neg (by rw [hnew]; exact Bool.false_ne_true)]
    exact (hperm.append_right _).trans (m.order_perm _).symm

end

theorem load_yields (t : Ty) {x : t.Val} (h : t.Wf m x) :
    Yields (load m t t.fresh) (t.bytes x) (t.Equal x) := by
  induction t with
  | atom a => exact (loadAtom_yields a h a.fresh).mono fun _ h => h.symm
  | vector t ih =>
    match t, x with
    | .atom (.arithmetic w), x =>
      refine (loadArray_yields h.1).mono ?_
      intro ys hys
      rw [hys]
      exact List.forall₂_same.mpr fun _ _ => rfl
    | .atom .string, x | .vector _, x | .list _, x | .unordered_map _ _, x =>
      exact loadElems_yields h.1 fun y hy => ih (h.2 y hy)
  | list t ih => exact loadList_yields h.1 fun y hy => ih (h.2 y hy)
  | unordered_map k t ih =>
    exact loadMap_yields h.1 h.2.1 (fun e he => (h.2.2 e he).1) fun e he => ih (h.2.2 e he).2

/-! ## Sequences -/

theorem saveAll_fst (vs : List (Value m)) (data_ : List UInt8) :
    (saveAll b vs data_).1 = data_ ++ vs.flatMap fun v => v.type.bytes v.val := by
  induction vs generalizing data_ with
  | nil => rw [saveAll, List.flatMap_nil, List.append_nil]
  | cons v vs ih => rw [saveAll, ih, save_eq, List.flatMap_cons, List.append_assoc]

/-- From where the buffer ends before the values are saved. -/
theorem loadAll_saveAll (vs : List (Value m)) (data_ : List UInt8) :
    ∃ rs, loadAll m (vs.map (·.type)) (saveAll b vs data_).1 data_.length =
        some (rs, (saveAll b vs data_).1.length) ∧
      rs.map (·.cur_off_) = (saveAll b vs data_).2 ∧ List.Forall₂ Value.Agrees vs rs := by
  induction vs generalizing data_ with
  | nil => exact ⟨[], rfl, rfl, .nil⟩
  | cons v vs ih =>
    obtain ⟨rs, hload, hoffs, hagree⟩ := ih (save b v.type v.val data_)
    have hout : (saveAll b vs (save b v.type v.val data_)).1 = data_ ++ v.type.bytes v.val ++
        vs.flatMap fun v => v.type.bytes v.val := by
      rw [saveAll_fst, save_eq]
    obtain ⟨val, hval, hequal⟩ := load_yields v.type v.wf data_
      (vs.flatMap fun v => v.type.bytes v.val)
    refine ⟨⟨v.type, val, (save b v.type v.val data_).length⟩ :: rs, ?_, ?_,
      .cons ⟨val, rfl, hequal⟩ hagree⟩
    · rw [← hout, ← List.length_append, ← save_eq (b := b)] at hval
      change (load m v.type v.type.fresh (saveAll b vs _).1 data_.length).bind
        (fun p => (loadAll m (vs.map (·.type)) (saveAll b vs _).1 p.2).bind
          fun q => some (⟨v.type, p.1, p.2⟩ :: q.1, q.2)) = _
      rw [hval, Option.bind_some, hload]
      rfl
    · rw [List.map_cons, hoffs]
      rfl

/-- **Round trip.** What was saved is loaded, and after each value the reader is
where the buffer ended when that value had been written. -/
theorem load_save (m : MapImpl) (b : Resize) (vs : List (Value m)) (data_ : List UInt8) :
    ∃ rs, loadAll m (vs.map (·.type)) (saveAll b vs (localSerialize b data_)).1 0 =
        some (rs, (saveAll b vs (localSerialize b data_)).1.length) ∧
      rs.map (·.cur_off_) = (saveAll b vs (localSerialize b data_)).2 ∧
      List.Forall₂ Value.Agrees vs rs := by
  have h := loadAll_saveAll (b := b) vs (localSerialize b data_)
  rwa [localSerialize, b.length_resize] at h

/-- A map from a number to a vector of strings. -/
example : load default (.unordered_map (.arithmetic 1) (.vector (.atom .string))) []
    (toBytes 8 1 ++ [7] ++ toBytes 8 2 ++ (toBytes 8 2 ++ [104, 105]) ++ toBytes 8 0) 0 =
      some ([((7 : Fin 256), [([104, 105] : List UInt8), []])], 35) := by rfl

end HermesShm.Serialization
