import HermesShm.Base.Transition
import HermesShm.Base.Word
import Mathlib.Data.List.Induction
import Mathlib.Data.List.Nodup
import Mathlib.Logic.Function.Basic
import Mathlib.Tactic.Common

/-! # Thread ids

The ids of `ThreadLocalAllocator`. An id is in the TLS key of a thread, in the
contexts of its `ScopedTlsAllocator` objects, or in the shared free list. -/
namespace HermesShm.Memory.ThreadIds
open HermesShm.Base

variable {τ : Type}

/-- The null id is `none`. -/
abbrev ThreadId := Option Nat

structure State (τ : Type) where
  max_threads : Nat
  free_tids_ : List Nat := []
  tid_heap_ : Nat := 0
  /-- `tid_` of the `tls_info_` of each `PageAllocator`; an index from
  `max_threads` on is past the end of the vector. -/
  tls_ : Nat → ThreadId := fun _ => none
  /-- The `tls_info_` that the TLS key of a thread points to. -/
  tls_key_ : τ → Option Nat := fun _ => none
  /-- The contexts of a thread's live scoped allocators, the innermost first. -/
  scopes : τ → List ThreadId := fun _ => []
  /-- What `CreateTid` has returned so far; no operation reads it. -/
  handed_out : List Nat := []

def init (τ : Type) (max_threads : Nat) : State τ := { max_threads }

/-- The id that `CreateTid` will return: the last of `free_tids_`, or the next one. -/
def nextTid (s : State τ) : Nat := s.free_tids_.getLast?.getD s.tid_heap_

def createTid (s : State τ) : State τ :=
  { s with
    free_tids_ := s.free_tids_.dropLast
    tid_heap_ := if s.free_tids_ = [] then wordAdd (2 ^ 64) s.tid_heap_ 1 else s.tid_heap_
    handed_out := nextTid s :: s.handed_out }

def freeTid (s : State τ) (tid : Nat) : State τ := { s with free_tids_ := s.free_tids_ ++ [tid] }

section
variable [DecidableEq τ]

def setTls (s : State τ) (t : τ) (tls : Option Nat) : State τ :=
  { s with tls_key_ := Function.update s.tls_key_ t tls }

/-- `tls = header_->GetTls(tid)`, its fields, and the TLS key. -/
def attach (s : State τ) (t : τ) (tid : Nat) : State τ :=
  setTls { s with tls_ := Function.update s.tls_ tid (some tid) } t (some tid)

def getOrCreateTid (s : State τ) (t : τ) (ctx : ThreadId) : ThreadId × State τ :=
  match s.tls_key_ t with
  | some tls => (s.tls_ tls, s)
  | none => match ctx with
    | some tid => (some tid, attach s t tid)
    | none => (some (nextTid s), attach (createTid s) t (nextTid s))

def freeTls (s : State τ) (t : τ) (ctx : ThreadId) : State τ :=
  match getOrCreateTid s t ctx with
  | (none, s) => s
  | (some tid, s) => setTls (freeTid s tid) t none

/-! ## Runs -/

/-- The call of a thread, with its context: `allocate` stands for all calls that
only look up the id. -/
inductive Op
  | scope (ctx : ThreadId)
  | endScope
  | createTls (ctx : ThreadId)
  | freeTls (ctx : ThreadId)
  | allocate (ctx : ThreadId)

def setScopes (s : State τ) (t : τ) (cs : List ThreadId) : State τ :=
  { s with scopes := Function.update s.scopes t cs }

def step (s : State τ) : τ × Op → Option (State τ)
  | (t, .scope ctx) =>
    let (tid, s) := getOrCreateTid s t ctx
    some (setScopes s t (tid :: s.scopes t))
  | (t, .endScope) => match s.scopes t with
    | [] => none
    | ctx :: ctxs => some (setScopes (freeTls s t ctx) t ctxs)
  | (t, .createTls ctx) | (t, .allocate ctx) => some (getOrCreateTid s t ctx).2
  | (t, .freeTls ctx) => some (freeTls s t ctx)

end

/-- A thread holds an id by its TLS key or by a live scoped allocator. -/
def Holds (s : State τ) (t : τ) (tid : Nat) : Prop :=
  (s.tls_key_ t).bind s.tls_ = some tid ∨ some tid ∈ s.scopes t

structure Unique (s : State τ) : Prop where
  holder : ∀ t t' tid, Holds s t tid → Holds s t' tid → t = t'
  free_nodup : s.free_tids_.Nodup
  free_unheld : ∀ tid ∈ s.free_tids_, ∀ t, ¬ Holds s t tid
  bounded : ∀ tid ∈ s.handed_out, tid < s.max_threads

/-- A thread without an id calls with a null context, and there is an id left. -/
def TidGuard (s : State τ) (t : τ) (ctx : ThreadId) : Prop :=
  s.tls_key_ t = none → ctx = none ∧ (s.free_tids_ = [] → s.tid_heap_ < s.max_threads)

/-- Only the last scoped allocator of a thread is destroyed, and `FreeTls` is
called where there is none. -/
def Guarded (s : State τ) : τ × Op → Prop
  | (t, .scope ctx) | (t, .createTls ctx) | (t, .allocate ctx) => TidGuard s t ctx
  | (t, .freeTls ctx) => TidGuard s t ctx ∧ s.scopes t = []
  | (t, .endScope) => ∀ ctx ∈ (s.scopes t).head?, TidGuard s t ctx ∧ s.scopes t = [ctx]

instance (s : State τ) (t : τ) (ctx : ThreadId) : Decidable (TidGuard s t ctx) := by
  unfold TidGuard; infer_instance

instance (s : State τ) (op : τ × Op) : Decidable (Guarded s op) := by
  obtain ⟨t, op⟩ := op
  cases op <;> unfold Guarded <;> infer_instance

/-! ## The invariant -/

structure Inv (s : State τ) : Prop where
  key_tls : ∀ t i, s.tls_key_ t = some i → s.tls_ i = some i
  key_inj : ∀ t t' i, s.tls_key_ t = some i → s.tls_key_ t' = some i → t = t'
  scopes : ∀ t, ∀ ctx ∈ s.scopes t, ctx.isSome ∧ ctx = s.tls_key_ t
  free_nodup : s.free_tids_.Nodup
  free_key : ∀ t, ∀ i ∈ s.free_tids_, s.tls_key_ t ≠ some i
  key_lt : ∀ t i, s.tls_key_ t = some i → i < s.tid_heap_
  free_lt : ∀ i ∈ s.free_tids_, i < s.tid_heap_
  heap_le : s.tid_heap_ ≤ s.max_threads
  handed_lt : ∀ i ∈ s.handed_out, i < s.tid_heap_

theorem init_inv (max_threads : Nat) : Inv (init τ max_threads) :=
  ⟨nofun, nofun, nofun, List.nodup_nil, nofun, nofun, nofun, Nat.zero_le _, nofun⟩

namespace Inv

variable {s : State τ}

theorem holds (hi : Inv s) {t : τ} {tid : Nat} : Holds s t tid ↔ s.tls_key_ t = some tid := by
  constructor
  · rintro (h | h)
    · obtain ⟨i, hk, ht⟩ := Option.bind_eq_some_iff.mp h
      rw [hi.key_tls t i hk] at ht
      rw [hk, ht]
    · exact (hi.scopes t _ h).2.symm
  · intro h
    exact .inl (by rw [h, Option.bind_some, hi.key_tls t tid h])

theorem unique (hi : Inv s) : Unique s where
  holder := fun t t' tid h h' => hi.key_inj t t' tid (hi.holds.mp h) (hi.holds.mp h')
  free_nodup := hi.free_nodup
  free_unheld := fun tid hf t h => hi.free_key t tid hf (hi.holds.mp h)
  bounded := fun tid h => Nat.lt_of_lt_of_le (hi.handed_lt tid h) hi.heap_le

/-- The new id is in no other place. -/
theorem createTid (hi : Inv s) (hmax : s.max_threads < 2 ^ 64)
    (hleft : s.free_tids_ = [] → s.tid_heap_ < s.max_threads) :
    Inv (createTid s) ∧ (∀ t, s.tls_key_ t ≠ some (nextTid s)) ∧
      nextTid s ∉ (ThreadIds.createTid s).free_tids_ ∧
      nextTid s < (ThreadIds.createTid s).tid_heap_ := by
  unfold ThreadIds.createTid nextTid
  rcases List.eq_nil_or_concat' s.free_tids_ with hf | ⟨tids, tid, hf⟩
  · have hlt := hleft hf
    simp only [hf, List.getLast?_nil, Option.getD_none, List.dropLast_nil, if_true]
    rw [wordAdd_of_lt (by omega)]
    have hfresh : ∀ t, s.tls_key_ t ≠ some s.tid_heap_ := fun t hk =>
      Nat.lt_irrefl _ (hi.key_lt t _ hk)
    refine ⟨⟨hi.key_tls, hi.key_inj, hi.scopes, List.nodup_nil, nofun,
      fun t i hk => Nat.lt_succ_of_lt (hi.key_lt t i hk), nofun, hlt, ?_⟩, hfresh, nofun,
      Nat.lt_succ_self _⟩
    intro i hm
    rcases List.mem_cons.mp hm with rfl | hm
    · exact Nat.lt_succ_self _
    · exact Nat.lt_succ_of_lt (hi.handed_lt i hm)
  · have hne : ¬ s.free_tids_ = [] := by rw [hf]; simp
    have hnd := hi.free_nodup
    have hin : ∀ i ∈ tids, i ∈ s.free_tids_ := fun i hm => by rw [hf]; simp [hm]
    have htid : tid ∈ s.free_tids_ := by rw [hf]; simp
    rw [hf, List.nodup_append] at hnd
    simp only [if_neg hne]
    simp only [hf, List.getLast?_concat, Option.getD_some, List.dropLast_concat]
    refine ⟨⟨hi.key_tls, hi.key_inj, hi.scopes, hnd.1,
      fun t i hm => hi.free_key t i (hin i hm), hi.key_lt, fun i hm => hi.free_lt i (hin i hm),
      hi.heap_le, ?_⟩, fun t => hi.free_key t tid htid, fun hm => ?_, hi.free_lt tid htid⟩
    · intro i hm
      rcases List.mem_cons.mp hm with rfl | hm
      · exact hi.free_lt i htid
      · exact hi.handed_lt i hm
    · exact hnd.2.2 tid hm tid (List.mem_singleton_self _) rfl

variable [DecidableEq τ] {t : τ} {ctx : ThreadId} {tid : Nat}

theorem attach (hi : Inv s) (hk : s.tls_key_ t = none) (hkey : ∀ t, s.tls_key_ t ≠ some tid)
    (hfree : tid ∉ s.free_tids_) (hlt : tid < s.tid_heap_) : Inv (attach s t tid) := by
  have hcase : ∀ t' i, (ThreadIds.attach s t tid).tls_key_ t' = some i →
      (t' = t ∧ i = tid) ∨ (t' ≠ t ∧ s.tls_key_ t' = some i ∧ i ≠ tid) := by
    intro t' i h
    by_cases ht : t' = t
    · subst ht
      simp only [ThreadIds.attach, setTls, Function.update_self, Option.some.injEq] at h
      exact .inl ⟨rfl, h.symm⟩
    · simp only [ThreadIds.attach, setTls, Function.update_of_ne ht] at h
      exact .inr ⟨ht, h, fun he => hkey t' (he ▸ h)⟩
  refine ⟨fun t' i h => ?_, fun t' t'' i h h' => ?_, fun t' c hc => ?_, hi.free_nodup,
    fun t' i hf h => ?_, fun t' i h => ?_, hi.free_lt, hi.heap_le, hi.handed_lt⟩
  · rcases hcase t' i h with ⟨-, rfl⟩ | ⟨-, hk', hne⟩
    · exact Function.update_self ..
    · exact (Function.update_of_ne hne ..).trans (hi.key_tls t' i hk')
  · rcases hcase t' i h with ⟨rfl, rfl⟩ | ⟨-, hk', hne⟩
    · rcases hcase t'' i h' with ⟨rfl, -⟩ | ⟨-, -, hne⟩
      · rfl
      · exact absurd rfl hne
    · rcases hcase t'' i h' with ⟨-, rfl⟩ | ⟨-, hk'', -⟩
      · exact absurd rfl hne
      · exact hi.key_inj t' t'' i hk' hk''
  · obtain ⟨hs, hck⟩ := hi.scopes t' c hc
    have ht : t' ≠ t := by
      rintro rfl
      rw [hck, hk] at hs
      cases hs
    exact ⟨hs, hck.trans (Function.update_of_ne ht ..).symm⟩
  · rcases hcase t' i h with ⟨-, rfl⟩ | ⟨-, hk', -⟩
    · exact hfree hf
    · exact hi.free_key t' i hf hk'
  · rcases hcase t' i h with ⟨-, rfl⟩ | ⟨-, hk', -⟩
    · exact hlt
    · exact hi.key_lt t' i hk'

/-- Looking up the id gives the one in the TLS key, and creates it before if
there is none. -/
theorem getOrCreateTid (hi : Inv s) (hmax : s.max_threads < 2 ^ 64) (hg : TidGuard s t ctx) :
    ∃ tid s', getOrCreateTid s t ctx = (some tid, s') ∧ Inv s' ∧ s'.tls_key_ t = some tid ∧
      s'.scopes = s.scopes ∧ s'.max_threads = s.max_threads := by
  unfold ThreadIds.getOrCreateTid
  cases hk : s.tls_key_ t with
  | some i => exact ⟨i, s, congrArg (·, s) (hi.key_tls t i hk), hi, hk, rfl, rfl⟩
  | none =>
    obtain ⟨rfl, hleft⟩ := hg hk
    obtain ⟨hi', hkey, hfree, hlt⟩ := hi.createTid hmax hleft
    exact ⟨_, _, rfl, hi'.attach hk hkey hfree hlt, Function.update_self .., rfl, rfl⟩

/-- The thread's id goes to the free list, and the thread keeps nothing. -/
theorem release (hi : Inv s) (hk : s.tls_key_ t = some tid) :
    Inv (setScopes (setTls (freeTid s tid) t none) t []) := by
  have hcase : ∀ t' i, Function.update s.tls_key_ t none t' = some i →
      t' ≠ t ∧ s.tls_key_ t' = some i := by
    intro t' i h
    have ht : t' ≠ t := by rintro rfl; rw [Function.update_self] at h; cases h
    rw [Function.update_of_ne ht] at h
    exact ⟨ht, h⟩
  refine ⟨fun t' i h => hi.key_tls t' i (hcase t' i h).2,
    fun t' t'' i h h' => hi.key_inj t' t'' i (hcase t' i h).2 (hcase t'' i h').2, fun t' c hc => ?_,
    ?_, fun t' i hf h => ?_, fun t' i h => hi.key_lt t' i (hcase t' i h).2, fun i hf => ?_,
    hi.heap_le, hi.handed_lt⟩
  · by_cases ht : t' = t
    · subst ht
      simp only [setScopes, Function.update_self] at hc
      cases hc
    · simp only [setScopes, setTls, freeTid, Function.update_of_ne ht] at hc ⊢
      exact hi.scopes t' c hc
  · refine List.nodup_append.mpr ⟨hi.free_nodup, List.nodup_singleton _, ?_⟩
    rintro i hf j hj rfl
    exact hi.free_key t i hf (List.mem_singleton.mp hj ▸ hk)
  · obtain ⟨ht, hk'⟩ := hcase t' i h
    rcases List.mem_append.mp hf with hf | hf
    · exact hi.free_key t' i hf hk'
    · rw [List.mem_singleton.mp hf] at hk'
      exact ht (hi.key_inj t' t tid hk' hk)
  · rcases List.mem_append.mp hf with hf | hf
    · exact hi.free_lt i hf
    · exact List.mem_singleton.mp hf ▸ hi.key_lt t tid hk

theorem freeTls (hi : Inv s) (hmax : s.max_threads < 2 ^ 64) (hg : TidGuard s t ctx) :
    Inv (setScopes (freeTls s t ctx) t []) ∧ (freeTls s t ctx).max_threads = s.max_threads ∧
      (freeTls s t ctx).scopes = s.scopes := by
  obtain ⟨tid, s', he, hi', hk, hs, hm⟩ := hi.getOrCreateTid hmax hg
  rw [ThreadIds.freeTls, he]
  exact ⟨hi'.release hk, hm, hs⟩

theorem step {op : τ × Op} {s' : State τ} (hi : Inv s) (hmax : s.max_threads < 2 ^ 64)
    (hg : Guarded s op) (hs : step s op = some s') : Inv s' ∧ s'.max_threads = s.max_threads := by
  obtain ⟨t, op⟩ := op
  cases op with
  | scope ctx =>
    obtain ⟨tid, s₁, he, hi₁, hk, hsc, hm⟩ := hi.getOrCreateTid hmax hg
    simp only [ThreadIds.step, he, Option.some.injEq] at hs
    subst hs
    refine ⟨{ hi₁ with scopes := fun t' c hc => ?_ }, hm⟩
    by_cases ht : t' = t
    · subst ht
      simp only [setScopes, Function.update_self, List.mem_cons] at hc
      rcases hc with rfl | hc
      · exact ⟨rfl, hk.symm⟩
      · exact hi₁.scopes t' c hc
    · simp only [setScopes, Function.update_of_ne ht] at hc
      exact hi₁.scopes t' c hc
  | endScope =>
    cases hc : s.scopes t with
    | nil => simp only [ThreadIds.step, hc, reduceCtorEq] at hs
    | cons ctx ctxs =>
      obtain ⟨hg, hlast⟩ := hg ctx (by rw [hc]; rfl)
      obtain ⟨-, rfl⟩ := List.cons.inj (hc.symm.trans hlast)
      obtain ⟨hi', hm, -⟩ := hi.freeTls hmax hg
      simp only [ThreadIds.step, hc, Option.some.injEq] at hs
      subst hs
      exact ⟨hi', hm⟩
  | createTls ctx | allocate ctx =>
    obtain ⟨tid, s₁, he, hi₁, -, -, hm⟩ := hi.getOrCreateTid hmax hg
    simp only [ThreadIds.step, he, Option.some.injEq] at hs
    subst hs
    exact ⟨hi₁, hm⟩
  | freeTls ctx =>
    obtain ⟨hi', hm, hsc⟩ := hi.freeTls hmax hg.1
    simp only [ThreadIds.step, Option.some.injEq] at hs
    subst hs
    have hnil : (ThreadIds.freeTls s t ctx).scopes t = [] := by rw [hsc]; exact hg.2
    rw [setScopes, ← hnil, Function.update_eq_self] at hi'
    exact ⟨hi', hm⟩

end Inv

/-- **Guarded histories keep ids unique.** Where every id is asked for with a null
context while there is one left, and only the last scoped allocator of a thread
is destroyed, ids have one holder and stay below `max_threads`. -/
theorem guarded_unique [DecidableEq τ] {max_threads : Nat} (hmax : max_threads < 2 ^ 64)
    {ops : List (τ × Op)} {s : State τ} (h : Run step Guarded (init τ max_threads) ops s) :
    Unique s := by
  have hinv : Inv s ∧ s.max_threads = max_threads := by
    refine h.invariant (I := fun s => Inv s ∧ s.max_threads = max_threads)
      ⟨init_inv max_threads, rfl⟩ ?_
    rintro s op s' ⟨hi, rfl⟩ hg hs
    exact hi.step hmax hg hs
  exact hinv.1.unique

/-- Two threads and one id: thread 1 is given the id that thread 0 has freed. -/
theorem guarded_unique_reuse : ∃ s, Run step Guarded (init Nat 1)
    [(0, .scope none), (0, .allocate (some 0)), (0, .endScope), (1, .createTls none)] s ∧
      Unique s ∧ s.handed_out = [0, 0] := by
  have hex : (execOk step Guarded (init Nat 1)
      [(0, .scope none), (0, .allocate (some 0)), (0, .endScope), (1, .createTls none)]).map
        (·.handed_out) = some [0, 0] := by decide +kernel
  obtain ⟨s, hs, hh⟩ := Option.map_eq_some_iff.mp hex
  have hrun := run_of_execOk hs
  exact ⟨s, hrun, guarded_unique (by decide) hrun, hh⟩

/-- **Nested scopes share an id.** The inner scoped allocator of thread 0 frees the
id of the outer one; thread 1 is given it while thread 0 allocates with it. -/
theorem nested_scopes_share : ¬ ∀ (ops : List (Nat × Op)) (s : State Nat),
    Run step Unrestricted (init Nat 1024) ops s → Unique s := by
  intro h
  have hex : (exec step (init Nat 1024)
      [(0, .scope none), (0, .scope (some 0)), (0, .endScope), (1, .scope none),
        (0, .allocate (some 0))]).map
        (fun s => ((s.tls_key_ 0).bind s.tls_, (s.tls_key_ 1).bind s.tls_)) =
      some (some 0, some 0) := by decide +kernel
  obtain ⟨s, hs, hk⟩ := Option.map_eq_some_iff.mp hex
  obtain ⟨h0, h1⟩ := Prod.mk.inj hk
  have := (h _ s (run_iff_exec.mpr hs)).holder 0 1 0 (.inl h0) (.inl h1)
  cases this

end HermesShm.Memory.ThreadIds
