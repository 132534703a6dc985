import Mathlib.Algebra.Order.Ring.Int
import Mathlib.Logic.Function.Basic
import Wineing.ControlRecord

/-!
# The lazily versioned shared record

`lazy_update_global_if_owner` and `lazy_update_local_if_changed`, called by any number
of threads, as a transition system whose steps are the accesses to `g_version`,
`g_lock` and `g_data`. Both calls have the same shape: compare the versions without
the lock, take the lock, write a version, copy the three members of the record,
release the lock. Versions are elements of a ring, so that the calls can be read over
the integers and over words that wrap.
-/

namespace Wineing
open WCtrl

inductive LazyCall
  | updateGlobalIfOwner
  | updateLocalIfChanged
  deriving DecidableEq

/-- The next access of a thread. `reread` is the second, unlocked read of `g_version`
by which a refused update finds its result; at `ret` the call returns `t_version`. -/
inductive LazyPc
  | idle
  | compare (call : LazyCall)
  | reread
  | lock (call : LazyCall)
  | version (call : LazyCall)
  | cmd (call : LazyCall)
  | size (call : LazyCall)
  | data (call : LazyCall)
  | unlock (call : LazyCall)
  | ret
  deriving DecidableEq

namespace LazyPc

def critical : LazyPc → Bool
  | version _ | cmd _ | size _ | data _ | unlock _ => true
  | _ => false

end LazyPc

/-- A thread's own version and record, which are also the arguments of its calls. -/
structure LazyThread (V : Type*) where
  tVersion : V
  tData : WCtrl
  pc : LazyPc

/-- The version an update wrote and the record it was called with. -/
structure Publication (V : Type*) where
  version : V
  ctrl : WCtrl

/-- `published` records the writes of `g_version`, oldest first, behind the initial
version and record. No step reads it. -/
structure LazyState (V ι : Type*) where
  gVersion : V
  gLock : Option ι
  gData : WCtrl
  threads : ι → LazyThread V
  published : List (Publication V)

/-- Outside its calls a thread assigns its version and record as it likes. -/
inductive LazyAction (V ι : Type*)
  | assign (i : ι) (tVersion : V) (tData : WCtrl)
  | call (i : ι) (call : LazyCall)
  | run (i : ι)

section Steps

variable {V ι : Type*} [DecidableEq ι]

namespace LazyState

def setThread (s : LazyState V ι) (i : ι) (t : LazyThread V) : LazyState V ι :=
  { s with threads := Function.update s.threads i t }

@[simp] theorem setThread_gVersion (s : LazyState V ι) (i : ι) (t : LazyThread V) :
    (s.setThread i t).gVersion = s.gVersion := rfl

@[simp] theorem setThread_gLock (s : LazyState V ι) (i : ι) (t : LazyThread V) :
    (s.setThread i t).gLock = s.gLock := rfl

@[simp] theorem setThread_gData (s : LazyState V ι) (i : ι) (t : LazyThread V) :
    (s.setThread i t).gData = s.gData := rfl

@[simp] theorem setThread_published (s : LazyState V ι) (i : ι) (t : LazyThread V) :
    (s.setThread i t).published = s.published := rfl

@[simp] theorem setThread_threads_self (s : LazyState V ι) (i : ι) (t : LazyThread V) :
    (s.setThread i t).threads i = t := by simp [setThread]

theorem setThread_threads_of_ne (s : LazyState V ι) {i j : ι} (t : LazyThread V) (h : j ≠ i) :
    (s.setThread i t).threads j = s.threads j := by simp [setThread, h]

/-- `g_version.version = version`, recorded with the record that is about to be copied. -/
def writeVersion (s : LazyState V ι) (version : V) (ctrl : WCtrl) : LazyState V ι :=
  { s with gVersion := version, published := s.published ++ [⟨version, ctrl⟩] }

end LazyState

variable [Ring V] [DecidableEq V]

/-- The next access of thread `i`, none when it is outside a call or the lock it
needs is taken. -/
def runThread (s : LazyState V ι) (i : ι) : Option (LazyState V ι) :=
  let t := s.threads i
  match t.pc with
  | .idle => none
  | .compare .updateGlobalIfOwner => some <| s.setThread i
      { t with pc := if t.tVersion = s.gVersion then .lock .updateGlobalIfOwner else .reread }
  | .compare .updateLocalIfChanged => some <| s.setThread i
      { t with pc := if t.tVersion = s.gVersion then .ret else .lock .updateLocalIfChanged }
  | .reread => some <| s.setThread i { t with tVersion := s.gVersion, pc := .ret }
  | .lock call =>
    match s.gLock with
    | none => some <| { s with gLock := some i }.setThread i { t with pc := .version call }
    | some _ => none
  | .version .updateGlobalIfOwner => some <|
      (s.writeVersion (t.tVersion + 1) t.tData).setThread i
      { t with tVersion := t.tVersion + 1, pc := .cmd .updateGlobalIfOwner }
  | .version .updateLocalIfChanged => some <| s.setThread i
      { t with tVersion := s.gVersion, pc := .cmd .updateLocalIfChanged }
  | .cmd .updateGlobalIfOwner => some <| { s with gData := copyCmd t.tData s.gData }.setThread i
      { t with pc := .size .updateGlobalIfOwner }
  | .cmd .updateLocalIfChanged => some <| s.setThread i
      { t with tData := copyCmd s.gData t.tData, pc := .size .updateLocalIfChanged }
  | .size .updateGlobalIfOwner => some <| { s with gData := copySize t.tData s.gData }.setThread i
      { t with pc := .data .updateGlobalIfOwner }
  | .size .updateLocalIfChanged => some <| s.setThread i
      { t with tData := copySize s.gData t.tData, pc := .data .updateLocalIfChanged }
  | .data .updateGlobalIfOwner => some <| { s with gData := copyData t.tData s.gData }.setThread i
      { t with pc := .unlock .updateGlobalIfOwner }
  | .data .updateLocalIfChanged => some <| s.setThread i
      { t with tData := copyData s.gData t.tData, pc := .unlock .updateLocalIfChanged }
  | .unlock _ => some <| { s with gLock := none }.setThread i { t with pc := .ret }
  | .ret => some <| s.setThread i { t with pc := .idle }

/-- What the accesses do, with the points they are made at. Those of an update are named
for a write, those of a refresh for a read. -/
inductive Accesses (s : LazyState V ι) (i : ι) : LazyState V ι → Prop where
  | owns (pc : (s.threads i).pc = .compare .updateGlobalIfOwner)
      (current : (s.threads i).tVersion = s.gVersion) :
      Accesses s i (s.setThread i { s.threads i with pc := .lock .updateGlobalIfOwner })
  | refuse (pc : (s.threads i).pc = .compare .updateGlobalIfOwner)
      (stale : (s.threads i).tVersion ≠ s.gVersion) :
      Accesses s i (s.setThread i { s.threads i with pc := .reread })
  | unchanged (pc : (s.threads i).pc = .compare .updateLocalIfChanged)
      (current : (s.threads i).tVersion = s.gVersion) :
      Accesses s i (s.setThread i { s.threads i with pc := .ret })
  | changed (pc : (s.threads i).pc = .compare .updateLocalIfChanged)
      (stale : (s.threads i).tVersion ≠ s.gVersion) :
      Accesses s i (s.setThread i { s.threads i with pc := .lock .updateLocalIfChanged })
  | reread (pc : (s.threads i).pc = .reread) :
      Accesses s i (s.setThread i { s.threads i with tVersion := s.gVersion, pc := .ret })
  | lock {call} (pc : (s.threads i).pc = .lock call) (free : s.gLock = none) :
      Accesses s i ({ s with gLock := some i }.setThread i { s.threads i with pc := .version call })
  | writeVersion (pc : (s.threads i).pc = .version .updateGlobalIfOwner) :
      Accesses s i ((s.writeVersion ((s.threads i).tVersion + 1) (s.threads i).tData).setThread i
        { s.threads i with tVersion := (s.threads i).tVersion + 1, pc := .cmd .updateGlobalIfOwner })
  | readVersion (pc : (s.threads i).pc = .version .updateLocalIfChanged) :
      Accesses s i (s.setThread i
        { s.threads i with tVersion := s.gVersion, pc := .cmd .updateLocalIfChanged })
  | writeCmd (pc : (s.threads i).pc = .cmd .updateGlobalIfOwner) :
      Accesses s i ({ s with gData := copyCmd (s.threads i).tData s.gData }.setThread i
        { s.threads i with pc := .size .updateGlobalIfOwner })
  | readCmd (pc : (s.threads i).pc = .cmd .updateLocalIfChanged) :
      Accesses s i (s.setThread i { s.threads i with
        tData := copyCmd s.gData (s.threads i).tData, pc := .size .updateLocalIfChanged })
  | writeSize (pc : (s.threads i).pc = .size .updateGlobalIfOwner) :
      Accesses s i ({ s with gData := copySize (s.threads i).tData s.gData }.setThread i
        { s.threads i with pc := .data .updateGlobalIfOwner })
  | readSize (pc : (s.threads i).pc = .size .updateLocalIfChanged) :
      Accesses s i (s.setThread i { s.threads i with
        tData := copySize s.gData (s.threads i).tData, pc := .data .updateLocalIfChanged })
  | writeData (pc : (s.threads i).pc = .data .updateGlobalIfOwner) :
      Accesses s i ({ s with gData := copyData (s.threads i).tData s.gData }.setThread i
        { s.threads i with pc := .unlock .updateGlobalIfOwner })
  | readData (pc : (s.threads i).pc = .data .updateLocalIfChanged) :
      Accesses s i (s.setThread i { s.threads i with
        tData := copyData s.gData (s.threads i).tData, pc := .unlock .updateLocalIfChanged })
  | unlock {call} (pc : (s.threads i).pc = .unlock call) :
      Accesses s i ({ s with gLock := none }.setThread i { s.threads i with pc := .ret })
  | ret (pc : (s.threads i).pc = .ret) :
      Accesses s i (s.setThread i { s.threads i with pc := .idle })

theorem pc_ne_idle_of_runThread {s s' : LazyState V ι} {i : ι} (h : runThread s i = some s') :
    (s.threads i).pc ≠ .idle := by
  intro hpc
  simp [runThread, hpc] at h

theorem accesses_of_runThread {s s' : LazyState V ι} {i : ι} (h : runThread s i = some s') :
    Accesses s i s' := by
  cases hpc : (s.threads i).pc with
  | idle => exact absurd hpc (pc_ne_idle_of_runThread h)
  | compare call =>
    cases call <;> simp only [runThread, hpc, Option.some.injEq] at h <;> subst h <;> split
    · exact .owns hpc ‹_›
    · exact .refuse hpc ‹_›
    · exact .unchanged hpc ‹_›
    · exact .changed hpc ‹_›
  | lock call =>
    simp only [runThread, hpc] at h
    split at h
    · cases h
      exact .lock hpc ‹_›
    · cases h
  | reread | unlock | ret =>
    simp only [runThread, hpc, Option.some.injEq] at h
    subst h
    first | exact .reread hpc | exact .unlock hpc | exact .ret hpc
  | version call =>
    cases call <;> simp only [runThread, hpc, Option.some.injEq] at h <;> subst h
    · exact .writeVersion hpc
    · exact .readVersion hpc
  | cmd call =>
    cases call <;> simp only [runThread, hpc, Option.some.injEq] at h <;> subst h
    · exact .writeCmd hpc
    · exact .readCmd hpc
  | size call =>
    cases call <;> simp only [runThread, hpc, Option.some.injEq] at h <;> subst h
    · exact .writeSize hpc
    · exact .readSize hpc
  | data call =>
    cases call <;> simp only [runThread, hpc, Option.some.injEq] at h <;> subst h
    · exact .writeData hpc
    · exact .readData hpc

theorem runThread_of_accesses {s s' : LazyState V ι} {i : ι} (h : Accesses s i s') :
    runThread s i = some s' := by
  cases h with
  | owns pc cond | refuse pc cond | unchanged pc cond | changed pc cond | lock pc cond =>
    simp [runThread, pc, cond]
  | reread pc | writeVersion pc | readVersion pc | writeCmd pc | readCmd pc | writeSize pc
  | readSize pc | writeData pc | readData pc | unlock pc | ret pc => simp [runThread, pc]

def lazyStep (s : LazyState V ι) : LazyAction V ι → Option (LazyState V ι)
  | .assign i tVersion tData =>
    if (s.threads i).pc = .idle then some (s.setThread i ⟨tVersion, tData, .idle⟩) else none
  | .call i call =>
    if (s.threads i).pc = .idle then
      some (s.setThread i { s.threads i with pc := .compare call })
    else none
  | .run i => runThread s i

def LazyAction.thread : LazyAction V ι → ι
  | .assign i _ _ | .call i _ | .run i => i

theorem lazyStep_assign {s s' : LazyState V ι} {i : ι} {tVersion : V} {tData : WCtrl}
    (h : lazyStep s (.assign i tVersion tData) = some s') :
    (s.threads i).pc = .idle ∧ s' = s.setThread i ⟨tVersion, tData, .idle⟩ := by
  simp only [lazyStep] at h
  split at h
  · exact ⟨‹_›, (Option.some.inj h).symm⟩
  · cases h

theorem lazyStep_call {s s' : LazyState V ι} {i : ι} {call : LazyCall}
    (h : lazyStep s (.call i call) = some s') :
    (s.threads i).pc = .idle ∧ s' = s.setThread i { s.threads i with pc := .compare call } := by
  simp only [lazyStep] at h
  split at h
  · exact ⟨‹_›, (Option.some.inj h).symm⟩
  · cases h

/-- Uninterrupted, the three copies of an update are `_copy_local_to_shared`. -/
theorem runThread_copyLocalToShared (s : LazyState V ι) {i : ι}
    (hpc : (s.threads i).pc = .cmd .updateGlobalIfOwner) :
    [i, i, i].foldlM runThread s = some
      ({ s with gData := copyLocalToShared (s.threads i).tData s.gData }.setThread i
        { s.threads i with pc := .unlock .updateGlobalIfOwner }) := by
  simp [runThread, hpc, LazyState.setThread, copyLocalToShared]

/-- Uninterrupted, the three copies of a refresh are `_copy_shared_to_local`. -/
theorem runThread_copySharedToLocal (s : LazyState V ι) {i : ι}
    (hpc : (s.threads i).pc = .cmd .updateLocalIfChanged) :
    [i, i, i].foldlM runThread s = some (s.setThread i
      { s.threads i with
        tData := copySharedToLocal (s.threads i).tData s.gData
        pc := .unlock .updateLocalIfChanged }) := by
  simp [runThread, hpc, LazyState.setThread, copySharedToLocal]

/-- The lock belongs to the thread that is between taking and releasing it. -/
def LockOk (s : LazyState V ι) : Prop :=
  ∀ i, s.gLock = some i ↔ (s.threads i).pc.critical = true

theorem runThread_threads_of_ne {s s' : LazyState V ι} {i j : ι} (h : runThread s i = some s')
    (hj : j ≠ i) : s'.threads j = s.threads j := by
  cases accesses_of_runThread h <;> exact LazyState.setThread_threads_of_ne _ _ hj

theorem lazyStep_threads_of_ne {s s' : LazyState V ι} {a : LazyAction V ι} {j : ι}
    (h : lazyStep s a = some s') (hj : j ≠ a.thread) : s'.threads j = s.threads j := by
  cases a with
  | run i => exact runThread_threads_of_ne h hj
  | assign i tVersion tData =>
    obtain ⟨_, rfl⟩ := lazyStep_assign h
    exact LazyState.setThread_threads_of_ne _ _ hj
  | call i call =>
    obtain ⟨_, rfl⟩ := lazyStep_call h
    exact LazyState.setThread_threads_of_ne _ _ hj

theorem runThread_frame {s s' : LazyState V ι} {i : ι} (h : runThread s i = some s')
    (hi : (s.threads i).pc.critical = false) :
    s'.gVersion = s.gVersion ∧ s'.gData = s.gData ∧ s'.published = s.published := by
  cases accesses_of_runThread h with
  | writeVersion pc | writeCmd pc | writeSize pc | writeData pc => simp [pc, LazyPc.critical] at hi
  | _ => exact ⟨rfl, rfl, rfl⟩

theorem runThread_published {s s' : LazyState V ι} {i : ι} (h : runThread s i = some s') :
    ∃ qs, s'.published = s.published ++ qs := by
  cases accesses_of_runThread h with
  | writeVersion pc => exact ⟨_, rfl⟩
  | _ => exact ⟨[], by simp⟩

/-- A thread takes the free lock, releases the lock it holds, or leaves it alone. -/
theorem runThread_lock {s s' : LazyState V ι} {i : ι} (h : runThread s i = some s') :
    (s.gLock = none ∧ s'.gLock = some i ∧ (s'.threads i).pc.critical = true) ∨
    ((s.threads i).pc.critical = true ∧ s'.gLock = none ∧ (s'.threads i).pc.critical = false) ∨
    (s'.gLock = s.gLock ∧ (s'.threads i).pc.critical = (s.threads i).pc.critical) := by
  cases accesses_of_runThread h with
  | lock pc free => exact .inl ⟨free, by simp [LazyPc.critical]⟩
  | unlock pc => exact .inr (.inl (by simp [pc, LazyPc.critical]))
  | owns pc | refuse pc | unchanged pc | changed pc | reread pc | writeVersion pc | readVersion pc
  | writeCmd pc | readCmd pc | writeSize pc | readSize pc | writeData pc | readData pc | ret pc =>
    exact .inr (.inr ⟨rfl, by simp [pc, LazyPc.critical]⟩)

theorem lockOk_runThread {s s' : LazyState V ι} {i : ι} (hs : LockOk s)
    (h : runThread s i = some s') : LockOk s' := by
  intro j
  by_cases hj : j = i
  · subst hj
    have hold := hs j
    rcases runThread_lock h with ⟨_, htaken, hin⟩ | ⟨_, hfree, hout⟩ | ⟨hsame, hpc⟩
    · simp [htaken, hin]
    · simp [hfree, hout]
    · rw [hsame, hpc]
      exact hold
  · have hold := hs j
    have hi := hs i
    rw [runThread_threads_of_ne h hj]
    rcases runThread_lock h with ⟨hfree, htaken, _⟩ | ⟨hin, hfree, _⟩ | ⟨hsame, _⟩
    · rw [htaken, ← hold, hfree]
      simp [Ne.symm hj]
    · rw [hfree, ← hold, hi.mpr hin]
      simp [Ne.symm hj]
    · rw [hsame]
      exact hold

theorem lockOk_lazyStep {s s' : LazyState V ι} {a : LazyAction V ι} (hs : LockOk s)
    (h : lazyStep s a = some s') : LockOk s' := by
  have houtside : ∀ {i : ι} {t : LazyThread V}, (s.threads i).pc = .idle → t.pc.critical = false →
      LockOk (s.setThread i t) := by
    intro i t hidle ht j
    have hold := hs j
    by_cases hj : j = i
    · subst hj
      rw [LazyState.setThread_threads_self, ht]
      simpa [hidle, LazyPc.critical] using hold
    · rw [LazyState.setThread_threads_of_ne _ _ hj]
      exact hold
  cases a with
  | run i => exact lockOk_runThread hs h
  | assign i tVersion tData =>
    obtain ⟨hidle, rfl⟩ := lazyStep_assign h
    exact houtside hidle rfl
  | call i call =>
    obtain ⟨hidle, rfl⟩ := lazyStep_call h
    exact houtside hidle rfl

theorem runThread_frame_of_held {s s' : LazyState V ι} {i j : ι} (hs : LockOk s)
    (h : runThread s i = some s') (hj : (s.threads j).pc.critical = true) (hji : j ≠ i) :
    s'.gVersion = s.gVersion ∧ s'.gData = s.gData ∧ s'.published = s.published := by
  apply runThread_frame h
  by_contra hi
  have hboth : some i = some j :=
    ((hs i).mpr (by simpa using hi)).symm.trans ((hs j).mpr hj)
  exact hji (Option.some.inj hboth).symm

def LazyState.initial (gVersion : V) (gData : WCtrl) (tVersion : ι → V) (tData : ι → WCtrl) :
    LazyState V ι where
  gVersion := gVersion
  gLock := none
  gData := gData
  threads i := ⟨tVersion i, tData i, .idle⟩
  published := [⟨gVersion, gData⟩]

omit [DecidableEq ι] [Ring V] [DecidableEq V] in
theorem lockOk_initial (gVersion : V) (gData : WCtrl) (tVersion : ι → V) (tData : ι → WCtrl) :
    LockOk (LazyState.initial gVersion gData tVersion tData) := by
  intro i
  simp [LazyState.initial, LazyPc.critical]

end Steps

section IntegerVersions

variable {ι : Type*} {v₀ : ℤ} {s s' : LazyState ℤ ι}

/-- Publications are numbered consecutively from the initial version, and `g_version`
is the number of the newest. -/
structure Numbered (v₀ : ℤ) (s : LazyState ℤ ι) : Prop where
  version : ∀ (k : ℕ) (p : Publication ℤ), s.published[k]? = some p → p.version = v₀ + k
  newest : s.gVersion + 1 = v₀ + s.published.length
  le_newest : v₀ ≤ s.gVersion

theorem numbered_initial (v₀ : ℤ) (gData : WCtrl) (tVersion : ι → ℤ) (tData : ι → WCtrl) :
    Numbered v₀ (LazyState.initial v₀ gData tVersion tData) := by
  refine ⟨?_, rfl, Int.le_refl v₀⟩
  intro k p hp
  cases k with
  | zero =>
    obtain rfl : (⟨v₀, gData⟩ : Publication ℤ) = p := by simpa [LazyState.initial] using hp
    simp
  | succ k => simp [LazyState.initial] at hp

theorem getElem?_concat_cases {α : Type*} {xs : List α} {x y : α} {k : ℕ}
    (h : (xs ++ [x])[k]? = some y) : xs[k]? = some y ∨ (k = xs.length ∧ y = x) := by
  rcases Nat.lt_or_ge k xs.length with hk | hk
  · exact .inl (by rwa [List.getElem?_append_left hk] at h)
  · rw [List.getElem?_append_right hk] at h
    obtain ⟨hlt, heq⟩ := List.getElem?_eq_some_iff.mp h
    simp only [List.length_singleton] at hlt
    exact .inr ⟨by omega, by simpa using heq.symm⟩

theorem Numbered.frame (h : Numbered v₀ s) (hv : s'.gVersion = s.gVersion)
    (hp : s'.published = s.published) : Numbered v₀ s' :=
  ⟨by simpa only [hp] using h.version, by simpa only [hv, hp] using h.newest,
    by simpa only [hv] using h.le_newest⟩

theorem Numbered.writeVersion (h : Numbered v₀ s) (ctrl : WCtrl) :
    Numbered v₀ (s.writeVersion (s.gVersion + 1) ctrl) := by
  have hnew := h.newest
  refine ⟨?_, ?_, h.le_newest.trans (by simp [LazyState.writeVersion])⟩
  · intro k p hp
    rcases getElem?_concat_cases hp with hold | ⟨rfl, rfl⟩
    · exact h.version k p hold
    · show s.gVersion + 1 = v₀ + (s.published.length : ℤ)
      exact hnew
  · simp only [LazyState.writeVersion, List.length_append, List.length_singleton]
    push_cast
    omega

end IntegerVersions

end Wineing
