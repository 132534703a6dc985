import Mathlib.Algebra.Ring.Divisibility.Basic
import Mathlib.Data.BitVec
import Mathlib.Data.Int.ModEq
import Wineing.LazyAtomicRegister

/-!
# Versions that wrap

The versions are `int`s of 32 bits, so a reader can find its version equal to `g_version`
although publications were made since it copied the shared record. Counting the
publications instead gives a state of the same calls over the integers; the two agree as
long as no reader waits for 2^32 publications between two of its compares.
-/

namespace Wineing
open WCtrl GuardedRuns

theorem intCast_bitVec_eq_iff (a b : ℤ) : (a : BitVec 32) = (b : BitVec 32) ↔ 2 ^ 32 ∣ a - b := by
  rw [← BitVec.toInt_inj, BitVec.toInt_intCast, BitVec.toInt_intCast,
    Int.bmod_eq_bmod_iff_bmod_sub_eq_zero, ← Int.dvd_iff_bmod_eq_zero]
  rfl

namespace LazyPc

def call : LazyPc → Option LazyCall
  | idle | ret => none
  | reread => some .updateGlobalIfOwner
  | compare c | lock c | version c | cmd c | size c | data c | unlock c => some c

end LazyPc

/-- Publications made. The first entry of `published` is the initial record. -/
def LazyState.publications {V ι : Type*} (s : LazyState V ι) : ℤ := s.published.length - 1

/-- `synced i` is the number of publications that had been made when thread `i` last copied
the shared record, -1 if it never has; `compared i` the number when it last compared the
versions in a refresh. No access reads them. -/
structure WrappedState (ι : Type*) where
  lazy : LazyState (BitVec 32) ι
  synced : ι → ℤ
  compared : ι → ℤ

section Definitions

variable {ι : Type*} [DecidableEq ι]

def wrappedStep (s : WrappedState ι) (a : LazyAction (BitVec 32) ι) : Option (WrappedState ι) :=
  (lazyStep s.lazy a).map fun l =>
    match a with
    | .run i =>
      { lazy := l
        synced := if (s.lazy.threads i).pc = .version .updateLocalIfChanged then
          Function.update s.synced i s.lazy.publications else s.synced
        compared := if (s.lazy.threads i).pc = .compare .updateLocalIfChanged then
          Function.update s.compared i s.lazy.publications else s.compared }
    | _ => { s with lazy := l }

/-- Thread `w` is the only writer, and every thread passes the version its previous call
returned. -/
def OneWriter (w : ι) (s : WrappedState ι) : LazyAction (BitVec 32) ι → Prop
  | .assign i tVersion _ => i = w ∧ tVersion = (s.lazy.threads i).tVersion
  | .call i .updateGlobalIfOwner => i = w
  | .call i .updateLocalIfChanged => i ≠ w
  | .run _ => True

/-- In addition, a reader compares the versions at least once every 2^32 - 1 publications,
the first time before publication 2^32 - 1. -/
def RefreshesOften (w : ι) (s : WrappedState ι) : LazyAction (BitVec 32) ι → Prop
  | .run i => (s.lazy.threads i).pc = .compare .updateLocalIfChanged →
      s.lazy.publications - s.compared i ≤ 2 ^ 32 - 1
  | a => OneWriter w s a

instance (w : ι) (s : WrappedState ι) :
    (a : LazyAction (BitVec 32) ι) → Decidable (OneWriter w s a)
  | .assign .. => inferInstanceAs (Decidable (_ ∧ _))
  | .call _ .updateGlobalIfOwner => inferInstanceAs (Decidable (_ = _))
  | .call _ .updateLocalIfChanged => inferInstanceAs (Decidable (_ ≠ _))
  | .run _ => isTrue trivial

/-- The refresh whose compare comes next skips the copy. -/
def Skips (s : WrappedState ι) (i : ι) : Prop :=
  ∃ s', wrappedStep s (.run i) = some s' ∧ (s'.lazy.threads i).pc = .ret

def wrappedInitial (w : ι) (gData : WCtrl) (tData : ι → WCtrl) : WrappedState ι where
  lazy := .initial 0 gData (fun i => if i = w then 0 else -1) tData
  synced _ := -1
  compared _ := -1

namespace WrappedState

def version (w : ι) (s : WrappedState ι) (i : ι) : ℤ :=
  if i = w then s.lazy.publications else s.synced i

def count (w : ι) (s : WrappedState ι) : LazyState ℤ ι where
  gVersion := s.lazy.publications
  gLock := s.lazy.gLock
  gData := s.lazy.gData
  threads i := ⟨s.version w i, (s.lazy.threads i).tData, (s.lazy.threads i).pc⟩
  published := s.lazy.published.mapIdx fun k p => ⟨k, p.ctrl⟩

end WrappedState

/-- The versions are the counts modulo 2^32, and every thread keeps to its call. -/
structure Wrapped (w : ι) (s : WrappedState ι) : Prop where
  shared : s.lazy.gVersion = (s.lazy.publications : BitVec 32)
  thread : ∀ i, (s.lazy.threads i).tVersion = (s.version w i : BitVec 32)
  call : ∀ i call, (s.lazy.threads i).pc.call = some call →
    (call = .updateGlobalIfOwner ↔ i = w)

end Definitions

section Steps

variable {ι : Type*} [DecidableEq ι] {w : ι} {s s' : WrappedState ι}

theorem wrapped_initial (w : ι) (gData : WCtrl) (tData : ι → WCtrl) :
    Wrapped w (wrappedInitial w gData tData) := by
  refine ⟨rfl, fun i => ?_, fun i call hcall => ?_⟩
  · by_cases hi : i = w <;>
      simp [wrappedInitial, LazyState.initial, WrappedState.version, LazyState.publications, hi]
  · simp [wrappedInitial, LazyState.initial, LazyPc.call] at hcall

theorem count_initial (w : ι) (gData : WCtrl) (tData : ι → WCtrl) :
    (wrappedInitial w gData tData).count w = singleWriterInitial w gData tData := by
  simp [wrappedInitial, WrappedState.count, WrappedState.version, singleWriterInitial,
    LazyState.initial, LazyState.publications]

theorem Wrapped.tVersion_eq_iff (h : Wrapped w s) {i : ι} (hi : i ≠ w) :
    (s.lazy.threads i).tVersion = s.lazy.gVersion ↔
      2 ^ 32 ∣ s.lazy.publications - s.synced i := by
  rw [h.shared, h.thread i, WrappedState.version, if_neg hi, intCast_bitVec_eq_iff]
  exact dvd_sub_comm

theorem Wrapped.writer_current (h : Wrapped w s) :
    (s.lazy.threads w).tVersion = s.lazy.gVersion := by
  rw [h.shared, h.thread w, WrappedState.version, if_pos rfl]

theorem skips_iff {i : ι} (hpc : (s.lazy.threads i).pc = .compare .updateLocalIfChanged) :
    Skips s i ↔ (s.lazy.threads i).tVersion = s.lazy.gVersion := by
  by_cases hv : (s.lazy.threads i).tVersion = s.lazy.gVersion <;>
    simp [Skips, wrappedStep, lazyStep, runThread, hpc, hv]

theorem locks_of_not_skips {i : ι}
    (hpc : (s.lazy.threads i).pc = .compare .updateLocalIfChanged) (hskips : ¬ Skips s i) :
    ∃ s', wrappedStep s (.run i) = some s' ∧
      (s'.lazy.threads i).pc = .lock .updateLocalIfChanged := by
  have hv := mt (skips_iff hpc).mpr hskips
  simp [wrappedStep, lazyStep, runThread, hpc, hv]

private theorem wrappedStep_run {i : ι} (hs : wrappedStep s (.run i) = some s') :
    ∃ l, runThread s.lazy i = some l ∧ s' = ⟨l,
      if (s.lazy.threads i).pc = .version .updateLocalIfChanged then
        Function.update s.synced i s.lazy.publications else s.synced,
      if (s.lazy.threads i).pc = .compare .updateLocalIfChanged then
        Function.update s.compared i s.lazy.publications else s.compared⟩ := by
  obtain ⟨l, hl, rfl⟩ := Option.map_eq_some_iff.mp hs
  exact ⟨l, hl, rfl⟩

theorem Wrapped.setThread (h : Wrapped w s) {l : LazyState (BitVec 32) ι} {i : ι}
    {t : LazyThread (BitVec 32)} {compared : ι → ℤ}
    (hl : l.gVersion = s.lazy.gVersion ∧ l.published = s.lazy.published ∧
      l.threads = s.lazy.threads)
    (ht : t.tVersion = (s.lazy.threads i).tVersion)
    (hcall : ∀ call, t.pc.call = some call → (call = .updateGlobalIfOwner ↔ i = w)) :
    Wrapped w ⟨l.setThread i t, s.synced, compared⟩ := by
  obtain ⟨hg, hp, hthreads⟩ := hl
  have hpublications : l.publications = s.lazy.publications := by
    simp only [LazyState.publications, hp]
  have hversion : ∀ j, WrappedState.version w ⟨l.setThread i t, s.synced, compared⟩ j =
      s.version w j := fun j => by
    simp only [WrappedState.version, LazyState.publications, LazyState.setThread_published, hp]
  refine ⟨?_, fun j => ?_, fun j => ?_⟩
  · rw [LazyState.setThread_gVersion, hg, h.shared, ← hpublications]
    rfl
  · rw [hversion]
    by_cases hj : j = i
    · subst hj
      rw [LazyState.setThread_threads_self, ht, h.thread]
    · rw [LazyState.setThread_threads_of_ne _ _ hj, hthreads, h.thread]
  · by_cases hj : j = i
    · subst hj
      rw [LazyState.setThread_threads_self]
      exact hcall
    · rw [LazyState.setThread_threads_of_ne _ _ hj, hthreads]
      exact h.call j

private theorem wrapped_run (h : Wrapped w s) {i : ι} (hs : wrappedStep s (.run i) = some s') :
    Wrapped w s' := by
  obtain ⟨l, ran, rfl⟩ := wrappedStep_run hs
  have hcall := h.call i
  cases accesses_of_runThread ran with
  | owns pc | refuse pc | changed pc | lock pc | writeCmd pc | readCmd pc | writeSize pc
  | readSize pc | writeData pc | readData pc =>
    simp only [pc, LazyPc.call] at hcall
    simp only [pc, reduceCtorEq, if_false]
    refine h.setThread ⟨rfl, rfl, rfl⟩ rfl ?_
    simpa [LazyPc.call] using hcall
  | unchanged pc | unlock pc | ret pc =>
    simp only [pc, reduceCtorEq, if_false]
    refine h.setThread ⟨rfl, rfl, rfl⟩ rfl ?_
    simp [LazyPc.call]
  | reread pc =>
    have hi : i = w := (hcall .updateGlobalIfOwner (by simp [pc, LazyPc.call])).mp rfl
    subst hi
    simp only [pc, reduceCtorEq, if_false]
    refine h.setThread ⟨rfl, rfl, rfl⟩ h.writer_current.symm ?_
    simp [LazyPc.call]
  | writeVersion pc =>
    have hi : i = w := (hcall .updateGlobalIfOwner (by simp [pc, LazyPc.call])).mp rfl
    subst hi
    simp only [pc, reduceCtorEq, if_false, LazyPc.version.injEq]
    have hnext : (s.lazy.threads i).tVersion + 1 = ((s.lazy.publications + 1 : ℤ) : BitVec 32) := by
      rw [h.writer_current, h.shared]
      push_cast
      rfl
    refine ⟨?_, fun j => ?_, fun j => ?_⟩
    · simpa [LazyState.writeVersion, LazyState.publications] using hnext
    · by_cases hj : j = i
      · subst hj
        simpa [LazyState.writeVersion, LazyState.publications, WrappedState.version] using hnext
      · have hold := h.thread j
        simp only [WrappedState.version, if_neg hj] at hold ⊢
        rw [LazyState.setThread_threads_of_ne _ _ hj]
        exact hold
    · by_cases hj : j = i
      · subst hj
        simp [LazyPc.call]
      · rw [LazyState.setThread_threads_of_ne _ _ hj]
        exact h.call j
  | readVersion pc =>
    have hi : i ≠ w := fun hi => by
      have := (hcall .updateLocalIfChanged (by simp [pc, LazyPc.call])).mpr hi
      cases this
    simp only [pc, reduceCtorEq, if_false, if_true]
    refine ⟨h.shared, fun j => ?_, fun j => ?_⟩
    · by_cases hj : j = i
      · subst hj
        simpa [WrappedState.version, hi] using h.shared
      · have hold := h.thread j
        rw [LazyState.setThread_threads_of_ne _ _ hj, hold]
        simp [WrappedState.version, LazyState.publications, hj]
    · by_cases hj : j = i
      · subst hj
        simp [LazyPc.call, hi]
      · rw [LazyState.setThread_threads_of_ne _ _ hj]
        exact h.call j

private theorem wrapped_step {a : LazyAction (BitVec 32) ι} (h : Wrapped w s) (ha : OneWriter w s a)
    (hs : wrappedStep s a = some s') : Wrapped w s' := by
  cases a with
  | run i => exact wrapped_run h hs
  | assign i tVersion tData =>
    obtain ⟨rfl, rfl⟩ := ha
    obtain ⟨l, hl, rfl⟩ := Option.map_eq_some_iff.mp hs
    obtain ⟨_, rfl⟩ := lazyStep_assign hl
    exact h.setThread ⟨rfl, rfl, rfl⟩ rfl (by simp [LazyPc.call])
  | call i call =>
    obtain ⟨l, hl, rfl⟩ := Option.map_eq_some_iff.mp hs
    obtain ⟨_, rfl⟩ := lazyStep_call hl
    refine h.setThread ⟨rfl, rfl, rfl⟩ rfl ?_
    cases call with
    | updateGlobalIfOwner => simpa [LazyPc.call, OneWriter] using ha
    | updateLocalIfChanged => simpa [LazyPc.call, OneWriter] using ha

attribute [local ext] LazyState

private theorem count_setThread (l : LazyState (BitVec 32) ι) (synced compared : ι → ℤ) (i : ι)
    (t : LazyThread (BitVec 32)) :
    WrappedState.count w ⟨l.setThread i t, synced, compared⟩ =
      (WrappedState.count w ⟨l, synced, compared⟩).setThread i
        ⟨WrappedState.version w ⟨l, synced, compared⟩ i, t.tData, t.pc⟩ := by
  have hthreads : (WrappedState.count w ⟨l.setThread i t, synced, compared⟩).threads =
      ((WrappedState.count w ⟨l, synced, compared⟩).setThread i
        ⟨WrappedState.version w ⟨l, synced, compared⟩ i, t.tData, t.pc⟩).threads := by
    funext j
    by_cases hj : j = i
    · subst hj
      simp [WrappedState.count, WrappedState.version, LazyState.publications]
    · simp [WrappedState.count, WrappedState.version, LazyState.publications,
        LazyState.setThread_threads_of_ne _ _ hj]
  exact LazyState.ext rfl rfl rfl hthreads rfl

private theorem count_writeVersion (l : LazyState (BitVec 32) ι) (synced compared : ι → ℤ)
    (v : BitVec 32) (ctrl : WCtrl) (t : LazyThread (BitVec 32)) :
    WrappedState.count w ⟨(l.writeVersion v ctrl).setThread w t, synced, compared⟩ =
      ((WrappedState.count w ⟨l, synced, compared⟩).writeVersion (l.publications + 1) ctrl).setThread
        w ⟨l.publications + 1, t.tData, t.pc⟩ := by
  have hpublications : (l.writeVersion v ctrl).publications = l.publications + 1 := by
    simp [LazyState.writeVersion, LazyState.publications]
  rw [count_setThread]
  refine LazyState.ext hpublications rfl rfl ?_ ?_
  · funext j
    by_cases hj : j = w
    · subst hj
      simp [WrappedState.version, hpublications]
    · simp [LazyState.setThread_threads_of_ne _ _ hj, WrappedState.count, WrappedState.version, hj,
        LazyState.writeVersion]
  · simp [WrappedState.count, LazyState.writeVersion, LazyState.publications]

private theorem count_readVersion (l : LazyState (BitVec 32) ι) (synced compared : ι → ℤ) {i : ι}
    (hi : i ≠ w) (t : LazyThread (BitVec 32)) :
    WrappedState.count w
        ⟨l.setThread i t, Function.update synced i l.publications, compared⟩ =
      (WrappedState.count w ⟨l, synced, compared⟩).setThread i
        ⟨l.publications, t.tData, t.pc⟩ := by
  rw [count_setThread]
  refine LazyState.ext rfl rfl rfl ?_ rfl
  funext j
  by_cases hj : j = i
  · subst hj
    simp [WrappedState.version, hi]
  · simp [LazyState.setThread_threads_of_ne _ _ hj, WrappedState.count, WrappedState.version, hj]

private theorem count_run (h : Wrapped w s) {i : ι}
    (hexact : (s.lazy.threads i).pc = .compare .updateLocalIfChanged →
      ((s.lazy.threads i).tVersion = s.lazy.gVersion ↔ s.version w i = s.lazy.publications))
    (hs : wrappedStep s (.run i) = some s') : runThread (s.count w) i = some (s'.count w) := by
  obtain ⟨l, ran, rfl⟩ := wrappedStep_run hs
  have hcall := h.call i
  refine runThread_of_accesses ?_
  cases accesses_of_runThread ran with
  | owns pc current =>
    have hi : i = w := (hcall .updateGlobalIfOwner (by simp [pc, LazyPc.call])).mp rfl
    simp only [pc, reduceCtorEq, if_false, count_setThread]
    exact .owns (s := s.count w) pc (if_pos hi)
  | refuse pc stale =>
    have hi : i = w := (hcall .updateGlobalIfOwner (by simp [pc, LazyPc.call])).mp rfl
    subst hi
    exact absurd h.writer_current stale
  | unchanged pc current =>
    simp only [pc, reduceCtorEq, if_false, count_setThread]
    exact .unchanged (s := s.count w) pc ((hexact pc).mp current)
  | changed pc stale =>
    simp only [pc, reduceCtorEq, if_false, count_setThread]
    exact .changed (s := s.count w) pc (fun heq => stale ((hexact pc).mpr heq))
  | reread pc =>
    have hi : i = w := (hcall .updateGlobalIfOwner (by simp [pc, LazyPc.call])).mp rfl
    simp only [pc, reduceCtorEq, if_false, count_setThread, WrappedState.version, if_pos hi]
    exact .reread (s := s.count w) pc
  | lock pc free =>
    simp only [pc, reduceCtorEq, if_false, count_setThread]
    exact .lock (s := s.count w) pc free
  | writeVersion pc =>
    have hi : i = w := (hcall .updateGlobalIfOwner (by simp [pc, LazyPc.call])).mp rfl
    subst hi
    simp only [pc, reduceCtorEq, if_false, LazyPc.version.injEq]
    rw [count_writeVersion]
    have hown : ((s.count i).threads i).tVersion = s.lazy.publications := if_pos rfl
    have hwrite := Accesses.writeVersion (s := s.count i) (i := i) pc
    rw [hown] at hwrite
    exact hwrite
  | readVersion pc =>
    have hi : i ≠ w := fun hi => by
      cases (hcall .updateLocalIfChanged (by simp [pc, LazyPc.call])).mpr hi
    simp only [pc, reduceCtorEq, if_false, if_true]
    rw [count_readVersion _ _ _ hi]
    exact .readVersion (s := s.count w) pc
  | writeCmd pc =>
    simp only [pc, reduceCtorEq, if_false, count_setThread]
    exact .writeCmd (s := s.count w) pc
  | readCmd pc =>
    simp only [pc, reduceCtorEq, if_false, count_setThread]
    exact .readCmd (s := s.count w) pc
  | writeSize pc =>
    simp only [pc, reduceCtorEq, if_false, count_setThread]
    exact .writeSize (s := s.count w) pc
  | readSize pc =>
    simp only [pc, reduceCtorEq, if_false, count_setThread]
    exact .readSize (s := s.count w) pc
  | writeData pc =>
    simp only [pc, reduceCtorEq, if_false, count_setThread]
    exact .writeData (s := s.count w) pc
  | readData pc =>
    simp only [pc, reduceCtorEq, if_false, count_setThread]
    exact .readData (s := s.count w) pc
  | unlock pc =>
    simp only [pc, reduceCtorEq, if_false, count_setThread]
    exact .unlock (s := s.count w) pc
  | ret pc =>
    simp only [pc, reduceCtorEq, if_false, count_setThread]
    exact .ret (s := s.count w) pc

/-- No reader is ahead, and none has copied before its last compare but the one whose call
is about to copy. -/
structure Often (w : ι) (s : WrappedState ι) : Prop where
  synced_le : ∀ i, s.synced i ≤ s.lazy.publications
  compared_le : ∀ i, s.compared i ≤ s.lazy.publications
  compared_le_synced : ∀ i, i ≠ w → (s.lazy.threads i).pc ≠ .lock .updateLocalIfChanged →
    (s.lazy.threads i).pc ≠ .version .updateLocalIfChanged → s.compared i ≤ s.synced i

theorem often_initial (w : ι) (gData : WCtrl) (tData : ι → WCtrl) :
    Often w (wrappedInitial w gData tData) := by
  refine ⟨fun i => ?_, fun i => ?_, fun i _ _ _ => le_refl _⟩ <;>
    simp [wrappedInitial, LazyState.publications, LazyState.initial]

/-- A multiple of 2^32 publications below 2^32 is none. -/
theorem Often.current_iff (h : Often w s) (hw : Wrapped w s) {i : ι} (hi : i ≠ w)
    (hpc : (s.lazy.threads i).pc = .compare .updateLocalIfChanged)
    (hoften : s.lazy.publications - s.compared i ≤ 2 ^ 32 - 1) :
    (s.lazy.threads i).tVersion = s.lazy.gVersion ↔ s.synced i = s.lazy.publications := by
  have hle := h.synced_le i
  have hcompared := h.compared_le_synced i hi (by simp [hpc]) (by simp [hpc])
  rw [hw.tVersion_eq_iff hi]
  constructor
  · intro hdvd
    have hzero := Int.eq_zero_of_dvd_of_nonneg_of_lt (by omega) (by omega) hdvd
    omega
  · intro heq
    simp [heq]

private theorem publications_run {l l' : LazyState (BitVec 32) ι} {i : ι} (ran : runThread l i = some l') :
    l.publications ≤ l'.publications := by
  obtain ⟨qs, hqs⟩ := runThread_published ran
  simp [LazyState.publications, hqs]

private theorem ite_update_le {c : Prop} [Decidable c] {f : ι → ℤ} {i : ι} {m n : ℤ} (hf : ∀ j, f j ≤ m)
    (hn : n ≤ m) (j : ι) : (if c then Function.update f i n else f) j ≤ m := by
  split
  · rw [Function.update_apply]
    split
    · exact hn
    · exact hf j
  · exact hf j

private theorem often_run (h : Often w s) (hw : Wrapped w s) {i : ι} (ha : RefreshesOften w s (.run i))
    (hs : wrappedStep s (.run i) = some s') : Often w s' := by
  obtain ⟨l, ran, rfl⟩ := wrappedStep_run hs
  have hmono := publications_run ran
  refine ⟨fun j => ?_, fun j => ?_, fun j hj hlock hversion => ?_⟩
  · exact ite_update_le (fun j => (h.synced_le j).trans hmono) hmono j
  · exact ite_update_le (fun j => (h.compared_le j).trans hmono) hmono j
  · by_cases hji : j = i
    · subst hji
      have hcompared := h.compared_le j
      have hold := h.compared_le_synced j hj
      cases accesses_of_runThread ran with
      | unchanged pc current =>
        simpa [pc] using ((h.current_iff hw hj pc (ha pc)).mp current).ge
      | changed pc => simp at hlock
      | @lock call pc free =>
        cases call with
        | updateGlobalIfOwner =>
          exact absurd ((hw.call j .updateGlobalIfOwner (by simp [pc, LazyPc.call])).mp rfl) hj
        | updateLocalIfChanged => simp at hversion
      | readVersion pc => simpa [pc] using hcompared
      | owns pc | refuse pc | reread pc | writeVersion pc | writeCmd pc | readCmd pc | writeSize pc
      | readSize pc | writeData pc | readData pc | unlock pc | ret pc =>
        simpa [pc] using hold (by simp [pc]) (by simp [pc])
    · rw [runThread_threads_of_ne ran hji] at hlock hversion
      have hold := h.compared_le_synced j hj hlock hversion
      simpa [ite_apply, Function.update_of_ne hji] using hold

omit [DecidableEq ι] in
theorem RefreshesOften.oneWriter {a : LazyAction (BitVec 32) ι} (ha : RefreshesOften w s a) :
    OneWriter w s a := by
  cases a with
  | run i => trivial
  | assign i tVersion tData => exact ha
  | call i call => exact ha

private theorem often_step {a : LazyAction (BitVec 32) ι} (h : Often w s) (hw : Wrapped w s)
    (ha : RefreshesOften w s a) (hs : wrappedStep s a = some s') : Often w s' := by
  have houtside : ∀ {i t}, t.pc ≠ .lock .updateLocalIfChanged →
      t.pc ≠ .version .updateLocalIfChanged → (s.lazy.threads i).pc = .idle →
      Often w { s with lazy := s.lazy.setThread i t } := by
    intro i t _ _ hidle
    refine ⟨h.synced_le, h.compared_le, fun j hj hlock hversion => ?_⟩
    by_cases hji : j = i
    · subst hji
      exact h.compared_le_synced j hj (by simp [hidle]) (by simp [hidle])
    · simp only [LazyState.setThread_threads_of_ne _ _ hji] at hlock hversion
      exact h.compared_le_synced j hj hlock hversion
  cases a with
  | run i => exact often_run h hw ha hs
  | assign i tVersion tData =>
    obtain ⟨l, hl, rfl⟩ := Option.map_eq_some_iff.mp hs
    obtain ⟨hidle, rfl⟩ := lazyStep_assign hl
    exact houtside (by simp) (by simp) hidle
  | call i call =>
    obtain ⟨l, hl, rfl⟩ := Option.map_eq_some_iff.mp hs
    obtain ⟨hidle, rfl⟩ := lazyStep_call hl
    exact houtside (by simp) (by simp) hidle

private theorem count_call {i : ι} {call : LazyCall} (hs : wrappedStep s (.call i call) = some s') :
    lazyStep (s.count w) (.call i call) = some (s'.count w) := by
  obtain ⟨l, hl, rfl⟩ := Option.map_eq_some_iff.mp hs
  obtain ⟨hidle, rfl⟩ := lazyStep_call hl
  rw [count_setThread]
  exact if_pos hidle

/-- Refreshed often enough, the wrapping versions are those of the integers. -/
private theorem count_step {a : LazyAction (BitVec 32) ι} (h : Often w s) (hw : Wrapped w s)
    (ha : RefreshesOften w s a) (hs : wrappedStep s a = some s') :
    ∃ b, SingleWriter w (s.count w) b ∧ lazyStep (s.count w) b = some (s'.count w) := by
  cases a with
  | run i =>
    refine ⟨.run i, trivial, count_run hw (fun hpc => ?_) hs⟩
    by_cases hi : i = w
    · subst hi
      simp [hw.writer_current, WrappedState.version]
    · rw [h.current_iff hw hi hpc (ha hpc), WrappedState.version, if_neg hi]
  | assign i tVersion tData =>
    obtain ⟨rfl, _⟩ := ha
    obtain ⟨l, hl, rfl⟩ := Option.map_eq_some_iff.mp hs
    obtain ⟨hidle, rfl⟩ := lazyStep_assign hl
    refine ⟨.assign i (s.version i i) tData, ⟨rfl, rfl⟩, ?_⟩
    rw [count_setThread]
    exact if_pos hidle
  | call i call =>
    refine ⟨.call i call, ?_, count_call hs⟩
    cases call with
    | updateGlobalIfOwner => exact ha
    | updateLocalIfChanged => exact ha

private theorem count_of_run {as : List (LazyAction (BitVec 32) ι)} (hw : Wrapped w s) (h : Often w s)
    (run : Run wrappedStep (RefreshesOften w) s as s') :
    (Wrapped w s' ∧ Often w s') ∧
      ∃ bs, Run lazyStep (SingleWriter w) (s.count w) bs (s'.count w) := by
  obtain ⟨hrun, hinv⟩ : Run wrappedStep
      (fun t a => RefreshesOften w t a ∧ Wrapped w t ∧ Often w t) s as s' ∧ _ := run.reguard
    (fun t => Wrapped w t ∧ Often w t) ⟨hw, h⟩
    (fun _ _ _ ht ha hs => ⟨wrapped_step ht.1 ha.oneWriter hs, often_step ht.2 ht.1 ha hs⟩)
    (fun _ _ _ ht ha _ => ⟨ha, ht⟩)
  exact ⟨hinv, hrun.simulates (WrappedState.count w)
    (fun _ _ _ ha hs => .inr (count_step ha.2.2 ha.2.1 ha.1 hs))⟩

end Steps

/-- A reader refreshes, the writer updates, and the reader begins to refresh. -/
def updateBetweenRefreshes : List (LazyAction (BitVec 32) Bool) :=
  List.flatten [[.call true .updateLocalIfChanged], List.replicate 8 (.run true),
    [.call false .updateGlobalIfOwner], List.replicate 8 (.run false),
    [.call true .updateLocalIfChanged]]

def refreshAgain : List (LazyAction (BitVec 32) Bool) :=
  List.replicate 8 (.run true) ++ [.call true .updateLocalIfChanged]

end Wineing
