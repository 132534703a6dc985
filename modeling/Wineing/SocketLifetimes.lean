import Wineing.WineingProcess

/-!
# The sockets when the context is terminated

`zmq_term` waits for every socket of the context. `chan_bind` creates a socket before it
binds or connects it, and leaves the socket open where that fails: `cchan_in_thread` and
`market_thread` then call it again on the same chan, and `cchan_out_thread` returns
without destroying the chan it has bound. Whether all sockets are closed in the end is
decided by these failures alone.
-/

namespace Wineing
open CStringMemory GuardedRuns ResourceLedger

def Chan.pthread : Chan → Pthread
  | .cchanIn | .cchanInOutInmem => .cchanIn
  | .cchanOut | .cchanInMem => .cchanOut
  | .mchan | .marketOutInmem => .market

namespace Pthread

/-- The chans that a thread has bound and not destroyed. -/
def bound (p : Pthread) : Life → List Chan
  | .created | .bindFirst | .returned => []
  | .bindSecond => [p.firstChan]
  | .looping => [p.firstChan, p.secondChan]
  | .destroySecond => [p.destroyed.2]

/-- The chans that a thread destroys if it leaves through the end of its loop. -/
def toDestroy (p : Pthread) : Life → List Chan
  | .created | .bindFirst | .bindSecond | .looping => [p.destroyed.1, p.destroyed.2]
  | .destroySecond => [p.destroyed.2]
  | .returned => []

def chan (p : Pthread) (first : Bool) : Chan := if first then p.firstChan else p.secondChan

theorem chan_pthread (p : Pthread) (first : Bool) : (p.chan first).pthread = p := by
  cases p <;> cases first <;> rfl

theorem destroyed_pthread (p : Pthread) : p.destroyed.1.pthread = p ∧ p.destroyed.2.pthread = p := by
  cases p <;> exact ⟨rfl, rfl⟩

private theorem firstChan_ne (p : Pthread) : p.firstChan ≠ p.secondChan := by
  cases p <;> decide

private theorem destroyed_ne (p : Pthread) : p.destroyed.1 ≠ p.destroyed.2 := by
  cases p <;> decide

/-- What a thread has bound, it destroys. -/
theorem mem_destroyed {p : Pthread} {c : Chan} :
    c ∈ [p.firstChan, p.secondChan] ↔ c = p.destroyed.1 ∨ c = p.destroyed.2 := by
  cases p <;> simp [firstChan, secondChan, destroyed, or_comm]

theorem toDestroy_of_bound {p : Pthread} {life : Life} {c : Chan} (h : c ∈ p.bound life) :
    c ∈ p.toDestroy life := by
  cases life with
  | created | bindFirst | returned => cases h
  | destroySecond => exact h
  | looping => simpa [toDestroy] using mem_destroyed.mp h
  | bindSecond =>
    obtain rfl := List.mem_singleton.mp h
    simpa [toDestroy] using mem_destroyed.mp (List.mem_cons_self ..)

variable {p : Pthread} {c : Chan} {first : Bool}

private theorem mem_bound_after_bind :
    c ∈ p.bound (lifeAfterBind p first true) ↔
      c ∈ p.bound (if first then .bindFirst else .bindSecond) ∨ c = p.chan first := by
  cases first <;> simp [lifeAfterBind, bound, chan]

private theorem bound_of_failed_bind (h : c ∈ p.bound (lifeAfterBind p first false)) :
    c ∈ p.bound (if first then .bindFirst else .bindSecond) := by
  cases first with
  | true => cases h
  | false =>
    simp only [lifeAfterBind] at h
    split at h
    · cases h
    · exact h

private theorem bound_failed_bind (hleak : p = .cchanOut → first = true)
    (h : c ∈ p.bound (if first then .bindFirst else .bindSecond)) :
    c ∈ p.bound (lifeAfterBind p first false) := by
  cases first with
  | true => cases h
  | false =>
    have hne : p ≠ .cchanOut := fun hp => Bool.noConfusion (hleak hp)
    simpa [lifeAfterBind, hne] using h

theorem mem_bound_looping :
    c ∈ p.bound .looping ↔ c ∈ p.bound .destroySecond ∨ c = p.destroyed.1 := by
  simpa [bound, or_comm] using mem_destroyed (p := p) (c := c)

theorem mem_bound_destroySecond :
    c ∈ p.bound .destroySecond ↔ c ∈ p.bound .returned ∨ c = p.destroyed.2 := by
  simp [bound]

end Pthread

namespace Process

def Bound (s : Process) (c : Chan) : Prop := c ∈ c.pthread.bound (s.life c.pthread)

def WillDestroy (s : Process) (c : Chan) : Prop := c ∈ c.pthread.toDestroy (s.life c.pthread)

def Holds (s : Process) (c : Chan) (h : ℕ) : Prop := s.Bound c ∧ s.sockets.sock c = some h

end Process

/-- A handle that is closed was open, and no other chan has it. -/
structure SocketsInv (s : Process) : Prop where
  balanced : s.sockets.handles.Balanced
  live : ∀ c h, s.Holds c h → h ∈ s.sockets.handles.live
  distinct : ∀ c d h, s.Holds c h → s.Holds d h → c = d
  held : ∀ c, s.Bound c → ∃ h, s.sockets.sock c = some h

/-- A bind or connect fails only where `zmq_socket` has failed, and `cchan_out_thread` does
not fail to bind the inproc endpoint. -/
def NoBindLeak (s : Process) : ProcessAction → Prop
  | .bind p created bound =>
    bound = false → created = false ∧ ¬ (p = .cchanOut ∧ s.life p = .bindSecond)
  | _ => True

section Steps

variable {tapeBasedir : Bytes} {s s' : Process} {p : Pthread} {c d : Chan} {h : ℕ}
variable {created bound first : Bool} {a : ProcessAction}

private theorem bound_update {life : Life} (hlife : s'.life = Function.update s.life p life) :
    s'.Bound c ↔ if c.pthread = p then c ∈ p.bound life else s.Bound c := by
  unfold Process.Bound
  by_cases hp : c.pthread = p
  · subst hp
    simp [hlife]
  · simp [hlife, hp]

theorem not_bound_of_life (hlife : s.life p = if first then .bindFirst else .bindSecond) :
    ¬ s.Bound (p.chan first) := by
  unfold Process.Bound
  rw [Pthread.chan_pthread, hlife]
  cases first with
  | true => simp [Pthread.bound]
  | false => simpa [Pthread.bound, Pthread.chan] using p.firstChan_ne.symm

private theorem bound_of_bound_bind (hlife : s.life p = if first then .bindFirst else .bindSecond)
    (hc : (s.chanBind p (p.chan first) created bound (lifeAfterBind p first bound)).Bound c) :
    s.Bound c ∨ bound = true ∧ c = p.chan first := by
  rw [bound_update rfl] at hc
  split at hc
  · subst p
    cases bound with
    | false => exact .inl (hlife ▸ Pthread.bound_of_failed_bind hc :)
    | true =>
      rcases Pthread.mem_bound_after_bind.mp hc with hold | hnew
      · exact .inl (hlife ▸ hold :)
      · exact .inr ⟨rfl, hnew⟩
  · exact .inl hc

private theorem bound_bind (hlife : s.life p = if first then .bindFirst else .bindSecond)
    (hleak : bound = false → p = .cchanOut → first = true) (hc : s.Bound c) :
    (s.chanBind p (p.chan first) created bound (lifeAfterBind p first bound)).Bound c := by
  rw [bound_update rfl]
  split
  · subst p
    have hold : c ∈ c.pthread.bound (if first then .bindFirst else .bindSecond) := hlife ▸ hc
    cases bound with
    | false => exact Pthread.bound_failed_bind (hleak rfl) hold
    | true => exact Pthread.mem_bound_after_bind.mpr (.inl hold)
  · exact hc

private theorem holds_of_holds_bind (hlife : s.life p = if first then .bindFirst else .bindSecond)
    (hcan : s.CanBind (p.chan first) created bound)
    (hc : (s.chanBind p (p.chan first) created bound (lifeAfterBind p first bound)).Holds c h) :
    s.Holds c h ∨
      created = true ∧ bound = true ∧ c = p.chan first ∧ h = s.sockets.handles.next := by
  obtain ⟨hbound, hsock⟩ := hc
  rcases bound_of_bound_bind hlife hbound with hold | ⟨rfl, rfl⟩
  · have hne : c ≠ p.chan first := fun heq => not_bound_of_life hlife (heq ▸ hold)
    refine .inl ⟨hold, ?_⟩
    cases created <;> simpa [Process.chanBind, Sockets.socket, hne] using hsock
  · obtain rfl := (hcan rfl).1
    have hnew : s.sockets.handles.next = h := by
      simpa [Process.chanBind, Sockets.socket] using hsock
    exact .inr ⟨rfl, rfl, rfl, hnew.symm⟩

private theorem holds_bind (hlife : s.life p = if first then .bindFirst else .bindSecond)
    (hleak : bound = false → p = .cchanOut → first = true) (hc : s.Holds c h) :
    (s.chanBind p (p.chan first) created bound (lifeAfterBind p first bound)).Holds c h := by
  have hne : c ≠ p.chan first := fun heq => not_bound_of_life hlife (heq ▸ hc.1)
  refine ⟨bound_bind hlife hleak hc.1, ?_⟩
  cases created <;> simpa [Process.chanBind, Sockets.socket, hne] using hc.2

theorem destroy_cases (h : processStep tapeBasedir s (.destroy p) = some s') :
    ∃ c life, s' = s.chanDestroy p c life ∧ s.Bound c ∧
      ∀ d, (s.chanDestroy p c life).Bound d ↔ s.Bound d ∧ d ≠ c := by
  have hbound : ∀ c life, c.pthread = p → c ∉ p.bound life →
      (∀ d, d ∈ p.bound (s.life p) ↔ d ∈ p.bound life ∨ d = c) →
      s.Bound c ∧ ∀ d, (s.chanDestroy p c life).Bound d ↔ s.Bound d ∧ d ≠ c := by
    intro c life hp hc hlife
    subst hp
    refine ⟨(hlife c).mpr (.inr rfl), fun d => ?_⟩
    have hupdate : (s.chanDestroy c.pthread c life).Bound d ↔
        if d.pthread = c.pthread then d ∈ c.pthread.bound life else s.Bound d := bound_update rfl
    rw [hupdate]
    by_cases hd : d.pthread = c.pthread
    · have hne : d ∈ c.pthread.bound life → d ≠ c := fun hmem heq => hc (heq ▸ hmem)
      simp only [hd, ↓reduceIte, Process.Bound, hlife]
      tauto
    · have hne : d ≠ c := fun heq => hd (heq ▸ rfl)
      simp [hd, hne]
  rcases processStep_destroy h with ⟨hlife, rfl⟩ | ⟨hlife, rfl⟩
  · refine ⟨_, _, rfl, hbound _ _ p.destroyed_pthread.1 ?_ fun d => ?_⟩
    · simpa [Pthread.bound] using p.destroyed_ne
    · exact hlife ▸ Pthread.mem_bound_looping
  · refine ⟨_, _, rfl, hbound _ _ p.destroyed_pthread.2 ?_ fun d => ?_⟩
    · simp [Pthread.bound]
    · exact hlife ▸ Pthread.mem_bound_destroySecond

theorem bound_of_sockets (h : processStep tapeBasedir s a = some s')
    (ha : a.opensOrCloses = false) : s'.sockets = s.sockets ∧ s'.Bound = s.Bound := by
  obtain ⟨hsockets, hlife⟩ := sockets_of_processStep h ha
  refine ⟨hsockets, ?_⟩
  funext c
  rcases hlife with hlife | ⟨p, rfl, hcreated, rfl⟩
  · simp [Process.Bound, hlife]
  · apply propext
    have hupdate : (s.setLife p .bindFirst).Bound c ↔
        if c.pthread = p then c ∈ p.bound .bindFirst else s.Bound c := bound_update rfl
    rw [hupdate]
    by_cases hp : c.pthread = p
    · subst hp
      simp [Process.Bound, hcreated, Pthread.bound]
    · simp [hp]

theorem socketsInv_initial (gBuffer : Memory) (buffer : Party → Memory) :
    SocketsInv (processInitial gBuffer buffer) where
  balanced := Ledger.balanced_empty
  live _ _ hc := nomatch hc.2
  distinct _ _ _ hc := nomatch hc.2
  held c hc := by cases c <;> cases hc

private theorem socketsInv_bind (hinv : SocketsInv s)
    (hlife : s.life p = if first then .bindFirst else .bindSecond)
    (hcan : s.CanBind (p.chan first) created bound) :
    SocketsInv (s.chanBind p (p.chan first) created bound (lifeAfterBind p first bound)) := by
  have hhandles := s.sockets.socket_handles (p.chan first) created
  have hnew : ∀ {d n}, s.Holds d n → n ≠ s.sockets.handles.next := fun hd heq =>
    Nat.lt_irrefl _ (heq ▸ hinv.balanced.lt_next (hinv.live _ _ hd))
  refine ⟨?balanced, fun c h hc => ?live, fun c d h hc hd => ?distinct, fun c hc => ?held⟩
  case balanced =>
    simp only [Process.chanBind, hhandles]
    split
    · exact hinv.balanced.acquire
    · exact hinv.balanced
  case live =>
    simp only [Process.chanBind, hhandles]
    rcases holds_of_holds_bind hlife hcan hc with hold | ⟨rfl, _, _, rfl⟩
    · split
      · exact Ledger.mem_live_acquire.mpr (.inl (hinv.live c h hold))
      · exact hinv.live c h hold
    · exact Ledger.mem_live_acquire.mpr (.inr rfl)
  case distinct =>
    rcases holds_of_holds_bind hlife hcan hc with hcold | ⟨_, _, rfl, hcnew⟩
    · rcases holds_of_holds_bind hlife hcan hd with hdold | ⟨_, _, _, hdnew⟩
      · exact hinv.distinct c d h hcold hdold
      · exact absurd hdnew (hnew hcold)
    · rcases holds_of_holds_bind hlife hcan hd with hdold | ⟨_, _, rfl, _⟩
      · exact absurd hcnew (hnew hdold)
      · rfl
  case held =>
    rcases bound_of_bound_bind hlife hc with hold | ⟨rfl, rfl⟩
    · have hne : c ≠ p.chan first := fun heq => not_bound_of_life hlife (heq ▸ hold)
      obtain ⟨n, hn⟩ := hinv.held c hold
      exact ⟨n, by cases created <;> simpa [Process.chanBind, Sockets.socket, hne] using hn⟩
    · obtain rfl := (hcan rfl).1
      exact ⟨_, by simp [Process.chanBind, Sockets.socket]; rfl⟩

private theorem holds_destroy {life : Life} (hinv : SocketsInv s) (hc : s.Bound c)
    (hbound : ∀ d, (s.chanDestroy p c life).Bound d ↔ s.Bound d ∧ d ≠ c) :
    (∀ d n, (s.chanDestroy p c life).Holds d n ↔ s.Holds d n ∧ d ≠ c) ∧
    ∃ n, s.Holds c n ∧
      (s.chanDestroy p c life).sockets.handles = s.sockets.handles.release n := by
  obtain ⟨n, hn⟩ := hinv.held c hc
  refine ⟨fun d m => ?_, n, ⟨hc, hn⟩, Sockets.close_handles hn⟩
  have hsock : (s.chanDestroy p c life).sockets.sock = s.sockets.sock := s.sockets.close_sock c
  simp only [Process.Holds, hsock, hbound]
  tauto

private theorem socketsInv_step (hinv : SocketsInv s) (h : processStep tapeBasedir s a = some s') :
    SocketsInv s' := by
  cases ha : a.opensOrCloses with
  | false =>
    obtain ⟨hsockets, hbound⟩ := bound_of_sockets h ha
    have hholds : s'.Holds = s.Holds := by
      funext c n
      simp [Process.Holds, hbound, hsockets]
    exact ⟨hsockets ▸ hinv.balanced, hsockets ▸ hholds ▸ hinv.live, hholds ▸ hinv.distinct,
      hsockets ▸ hbound ▸ hinv.held⟩
  | true =>
    cases a with
    | bind p created bound =>
      obtain ⟨first, hlife, hcan, rfl⟩ := processStep_bind h
      exact socketsInv_bind hinv hlife hcan
    | destroy p =>
      obtain ⟨c, life, rfl, hc, hbound⟩ := destroy_cases h
      obtain ⟨hholds, n, hn, hhandles⟩ := holds_destroy hinv hc hbound
      have hlive := hinv.live c n hn
      refine ⟨hhandles ▸ hinv.balanced.release hlive, fun d m hd => ?_, fun d e m hd he => ?_,
        fun d hd => ?_⟩
      · obtain ⟨hd, hne⟩ := (hholds d m).mp hd
        have hm : m ≠ n := fun heq => hne (hinv.distinct d c n (heq ▸ hd) hn)
        rw [hhandles]
        exact hinv.balanced.mem_live_release.mpr ⟨hm, hinv.live d m hd⟩
      · exact hinv.distinct d e m ((hholds d m).mp hd).1 ((hholds e m).mp he).1
      · obtain ⟨m, hm⟩ := hinv.held d ((hbound d).mp hd).1
        exact ⟨m, (s.sockets.close_sock c).symm ▸ hm⟩
    | start | run | newBuffer | sendFails | zmqDone => cases ha

def Process.HandleOwner (s : Process) (h : ℕ) : Prop := ∃ c, s.Holds c h

private theorem owner_of_owner_bind (hinv : SocketsInv s)
    (hlife : s.life p = if first then .bindFirst else .bindSecond)
    (hcan : s.CanBind (p.chan first) created bound) (hh : h ∈ s.sockets.handles.live)
    (howner : (s.chanBind p (p.chan first) created bound
      (lifeAfterBind p first bound)).HandleOwner h) : s.HandleOwner h := by
  obtain ⟨c, hc⟩ := howner
  rcases holds_of_holds_bind hlife hcan hc with hold | ⟨_, _, _, rfl⟩
  · exact ⟨c, hold⟩
  · exact absurd (hinv.balanced.lt_next hh) (Nat.lt_irrefl _)

private theorem handlesOwned_step (hinv : SocketsInv s)
    (howned : s.sockets.handles.Owned s.HandleOwner) (hguard : NoBindLeak s a)
    (h : processStep tapeBasedir s a = some s') : s'.sockets.handles.Owned s'.HandleOwner := by
  cases ha : a.opensOrCloses with
  | false =>
    obtain ⟨hsockets, hbound⟩ := bound_of_sockets h ha
    rw [hsockets]
    refine howned.mono fun n _ ⟨c, hc⟩ => ⟨c, ?_⟩
    exact ⟨hbound ▸ hc.1, hsockets ▸ hc.2⟩
  | true =>
    cases a with
    | bind p created bound =>
      obtain ⟨first, hlife, hcan, rfl⟩ := processStep_bind h
      have hleak : bound = false → p = .cchanOut → first = true := by
        intro hfails hp
        by_contra hsecond
        exact (hguard hfails).2 ⟨hp, by simpa [hsecond] using hlife⟩
      have hkeep : ∀ n ∈ s.sockets.handles.live, s.HandleOwner n →
          (s.chanBind p (p.chan first) created bound
            (lifeAfterBind p first bound)).HandleOwner n :=
        fun n _ ⟨c, hc⟩ => ⟨c, holds_bind hlife hleak hc⟩
      have hhandles := s.sockets.socket_handles (p.chan first) created
      cases created with
      | false => exact hhandles ▸ howned.mono hkeep
      | true =>
        have hsucceeds : bound = true := by
          by_contra hfails
          exact Bool.noConfusion (hguard (by simpa using hfails)).1
        subst hsucceeds
        refine hhandles ▸ howned.acquire hkeep ⟨p.chan first, ?_, ?_⟩
        · rw [bound_update rfl, Pthread.chan_pthread]
          simpa using Pthread.mem_bound_after_bind.mpr (.inr rfl)
        · exact Function.update_self ..
    | destroy p =>
      obtain ⟨c, life, rfl, hc, hbound⟩ := destroy_cases h
      obtain ⟨hholds, n, hn, hhandles⟩ := holds_destroy hinv hc hbound
      rw [hhandles]
      refine howned.release hinv.balanced fun m _ hm ⟨d, hd⟩ => ⟨d, (hholds d m).mpr ⟨hd, ?_⟩⟩
      rintro rfl
      exact hm (Option.some.inj (hd.2.symm.trans hn.2))
    | start | run | newBuffer | sendFails | zmqDone => cases ha

private theorem handleLost_step (hinv : SocketsInv s) (hlost : s.sockets.handles.Lost s.HandleOwner)
    (h : processStep tapeBasedir s a = some s') : s'.sockets.handles.Lost s'.HandleOwner := by
  cases ha : a.opensOrCloses with
  | false =>
    obtain ⟨hsockets, hbound⟩ := bound_of_sockets h ha
    rw [hsockets]
    refine hlost.mono fun n _ ⟨c, hc⟩ => ⟨c, ?_⟩
    exact ⟨hbound ▸ hc.1, hsockets ▸ hc.2⟩
  | true =>
    cases a with
    | bind p created bound =>
      obtain ⟨first, hlife, hcan, rfl⟩ := processStep_bind h
      have hkeep := fun n hn => owner_of_owner_bind (h := n) hinv hlife hcan hn
      have hhandles := s.sockets.socket_handles (p.chan first) created
      cases created with
      | false => exact hhandles ▸ hlost.mono hkeep
      | true => exact hhandles ▸ hlost.acquire hkeep
    | destroy p =>
      obtain ⟨c, life, rfl, hc, hbound⟩ := destroy_cases h
      obtain ⟨hholds, n, hn, hhandles⟩ := holds_destroy hinv hc hbound
      rw [hhandles]
      exact hlost.release hinv.balanced ⟨c, hn⟩
        fun m _ ⟨d, hd⟩ => ⟨d, ((hholds d m).mp hd).1⟩
    | start | run | newBuffer | sendFails | zmqDone => cases ha

theorem handleLost_of_leak (hinv : SocketsInv s) (hleak : ¬ NoBindLeak s a)
    (h : processStep tapeBasedir s a = some s') : s'.sockets.handles.Lost s'.HandleOwner := by
  cases a with
  | start | run | newBuffer | sendFails | zmqDone | destroy => exact absurd trivial hleak
  | bind p created bound =>
    obtain ⟨first, hlife, hcan, rfl⟩ := processStep_bind h
    obtain ⟨rfl, hfails⟩ : bound = false ∧
        ¬ (created = false ∧ ¬ (p = .cchanOut ∧ s.life p = .bindSecond)) := by
      simpa only [NoBindLeak, Classical.not_imp] using hleak
    have hhandles := s.sockets.socket_handles (p.chan first) created
    cases created with
    | true =>
      refine ⟨s.sockets.handles.next, ?_, fun ⟨c, hc⟩ => ?_⟩
      · exact hhandles ▸ Ledger.mem_live_acquire.mpr (.inr rfl)
      · rcases holds_of_holds_bind hlife hcan hc with hold | ⟨_, hfalse, _⟩
        · exact absurd (hinv.balanced.lt_next (hinv.live _ _ hold)) (Nat.lt_irrefl _)
        · cases hfalse
    | false =>
      obtain ⟨rfl, hsecond⟩ : p = .cchanOut ∧ s.life p = .bindSecond := by simpa using hfails
      have hbound : s.Bound .cchanOut := by
        simp [Process.Bound, Chan.pthread, hsecond, Pthread.bound, Pthread.firstChan]
      obtain ⟨n, hn⟩ := hinv.held .cchanOut hbound
      refine ⟨n, hhandles ▸ hinv.live _ _ ⟨hbound, hn⟩, fun ⟨c, hc⟩ => ?_⟩
      rcases holds_of_holds_bind hlife hcan hc with hold | ⟨hfalse, _⟩
      · obtain rfl := hinv.distinct c .cchanOut n hold ⟨hbound, hn⟩
        obtain rfl : first = false := by
          cases first with
          | true => simp [hsecond] at hlife
          | false => rfl
        cases hc.1
      · cases hfalse

end Steps

/-- Every open handle is in the `sock` field of a chan that a thread will still destroy. -/
def Process.HandlesHeld (s : Process) : Prop :=
  ∀ h ∈ s.sockets.handles.live, ∃ c, s.WillDestroy c ∧ s.sockets.sock c = some h

/-- Handles are lost by the binds that leak, and by no other step. -/
theorem socketCustody (tapeBasedir : Bytes) : Custody (processStep tapeBasedir) NoBindLeak
    (fun s => s.sockets.handles) Process.HandleOwner SocketsInv where
  inv _ _ _ := socketsInv_step
  owned _ _ _ := handlesOwned_step
  leak _ _ _ := handleLost_of_leak
  lost _ _ _ := handleLost_step

/-- As long as no bind leaks, every open handle is held by a chan that a thread will still
destroy; and all handles are closed when the threads have been joined, exactly when none
leaked. -/
theorem sockets_closed_iff (tapeBasedir : Bytes) (gBuffer : Memory) (buffer : Party → Memory)
    (as : List ProcessAction) (s : Process)
    (run : Run (processStep tapeBasedir) unguarded (processInitial gBuffer buffer) as s) :
    (Run (processStep tapeBasedir) NoBindLeak (processInitial gBuffer buffer) as s →
      s.HandlesHeld) ∧
    (s.Joined → (s.sockets.handles.live = [] ↔
      Run (processStep tapeBasedir) NoBindLeak (processInitial gBuffer buffer) as s)) := by
  have hinitial := socketsInv_initial gBuffer buffer
  constructor
  · intro noLeak h hh
    obtain ⟨c, hbound, hsock⟩ := ((socketCustody tapeBasedir).owned_run hinitial rfl noLeak).2 h hh
    exact ⟨c, Pthread.toDestroy_of_bound hbound, hsock⟩
  · intro hjoined
    refine (socketCustody tapeBasedir).live_nil_iff hinitial rfl run fun h => ?_
    rintro ⟨c, hbound, _⟩
    simp [Process.Bound, hjoined c.pthread, Pthread.bound] at hbound

def binds (p : Pthread) : List ProcessAction := [.start p, .bind p true true, .bind p true true]

def leaveLoops : List Action :=
  List.flatten [[.inLoop], marketRefresh, [.outRead], calls .cchanOut 8, [.outTest]]

/-- From the loops of all threads to their end, on a shutdown. -/
def shutdownAll : List ProcessAction :=
  List.flatten [serveRequest ⟨1, .shutdown, none⟩ 0, leaveLoops.map .run,
    [.destroy .cchanIn, .destroy .cchanIn, .destroy .market, .destroy .market,
      .destroy .cchanOut, .destroy .cchanOut]]

/-- What a thread's life and the sockets look like in the end. -/
def Process.socketsLeft (s : Process) : List Life × List ℕ × List ℕ :=
  ([s.life .cchanIn, s.life .cchanOut, s.life .market], s.sockets.handles.live,
    s.sockets.handles.released)

theorem Process.joined_of_socketsLeft {s : Process} {live released : List ℕ}
    (h : s.socketsLeft = ([.returned, .returned, .returned], live, released)) :
    s.Joined ∧ s.sockets.handles.live = live ∧ s.sockets.handles.released = released := by
  simp only [Process.socketsLeft, Prod.mk.injEq, List.cons.injEq, and_true] at h
  obtain ⟨⟨hin, hout, hmarket⟩, hlive, hreleased⟩ := h
  exact ⟨fun p => by cases p <;> assumption, hlive, hreleased⟩

/-- The threads start in an order in which every connect finds its peer. -/
def bindsInOrder : List ProcessAction :=
  binds .cchanOut ++ binds .cchanIn ++ binds .market ++ shutdownAll

theorem sockets_closed_iff_in_order : ∃ s : Process,
    s.Joined ∧ s.sockets.handles.released = [2, 3, 4, 5, 1, 0] ∧
    Run (processStep []) NoBindLeak (processInitial (fun _ => 0) (fun _ _ => 0)) bindsInOrder s := by
  obtain ⟨s, run, hs⟩ := exists_run_of_foldlM_map (processStep []) unguarded
    (processInitial (fun _ => 0) (fun _ _ => 0)) bindsInOrder
    Process.socketsLeft (b := ([.returned, .returned, .returned], [], [2, 3, 4, 5, 1, 0]))
    (by decide)
  obtain ⟨hjoined, hlive, hreleased⟩ := Process.joined_of_socketsLeft hs
  exact ⟨s, hjoined, hreleased, ((sockets_closed_iff [] _ _ _ s run).2 hjoined).mp hlive⟩

/-- `cchan_in_thread` tries to connect before its peer has bound. -/
def earlyConnect : List ProcessAction :=
  [.start .cchanIn, .bind .cchanIn true true, .bind .cchanIn true false] ++ binds .cchanOut ++
    [.bind .cchanIn true true] ++ binds .market ++ shutdownAll

/-- The handle of that attempt is open when all threads have been joined, and no `sock` field
has it. -/
theorem sockets_open_after_early_connect : ∃ s : Process,
    Run (processStep []) unguarded (processInitial (fun _ => 0) (fun _ _ => 0)) earlyConnect s ∧
    s.Joined ∧ s.sockets.handles.live = [1] ∧ ∀ c, s.sockets.sock c ≠ some 1 := by
  obtain ⟨s, run, hs⟩ := exists_run_of_foldlM_map (processStep []) unguarded
    (processInitial (fun _ => 0) (fun _ _ => 0)) earlyConnect
    (fun s => (s.socketsLeft, [s.sockets.sock .cchanIn, s.sockets.sock .cchanInOutInmem,
      s.sockets.sock .cchanOut, s.sockets.sock .cchanInMem, s.sockets.sock .mchan,
      s.sockets.sock .marketOutInmem]))
    (b := (([.returned, .returned, .returned], [1], [0, 4, 5, 6, 3, 2]),
      [some 0, some 4, some 2, some 3, some 5, some 6])) (by decide)
  obtain ⟨hs, hsock⟩ := Prod.mk.inj hs
  obtain ⟨hjoined, hlive, _⟩ := Process.joined_of_socketsLeft hs
  refine ⟨s, run, hjoined, hlive, fun c => ?_⟩
  simp only [List.cons.injEq, and_true] at hsock
  cases c <;> simp [hsock]

end Wineing
