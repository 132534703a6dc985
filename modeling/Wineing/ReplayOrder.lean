import Wineing.TapeSelection

/-!
# The order of the replays

Each call of `sNxCoreProcessTape` replays an acknowledged start, with its tape if it names
one, and the replays never go back behind a later one, although `market_thread` repeats a
tape as often as it ends and skips the starts that another command has overtaken. A replay is
at least as new as what had been published when the thread last looked.
-/

namespace Wineing
open CStringMemory GuardedRuns

/-- The record of `market_thread` where it calls `sNxCoreProcessTape`. -/
def replayed (s : State) : Action → List (LazyThread ℤ)
  | .marketRun true => [s.thread .market]
  | _ => []

/-- A replay is for an acknowledged start and, where that names a tape, is given the path of
this tape. -/
def ReplaysStart (tapeBasedir : Bytes) (log : ControlLog) (t : LazyThread ℤ) : Prop :=
  ∃ (k : ℕ) (req : Request), t.tVersion = k + 1 ∧ log.acknowledged[k]? = some req ∧
    req.type = .marketStart ∧ ∀ tapeFile, req.tapeFile = some tapeFile →
      IsCString t.tData.data (untilNul (tapeBasedir ++ tapeFile))

/-- The replays so far, none newer than the record of `market_thread`. -/
structure ReplayedInv (tapeBasedir : Bytes) (as : List Action) (rs : List (LazyThread ℤ))
    (s : State) : Prop where
  control : ControlInv tapeBasedir as s
  replay : ReplayInv s
  ordered : rs.Pairwise fun r r' => r.tVersion ≤ r'.tVersion
  past : ∀ r ∈ rs, r.tVersion ≤ (s.thread .market).tVersion
  starts : ∀ r ∈ rs, ReplaysStart tapeBasedir (controlLog as) r

section Steps

variable {tapeBasedir : Bytes} {as : List Action} {s s' : State} {a : Action} {p : Party}

private theorem acknowledged_snoc (as : List Action) (a : Action) :
    (controlLog as).acknowledged <+: (controlLog (as ++ [a])).acknowledged := by
  cases ha : a.request with
  | none => exact ⟨[], by rw [List.append_nil, controlLog_snoc_none as ha]⟩
  | some x =>
    rw [controlLog_snoc_some as ha, ControlLog.acknowledged_respond]
    exact List.prefix_append ..

theorem ReplaysStart.snoc {t : LazyThread ℤ} (h : ReplaysStart tapeBasedir (controlLog as) t)
    (a : Action) : ReplaysStart tapeBasedir (controlLog (as ++ [a])) t := by
  obtain ⟨k, req, hk, hreq, htype, htape⟩ := h
  obtain ⟨more, hmore⟩ := acknowledged_snoc as a
  refine ⟨k, req, hk, ?_, htype, htape⟩
  rw [← hmore, List.getElem?_append_left (List.getElem?_eq_some_iff.mp hreq).1]
  exact hreq

theorem replayedInv_initial (tapeBasedir : Bytes) (gBuffer : Memory) (buffer : Party → Memory) :
    ReplayedInv tapeBasedir [] [] (initial gBuffer buffer) where
  control := controlInv_initial _ _ _
  replay := replayInv_initial _ _
  ordered := .nil
  past _ h := nomatch h
  starts _ h := nomatch h

theorem replaysStart_of_replayed (hs : ControlInv tapeBasedir as s) (hr : ReplayInv s)
    (h : Moves tapeBasedir s a s') {r : LazyThread ℤ} (hmem : r ∈ replayed s a) :
    r = s.thread .market ∧ ReplaysStart tapeBasedir (controlLog as) r := by
  cases h with
  | @marketRun loaded pc =>
    cases loaded with
    | false => cases hmem
    | true =>
      obtain rfl := List.mem_singleton.mp hmem
      obtain ⟨k, req, q, hk, hreq, htype, _, hagrees, hrecord⟩ := market_start_request hs hr pc
      exact ⟨rfl, k, req, hk, hreq, htype,
        fun tapeFile => (hrecord.of_agrees hagrees).isCString htype⟩
  | _ => cases hmem

private theorem replayedInv_step {rs : List (LazyThread ℤ)} (hs : ReplayedInv tapeBasedir as rs s)
    (h : step tapeBasedir s a = some s') :
    ReplayedInv tapeBasedir (as ++ [a]) (rs ++ replayed s a) s' := by
  have hmoves := moves_of_step h
  have hnew := fun {r} => replaysStart_of_replayed hs.control hs.replay hmoves (r := r)
  have hmono : (s.thread .market).tVersion ≤ (s'.thread .market).tVersion :=
    tVersion_mono hs.control.threads.lazy (by decide) hmoves
  refine ⟨controlInv_step hs.control h, replayInv_step hs.control.threads hs.replay h, ?ordered,
    fun r hr => ?past, fun r hr => ?starts⟩
  case ordered =>
    refine List.pairwise_append.mpr ⟨hs.ordered, ?_, fun r hr r' hr' => ?_⟩
    · refine List.pairwise_of_forall_mem_list fun r hr r' hr' => ?_
      rw [(hnew hr).1, (hnew hr').1]
    · exact (hnew hr').1 ▸ hs.past r hr
  case past =>
    rcases List.mem_append.mp hr with hold | hadded
    · exact (hs.past r hold).trans hmono
    · exact (hnew hadded).1 ▸ hmono
  case starts =>
    rcases List.mem_append.mp hr with hold | hadded
    · exact (hs.starts r hold).snoc a
    · exact (hnew hadded).2.snoc a

/-- What was published before a read is found by it and the later ones. -/
theorem fresh_of_read {t u : State} {bs : List Action} (ht : ThreadsInv t)
    (read : step tapeBasedir t .marketRead = some u)
    (after : Run (step tapeBasedir) unguarded u bs s) : Fresh t.lazy.gVersion .market s.lazy := by
  have hu := threadsInv_step ht read
  have hfresh : Fresh t.lazy.gVersion .market u.lazy := by
    cases moves_of_step read with
    | marketRead pc called => exact fresh_of_call le_rfl called
  refine (after.invariant (fun v => ThreadsInv v ∧ Fresh t.lazy.gVersion .market v.lazy)
    ⟨hu, hfresh⟩ ?_).2
  rintro v a w ⟨hv, hf⟩ _ moved
  exact ⟨threadsInv_step hv moved, fresh_moves hv.lazy (by decide) hf (moves_of_step moved)⟩

end Steps

/-- The replays are those of acknowledged starts in their order, with the tapes that these name;
and at a replay nothing newer had been published when `market_thread` last began to look. -/
theorem replays_follow_requests (tapeBasedir : Bytes) (gBuffer : Memory) (buffer : Party → Memory)
    (as : List Action) (s : State)
    (run : Run (step tapeBasedir) unguarded (initial gBuffer buffer) as s) :
    ((observed (step tapeBasedir) replayed (initial gBuffer buffer) as).Pairwise
      fun r r' => r.tVersion ≤ r'.tVersion) ∧
    (∀ r ∈ observed (step tapeBasedir) replayed (initial gBuffer buffer) as,
      ReplaysStart tapeBasedir (controlLog as) r) ∧
    (∀ xs ys t u, Run (step tapeBasedir) unguarded (initial gBuffer buffer) xs t →
      step tapeBasedir t .marketRead = some u → Run (step tapeBasedir) unguarded u ys s →
      s.marketPc = .nxRun → t.lazy.gVersion ≤ (s.thread .market).tVersion) := by
  have hs := run.observing replayed (ReplayedInv tapeBasedir)
    (replayedInv_initial tapeBasedir gBuffer buffer)
    fun _ _ _ _ _ ht _ moved => replayedInv_step ht moved
  refine ⟨hs.ordered, hs.starts, fun xs ys t u before read after hpc => ?_⟩
  have hidle : s.Idle .market := hs.control.threads.calls .market (by simp [State.waiting, hpc])
  exact hidle.le_tVersion (fresh_of_read (controlInv_run before).threads read after)

/-- A tape that is replayed twice, and the one that comes after a stop. -/
def twoTapes : List Action :=
  List.flatten [serve ⟨1, .marketStart, some (ascii "a.nxc")⟩ 0, marketRefresh,
    [.marketRun true, .marketReturn, .marketRead] ++ calls .market 2 ++ [.marketTest],
    [.marketRun true, .marketReturn], serve ⟨2, .marketStop, none⟩ 0,
    serve ⟨3, .marketStart, some (ascii "b.nxc")⟩ 0, marketRefresh, [.marketRun true]]

theorem replays_follow_requests_twoTapes :
    (observed (step []) replayed (initial (fun _ => 0) (fun _ _ => 0)) twoTapes).map
      LazyThread.tVersion = [1, 1, 3] ∧
    ∀ r ∈ observed (step []) replayed (initial (fun _ => 0) (fun _ _ => 0)) twoTapes,
      ReplaysStart [] (controlLog twoTapes) r := by
  obtain ⟨s, run, _⟩ := exists_run_of_foldlM_map (step []) unguarded
    (initial (fun _ => 0) (fun _ _ => 0)) twoTapes State.marketPc (b := .running) (by decide)
  exact ⟨by decide, (replays_follow_requests [] _ _ _ s run).2.1⟩

end Wineing
