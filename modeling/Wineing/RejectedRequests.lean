import Wineing.ControlSequence

/-!
# Do rejected requests leave a trace?

A start that finds no tape file has already set the size of the control thread's record
to 0 when it is rejected, and a later stop or shutdown publishes that. Where the size is
0 before each such request, rejected requests change nothing: the run without them has
the same publications and the same other responses.
-/

namespace Wineing
open CStringMemory GuardedRuns

def Rejects (tapeBasedir : Bytes) (s : State) (a : Action) : Prop :=
  ∃ x ∈ a.request,
    (cchanInSwitch tapeBasedir (s.thread .cchanIn).tData x.1 x.2).res.type.isOk = false

structure Unchanged (s s' : State) : Prop where
  tData : (s'.thread .cchanIn).tData = (s.thread .cchanIn).tData
  tVersion : (s'.thread .cchanIn).tVersion = (s.thread .cchanIn).tVersion
  gData : s'.lazy.gData = s.lazy.gData
  gVersion : s'.lazy.gVersion = s.lazy.gVersion

def LeavesNoTrace (tapeBasedir : Bytes) (s : State) (a : Action) : Prop :=
  Rejects tapeBasedir s a → ∀ s', step tapeBasedir s a = some s' → Unchanged s s'

/-- No bytes are in use when a start outside the running state names a missing file. -/
def NoBytesAtMissingFile (s : State) (a : Action) : Prop :=
  ∀ x ∈ a.request, x.1.type = .marketStart → s.cmd .cchanIn ≠ wineingCtrlCmdMarketRun →
    x.1.tapeFile.isSome = true → x.2 < 0 → (s.thread .cchanIn).tData.size = 0

def accepted (xs : List (Request × ℤ)) (responses : List Response) : List (Request × ℤ) :=
  ((xs.zip responses).filter fun x => x.2.type.isOk).map Prod.fst

/-- The record, the publications and the responses with OK. -/
def Served.withoutRejected (served : Served) : Served :=
  { served with responses := served.responses.filter (·.type.isOk) }

/-- Without its rejected requests a sequence has the same record, the same publications and
the same other responses. -/
def Removable (tapeBasedir : Bytes) (origin tData : WCtrl) (xs : List (Request × ℤ)) : Prop :=
  served tapeBasedir origin tData
      (accepted xs (served tapeBasedir origin tData xs).responses) =
    (served tapeBasedir origin tData xs).withoutRejected

private theorem accepted_snoc {xs : List (Request × ℤ)} {responses : List Response}
    (hlength : xs.length = responses.length) (x : Request × ℤ) (res : Response) :
    accepted (xs ++ [x]) (responses ++ [res]) =
      accepted xs responses ++ if res.type.isOk then [x] else [] := by
  unfold accepted
  rw [List.zip_append hlength, List.filter_append, List.map_append]
  cases hok : res.type.isOk <;> simp [hok]

theorem accepted_sublist {xs : List (Request × ℤ)} {responses : List Response}
    (hlength : xs.length ≤ responses.length) : (accepted xs responses).Sublist xs := by
  have hsub := (List.filter_sublist (p := fun x => x.2.type.isOk) (l := xs.zip responses)).map
    Prod.fst
  rwa [List.map_fst_zip hlength] at hsub

section Switch

variable {tapeBasedir : Bytes} {tData : WCtrl} {req : Request} {fileExists : ℤ}

theorem cchanInSwitch_rejected
    (hrejected : (cchanInSwitch tapeBasedir tData req fileExists).res.type.isOk = false) :
    (cchanInSwitch tapeBasedir tData req fileExists).tData = tData ∨
    (req.type = .marketStart ∧ tData.cmd ≠ wineingCtrlCmdMarketRun ∧
      req.tapeFile.isSome = true ∧ fileExists < 0 ∧
      (cchanInSwitch tapeBasedir tData req fileExists).tData = { tData with size := 0 }) := by
  cases htype : req.type with
  | marketStop => simp [cchanInSwitch, htype, ResponseType.isOk] at hrejected
  | shutdown => simp [cchanInSwitch, htype, ResponseType.isOk] at hrejected
  | marketStart =>
    by_cases hcmd : tData.cmd = wineingCtrlCmdMarketRun
    · exact .inl (by simp [cchanInSwitch, htype, hcmd])
    · cases hfile : req.tapeFile with
      | none => simp [cchanInSwitch, htype, hcmd, hfile, ResponseType.isOk] at hrejected
      | some tapeFile =>
        by_cases hexists : fileExists < 0
        · exact .inr ⟨rfl, hcmd, rfl, hexists, by simp [cchanInSwitch, htype, hcmd, hfile, hexists]⟩
        · simp [cchanInSwitch, htype, hcmd, hfile, hexists, ResponseType.isOk] at hrejected

end Switch

section Steps

variable {tapeBasedir : Bytes} {as : List Action} {s s' : State} {a : Action}

theorem step_request {x : Request × ℤ} (hx : a.request = some x)
    (h : step tapeBasedir s a = some s') :
    (s'.thread .cchanIn).tData =
      (cchanInSwitch tapeBasedir (s.thread .cchanIn).tData x.1 x.2).tData ∧
    (s'.thread .cchanIn).tVersion = (s.thread .cchanIn).tVersion ∧
    s'.lazy.gData = s.lazy.gData ∧ s'.lazy.gVersion = s.lazy.gVersion := by
  cases moves_of_step h with
  | inRefuse pc refused =>
    rw [receivedRequest_eq] at refused
    simp [Action.request, refused] at hx
  | inAnswer pc received switched assigned =>
    obtain rfl := Option.some.inj ((request_of_inRecv received).symm.trans hx)
    obtain ⟨_, rfl⟩ := lazyStep_assign assigned
    subst switched
    simp [State.thread]
  | _ => cases hx

theorem leavesNoTrace_iff (h : step tapeBasedir s a = some s') :
    LeavesNoTrace tapeBasedir s a ↔ NoBytesAtMissingFile s a := by
  constructor
  · intro htrace x hx htype hcmd hfile hexists
    obtain ⟨tapeFile, hfile⟩ := Option.isSome_iff_exists.mp hfile
    have hout := cchanInSwitch_missing tapeBasedir htype hcmd hfile hexists
    have hsame := (htrace ⟨x, hx, by rw [hout]; rfl⟩ s' h).tData
    rw [(step_request hx h).1, hout] at hsame
    exact (congrArg WCtrl.size hsame).symm
  · rintro hbytes ⟨x, hx, hrejected⟩ t ht
    obtain ⟨htData, htVersion, hgData, hgVersion⟩ := step_request hx ht
    refine ⟨?_, htVersion, hgData, hgVersion⟩
    rw [htData]
    rcases cchanInSwitch_rejected hrejected with hsame | ⟨htype, hcmd, hfile, hexists, hsize⟩
    · exact hsame
    · rw [hsize, ← hbytes x hx htype hcmd hfile hexists]

variable {origin tData : WCtrl}

theorem Removable.snoc {xs : List (Request × ℤ)} (hxs : Removable tapeBasedir origin tData xs)
    (x : Request × ℤ)
    (hx : (cchanInSwitch tapeBasedir (served tapeBasedir origin tData xs).tData x.1
        x.2).res.type.isOk = false →
      (cchanInSwitch tapeBasedir (served tapeBasedir origin tData xs).tData x.1 x.2).tData =
        (served tapeBasedir origin tData xs).tData) :
    Removable tapeBasedir origin tData (xs ++ [x]) := by
  have hlength := length_served_responses tapeBasedir origin tData xs
  unfold Removable at hxs ⊢
  rw [served_snoc]
  generalize served tapeBasedir origin tData xs = v at hxs hx hlength ⊢
  have hpublish := cchanInSwitch_publish tapeBasedir v.tData x.1 x.2
  simp only [Served.serve, accepted_snoc hlength.symm]
  cases hok : (cchanInSwitch tapeBasedir v.tData x.1 x.2).res.type.isOk with
  | true =>
    rw [if_pos rfl, served_snoc, hxs]
    simp [Served.serve, Served.withoutRejected, hpublish, hok]
  | false =>
    rw [if_neg Bool.false_ne_true, List.append_nil, hxs]
    simp [Served.withoutRejected, hpublish, hok, hx hok]

private theorem removable_step (hs : SequenceInv tapeBasedir origin tData as s)
    (hxs : Removable tapeBasedir origin tData (requests as)) (ha : LeavesNoTrace tapeBasedir s a)
    (h : step tapeBasedir s a = some s') :
    Removable tapeBasedir origin tData (requests (as ++ [a])) := by
  cases hx : a.request with
  | none =>
    rw [requests_snoc_none as hx]
    exact hxs
  | some x =>
    rw [requests_snoc_some as hx]
    refine hxs.snoc x ?_
    rw [← hs.record]
    intro hrejected
    rw [← (step_request hx h).1]
    exact (ha ⟨x, hx, hrejected⟩ s' h).tData

variable {gBuffer : Memory} {buffer : Party → Memory}

private theorem removable_run
    (run : Run (step tapeBasedir) (LeavesNoTrace tapeBasedir) (initial gBuffer buffer) as s) :
    Removable tapeBasedir ⟨wineingCtrlCmdInit, gBuffer, 0⟩
      ⟨wineingCtrlCmdInit, buffer .cchanIn, 0⟩ (requests as) :=
  (run.history (fun as s => SequenceInv tapeBasedir ⟨wineingCtrlCmdInit, gBuffer, 0⟩
      ⟨wineingCtrlCmdInit, buffer .cchanIn, 0⟩ as s ∧ Removable tapeBasedir
      ⟨wineingCtrlCmdInit, gBuffer, 0⟩ ⟨wineingCtrlCmdInit, buffer .cchanIn, 0⟩ (requests as))
    ⟨sequenceInv_initial _ _ _, rfl⟩
    (fun _ _ _ _ ht ha hs => ⟨sequenceInv_step ht.1 hs, removable_step ht.1 ht.2 ha hs⟩)).2

/-- Between two requests, the run and one that receives only its accepted requests agree. -/
theorem Removable.runs_agree {bs : List Action} {t : State}
    (hremovable : Removable tapeBasedir origin tData (requests as))
    (hs : SequenceInv tapeBasedir origin tData as s) (hrest : s.AtRest)
    (ht : SequenceInv tapeBasedir origin tData bs t) (hrest' : t.AtRest)
    (hbs : requests bs = accepted (requests as) s.pushed) :
    t.pushed = s.pushed.filter (·.type.isOk) ∧
    t.lazy.published.map Publication.ctrl = s.lazy.published.map Publication.ctrl := by
  obtain ⟨hpushed, hpublished⟩ := hs.of_atRest hrest
  obtain ⟨hpushed', hpublished'⟩ := ht.of_atRest hrest'
  rw [hpushed', hpublished', hbs, hpushed, hremovable, hpublished]
  exact ⟨rfl, rfl⟩

end Steps

/-- Rejected requests leave no trace in exactly the runs in which no start names a missing
file while the control thread's record has bytes in use. In these runs every rejection
leaves versions and records as they are, and the runs that receive the accepted requests
alone, of which there are some, publish the same records and push the same other
responses. -/
theorem rejected_leave_no_trace_iff (tapeBasedir : Bytes) (gBuffer : Memory)
    (buffer : Party → Memory) (as : List Action) (s : State) :
    (Run (step tapeBasedir) (LeavesNoTrace tapeBasedir) (initial gBuffer buffer) as s ∧
      (s.AtRest →
        (∃ bs t, Run (step tapeBasedir) unguarded (initial gBuffer buffer) bs t ∧ t.AtRest ∧
          requests bs = accepted (requests as) s.pushed) ∧
        ∀ bs t, Run (step tapeBasedir) unguarded (initial gBuffer buffer) bs t → t.AtRest →
          requests bs = accepted (requests as) s.pushed →
          t.pushed = s.pushed.filter (·.type.isOk) ∧
          t.lazy.published.map Publication.ctrl = s.lazy.published.map Publication.ctrl)) ↔
    Run (step tapeBasedir) NoBytesAtMissingFile (initial gBuffer buffer) as s := by
  have hguards : Run (step tapeBasedir) (LeavesNoTrace tapeBasedir) (initial gBuffer buffer) as s ↔
      Run (step tapeBasedir) NoBytesAtMissingFile (initial gBuffer buffer) as s :=
    Run.guard_congr (fun _ _ _ hs => leavesNoTrace_iff hs)
  rw [← hguards]
  refine ⟨And.left, fun run => ⟨run, fun hrest => ⟨?_, fun bs t hbs hrest' hrequests => ?_⟩⟩⟩
  · have hs := sequenceInv_run run
    have hlength : (requests as).length ≤ s.pushed.length := by
      rw [(hs.of_atRest hrest).1, length_served_responses]
    obtain ⟨bs, t, hbs, hrequests, hquiet, _⟩ :=
      exists_run_of_requests tapeBasedir gBuffer buffer (accepted (requests as) s.pushed)
        (hs.control.requests_pairwise.sublist (accepted_sublist hlength))
    exact ⟨bs, t, hbs, hquiet.atRest, hrequests⟩
  · exact (removable_run run).runs_agree (sequenceInv_run run) hrest (sequenceInv_run hbs) hrest'
      hrequests

/-- A stop between two starts, the second of which names a missing file. -/
def startAfterStop : List Action :=
  serve ⟨1, .marketStart, some (ascii "a.nxc")⟩ 0 ++ serve ⟨2, .marketStop, none⟩ 0 ++
    [.inLoop, .inRecv (some (Request.frame ⟨3, .marketStart, some (ascii "b.nxc")⟩)) (-1),
      .inPush] ++ serve ⟨4, .marketStop, none⟩ 0

/-- The same without the rejected start. -/
def startAndStops : List Action :=
  serve ⟨1, .marketStart, some (ascii "a.nxc")⟩ 0 ++ serve ⟨2, .marketStop, none⟩ 0 ++
    serve ⟨4, .marketStop, none⟩ 0

/-- The last stop publishes no bytes, in the run without the rejected start it publishes
the path of the first tape. -/
theorem rejected_start_loses_size : ∃ s t : State,
    Run (step []) unguarded (initial (fun _ => 0) (fun _ _ => 0)) startAfterStop s ∧
    Run (step []) unguarded (initial (fun _ => 0) (fun _ _ => 0)) startAndStops t ∧
    s.AtRest ∧ t.AtRest ∧ requests startAndStops = accepted (requests startAfterStop) s.pushed ∧
    s.lazy.published.map (fun p => (p.ctrl.cmd, p.ctrl.size)) = [(4, 0), (3, 6), (2, 6), (2, 0)] ∧
    t.lazy.published.map (fun p => (p.ctrl.cmd, p.ctrl.size)) =
      [(4, 0), (3, 6), (2, 6), (2, 6)] := by
  obtain ⟨s, run, hs⟩ := exists_run_of_foldlM_map (step []) unguarded
    (initial (fun _ => 0) (fun _ _ => 0)) startAfterStop
    (fun s => (accepted (requests startAfterStop) s.pushed, s.inHand,
      s.lazy.published.map fun p => (p.ctrl.cmd, p.ctrl.size)))
    (b := ([(⟨1, .marketStart, some (ascii "a.nxc")⟩, 0), (⟨2, .marketStop, none⟩, 0),
      (⟨4, .marketStop, none⟩, 0)], [], [(4, 0), (3, 6), (2, 6), (2, 0)])) (by decide)
  obtain ⟨t, run', ht⟩ := exists_run_of_foldlM_map (step []) unguarded
    (initial (fun _ => 0) (fun _ _ => 0)) startAndStops
    (fun t => (t.inHand, t.lazy.published.map fun p => (p.ctrl.cmd, p.ctrl.size)))
    (b := ([], [(4, 0), (3, 6), (2, 6), (2, 6)])) (by decide)
  simp only [Prod.mk.injEq] at hs ht
  obtain ⟨haccepted, hrest, hpublished⟩ := hs
  obtain ⟨hrest', hpublished'⟩ := ht
  exact ⟨s, t, run, run', hrest, hrest', haccepted.symm ▸ rfl, hpublished, hpublished'⟩

end Wineing
